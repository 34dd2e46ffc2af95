import ImportTree.Metadata.Record

/-!
# Errors of an analysis

What can stop an analysis, and the words for it.
-/
namespace ImportTree

/-- Why a loader has no text for an address: a message, and what caused it, the nearest cause first. -/
structure LoadFailure where
  message : String
  causes : List String := []
deriving DecidableEq, Repr

/-- Why an analysis stops. -/
inductive AnalysisError where
  /-- The document or script at the address cannot be read. -/
  | unreadable (address reason : String)
  /-- The document at `address` declares a name that the one at `firstAddress` has declared before. -/
  | duplicate (kind : Kind) (name firstAddress address : String)
  | notLoaded (address : String) (failure : LoadFailure)
  /-- The target does not lead from the base to an address. -/
  | unresolvable (base target : String)
  /-- The analysis was given up before the address was loaded. -/
  | detached (address : String)
deriving DecidableEq, Repr

namespace AnalysisError

def message : AnalysisError → String
  | .unreadable address reason => "Failed to parse '" ++ address ++ "': " ++ reason
  | .duplicate kind name firstAddress address =>
    "Duplicate " ++ kind.label ++ " definition '" ++ name ++ "' in '" ++ address ++
      "' (already defined in '" ++ firstAddress ++ "')"
  | .notLoaded address failure => "Failed to load '" ++ address ++ "': " ++ failure.message
  | .unresolvable base target => "Cannot resolve '" ++ target ++ "' against '" ++ base ++ "'"
  | .detached address => "Resolver was dropped before '" ++ address ++ "' finished loading"

def causes : AnalysisError → List String
  | .notLoaded _ failure => failure.message :: failure.causes
  | _ => []

def conflictingName? : AnalysisError → Option String
  | .duplicate _ name _ _ => some name
  | _ => none

end AnalysisError

theorem toOption_eq_some {ε α : Type} {r : Except ε α} {v : α} (h : r.toOption = some v) : r = .ok v := by
  cases r with
  | error e => cases h
  | ok v' => cases h; rfl

end ImportTree
