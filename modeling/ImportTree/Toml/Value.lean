/-!
# Values of TOML documents

A table grows while a document is read. How it came to be decides what may still be added to it, and a
path of keys leads through tables and to the last of several tables of one name.
-/
namespace ImportTree.Toml

/-! ## Values -/

/-- How a table came to be. -/
inductive Origin where
  /-- By a header of its own. -/
  | header
  /-- By the header of a table inside it. -/
  | implied
  /-- By a key with dots. -/
  | dotted
  /-- By braces; nothing can be added to it. -/
  | closed
deriving DecidableEq, Repr

/-- A value. Numbers with a point and moments in time are kept as they are written. -/
inductive Value where
  | text (s : String)
  | integer (n : Int)
  | decimal (literal : String)
  | boolean (b : Bool)
  | moment (literal : String)
  | array (items : List Value)
  | table (origin : Origin) (entries : List (String × Value))
  /-- Several tables of one name, the last of them apart. -/
  | tables (earlier : List (List (String × Value))) (last : List (String × Value))
deriving Repr

/-- The entries of a table in order, with no key twice. -/
abbrev Entries := List (String × Value)

namespace Entries

/-! ## Growing tables -/

/-- Adds an entry, or replaces the one with the same key. -/
def set (entries : Entries) (key : String) (value : Value) : Entries :=
  if (entries.lookup key).isSome then entries.map fun e => if e.1 = key then (key, value) else e
  else entries ++ [(key, value)]

/-- Changes the table to which a path of keys leads. Missing tables on the way are made with the given
origin; a key with dots does not lead through a table with a header of its own. -/
def change (made : Origin) (edit : Origin → Entries → Option (Origin × Entries)) :
    List String → Origin → Entries → Option (Origin × Entries)
  | [], origin, entries => edit origin entries
  | key :: path, origin, entries =>
    match entries.lookup key with
    | none =>
      match change made edit path made [] with
      | some (o, inner) => some (origin, entries.set key (.table o inner))
      | none => none
    | some (.table o inner) =>
      if o = .closed ∨ (made = .dotted ∧ o = .header) then none
      else
        match change made edit path o inner with
        | some (o, inner) => some (origin, entries.set key (.table o inner))
        | none => none
    | some (.tables earlier last) =>
      match change made edit path .header last with
      | some (_, last) => some (origin, entries.set key (.tables earlier last))
      | none => none
    | some _ => none

/-- Adds an entry whose key may have dots. All tables that the dots lead to are made by dots. -/
def put (path : List String) (key : String) (value : Value) (origin : Origin) (entries : Entries) :
    Option (Origin × Entries) :=
  change .dotted (fun o inner =>
    if (o == .dotted) == path.isEmpty ∨ (inner.lookup key).isSome then none
    else some (o, inner ++ [(key, value)])) path origin entries

/-- Starts a table with a header of its own. Only a table that was implied so far may have the same name. -/
def start (key : String) (origin : Origin) (entries : Entries) : Option (Origin × Entries) :=
  match entries.lookup key with
  | none => some (origin, entries ++ [(key, .table .header [])])
  | some (.table .implied inner) => some (origin, entries.set key (.table .header inner))
  | some _ => none

def startNext (key : String) (origin : Origin) (entries : Entries) : Option (Origin × Entries) :=
  match entries.lookup key with
  | none => some (origin, entries ++ [(key, .tables [] [])])
  | some (.tables earlier last) => some (origin, entries.set key (.tables (earlier ++ [last]) []))
  | some _ => none

end Entries

end ImportTree.Toml
