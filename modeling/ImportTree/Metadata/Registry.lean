import ImportTree.Metadata.Error

/-!
# Registries

A registry maps each declared name of a kind to the address that declared it first. The first
declaration stays, and a second one is refused.
-/
namespace ImportTree

/-! ## One kind -/

/-- Declared names with the addresses that declared them, the latest first. -/
structure Registry where
  entries : List (String × String) := []
deriving DecidableEq, Repr

namespace Registry

def declaredIn? (r : Registry) (name : String) : Option String :=
  r.entries.lookup name

def size (r : Registry) : Nat :=
  r.entries.length

/-- Adds a name that is not declared yet. -/
def insert (r : Registry) (name address : String) : Registry :=
  ⟨(name, address) :: r.entries⟩

end Registry

/-! ## Both kinds -/

/-- The registries of an analysis. -/
structure Registries where
  elements : Registry := {}
  modules : Registry := {}
deriving DecidableEq, Repr

namespace Registries

def get (rs : Registries) : Kind → Registry
  | .element => rs.elements
  | .scriptModule => rs.modules

def set (rs : Registries) (kind : Kind) (r : Registry) : Registries :=
  match kind with
  | .element => { rs with elements := r }
  | .scriptModule => { rs with modules := r }

/-- Declares a name, which must be new to its kind. -/
def register (rs : Registries) (kind : Kind) (name address : String) : Except AnalysisError Registries :=
  match (rs.get kind).declaredIn? name with
  | some firstAddress => .error (.duplicate kind name firstAddress address)
  | none => .ok (rs.set kind ((rs.get kind).insert name address))

/-- Declares names in turn up to the first that is refused; what was declared before it stays. -/
def registerEach (rs : Registries) : List (Kind × Declaration) → Registries × Option AnalysisError
  | [] => (rs, none)
  | (kind, d) :: rest =>
    match rs.register kind d.name d.address with
    | .ok rs => rs.registerEach rest
    | .error e => (rs, some e)

/-- Declares what a script declares, the elements before the modules. -/
def registerAll (rs : Registries) (m : Metadata) : Registries × Option AnalysisError :=
  rs.registerEach m.declarations

end Registries

end ImportTree
