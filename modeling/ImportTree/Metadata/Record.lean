/-!
# Declarations

What scripts declare: elements and modules, each a name with the place of its declaration.
-/
namespace ImportTree

/-- The two kinds of declared names. A name of one kind never meets a name of the other. -/
inductive Kind where
  | element
  | scriptModule
deriving DecidableEq, Repr

def Kind.label : Kind → String
  | .element => "element"
  | .scriptModule => "module"

/-- A declared name. -/
structure Declaration where
  name : String
  /-- The address of the document whose script declares the name. -/
  address : String := ""
  /-- The address of the script, where it has one of its own. -/
  scriptAddress? : Option String := none
  /-- The line inside the script, counted from one. -/
  line : Nat
  /-- The text of the script, where it is asked for. -/
  script? : Option String := none
deriving DecidableEq, Repr

/-- A declared element. -/
structure Element extends Declaration where
  /-- The position of the element's template among the templates of its document. -/
  template? : Option Nat := none
deriving DecidableEq, Repr

/-- What one script or one document declares. -/
structure Metadata where
  elements : List Element := []
  modules : List Declaration := []
deriving DecidableEq, Repr

namespace Metadata

def append (a b : Metadata) : Metadata where
  elements := a.elements ++ b.elements
  modules := a.modules ++ b.modules

/-- Whether nothing is declared. -/
def isEmpty (m : Metadata) : Bool :=
  m.elements.isEmpty && m.modules.isEmpty

/-- Every declaration with its kind, the elements first. -/
def declarations (m : Metadata) : List (Kind × Declaration) :=
  m.elements.map (fun e => (.element, e.toDeclaration)) ++ m.modules.map (fun d => (.scriptModule, d))

/-- Says of every declaration in which document, and in which script of its own, it stands. -/
def locate (m : Metadata) (address : String) (scriptAddress? : Option String) : Metadata where
  elements := m.elements.map fun e => { e with address, scriptAddress? }
  modules := m.modules.map fun d => { d with address, scriptAddress? }

end Metadata

end ImportTree
