import ImportTree.Text.Ascii

/-!
# Markup nodes

An element of interest, and the three ordered lists of them that a document comes down to.
-/
namespace ImportTree

/-- A start tag with its attributes, and the text of the element where that is kept. -/
structure Node where
  /-- The tag name in lower case. -/
  tag : String
  /-- Names with values, in the order of the text. -/
  attributes : List (String × String) := []
  text? : Option String := none
  /-- The line of the opening tag, counted from one. -/
  line : Nat
deriving DecidableEq, Repr

/-- What importing needs of a document, each list in the order of the text. -/
structure Structure where
  scripts : List Node := []
  imports : List Node := []
  templates : List Node := []
deriving DecidableEq, Repr

namespace Node

/-- The value of the first attribute of this name, up to the case of ASCII letters. -/
def attribute? (node : Node) (name : String) : Option String :=
  (node.attributes.find? fun entry => Text.sameString entry.1 name).map Prod.snd

/-- Adds an attribute at the end, its name in lower case. -/
def addAttribute (node : Node) (name value : String) : Node :=
  { node with attributes := node.attributes ++ [(Text.lowerString name, value)] }

end Node

namespace Structure

def append (a b : Structure) : Structure where
  scripts := a.scripts ++ b.scripts
  imports := a.imports ++ b.imports
  templates := a.templates ++ b.templates

end Structure

end ImportTree
