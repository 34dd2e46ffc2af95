import ImportTree.Markup.Node
import ImportTree.Metadata.Record

/-!
# Import trees

The tree of a document and everything it imports. A document that occurs again is not expanded a second
time: a placeholder stands for it.
-/
namespace ImportTree

/-- What a tree says of one document. -/
structure Page where
  address : String
  elements : List Element
  modules : List Declaration
  markup : Structure
deriving DecidableEq, Repr

/-- The imports of a document, in order. -/
inductive Imports where
  | nil
  | placeholder (address : String) (rest : Imports)
  | expanded (page : Page) (imports : Imports) (rest : Imports)
deriving DecidableEq, Repr

/-- A document with its imports. -/
structure Tree where
  page : Page
  imports : Imports
deriving DecidableEq, Repr

namespace Imports

/-- The expanded documents, each before its imports. -/
def pages : Imports → List Page
  | .nil => []
  | .placeholder _ rest => rest.pages
  | .expanded page imports rest => page :: (imports.pages ++ rest.pages)

/-- The addresses of the imports themselves, in order. -/
def addresses : Imports → List String
  | .nil => []
  | .placeholder address rest => address :: rest.addresses
  | .expanded page _ rest => page.address :: rest.addresses

def hasPlaceholder : Imports → Bool
  | .nil => false
  | .placeholder _ _ => true
  | .expanded _ imports rest => imports.hasPlaceholder || rest.hasPlaceholder

/-- Cuts off everything deeper than the given depth. -/
def limit : Nat → Imports → Imports
  | 0, _ => .nil
  | _ + 1, .nil => .nil
  | depth + 1, .placeholder address rest => .placeholder address (rest.limit (depth + 1))
  | depth + 1, .expanded page imports rest => .expanded page (imports.limit depth) (rest.limit (depth + 1))

end Imports

namespace Tree

/-- The expanded documents, each before its imports. -/
def pages (t : Tree) : List Page :=
  t.page :: t.imports.pages

def expandedAddresses (t : Tree) : List String :=
  t.pages.map (·.address)

def elementCount (t : Tree) : Nat :=
  (t.pages.flatMap (·.elements)).length

def moduleCount (t : Tree) : Nat :=
  (t.pages.flatMap (·.modules)).length

end Tree

/-- The template that an element of the page is bound to. -/
def Page.templateFor? (page : Page) (e : Element) : Option Node :=
  e.template?.bind fun index => page.markup.templates[index]?

end ImportTree
