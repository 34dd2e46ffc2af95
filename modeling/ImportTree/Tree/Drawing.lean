import ImportTree.Report.Style
import ImportTree.Tree.Basic

/-!
# Drawings of import trees

A tree is drawn with a line for its root and one for every import, each below the document that
imports it. Elements stand in brackets and modules in braces. Placeholders are marked, and a legend
explains the mark.
-/
namespace ImportTree

open Report (paint)

/-! ## Lines -/

/-- The names of what a page declares, as they follow its address. -/
def Page.summary (colour : Bool) (p : Page) : String :=
  let names := fun style list => paint colour style (String.intercalate ", " (list.map Declaration.name))
  (if p.elements.isEmpty then "" else " [" ++ names .green (p.elements.map (·.toDeclaration)) ++ "]") ++
    (if p.modules.isEmpty then "" else " \x7b" ++ names .yellow p.modules ++ "\x7d")

namespace Imports

/-- Whether there are no imports. -/
def isEmpty : Imports → Bool
  | .nil => true
  | _ => false

/-- What joins an import to the line of its document, with other imports after it or without. -/
def branch (rest : Imports) : String :=
  if rest.isEmpty then "└── " else "├── "

/-- What the lines below an import begin with, with other imports after it or without. -/
def trunk (rest : Imports) : String :=
  if rest.isEmpty then "    " else "│   "

/-- The lines of imports, after what every one of them begins with. -/
def drawing (colour : Bool) (start : String) : Imports → List String
  | .nil => []
  | .placeholder address rest =>
    (start ++ rest.branch ++ paint colour .cyan address ++ paint colour .grey " (*)") :: rest.drawing colour start
  | .expanded page imports rest =>
    (start ++ rest.branch ++ paint colour .cyan page.address ++ page.summary colour) ::
      (imports.drawing colour (start ++ rest.trunk) ++ rest.drawing colour start)

end Imports

namespace Tree

def legend : String :=
  "(*) = already visited (see above)"

def drawing (colour : Bool) (t : Tree) : List String :=
  (paint colour .cyanBold t.page.address ++ t.page.summary colour) :: t.imports.drawing colour "" ++
    (if t.imports.hasPlaceholder then ["", paint colour .grey legend] else [])

end Tree

end ImportTree
