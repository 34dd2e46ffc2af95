import ImportTree.Tree.Basic

/-!
# Listings of import trees

A tree is listed with two blanks for every level: the address of a document, what it declares, and the
documents that it imports.
-/
namespace ImportTree

def Page.listing (indent : String) (p : Page) : List String :=
  let line := fun (label : String) (d : Declaration) =>
    indent ++ "  " ++ label ++ " " ++ d.name ++ " line " ++ Nat.repr d.line
  (indent ++ p.address) ::
    (p.elements.map fun e => line "element" e.toDeclaration ++ (if e.template?.isSome then " (template)" else "")) ++
    p.modules.map (line "module")

def Imports.listing (indent : String) : Imports → List String
  | .nil => []
  | .placeholder address rest => (indent ++ address ++ " (*)") :: rest.listing indent
  | .expanded page imports rest => page.listing indent ++ imports.listing (indent ++ "  ") ++ rest.listing indent

def Tree.listing (t : Tree) : List String :=
  t.page.listing "" ++ t.imports.listing "  "

end ImportTree
