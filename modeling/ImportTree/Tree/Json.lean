import ImportTree.Report.Json
import ImportTree.Tree.Basic

/-!
# Import trees as JSON

Every record is an object with its fields in a fixed order; what is not set is left out. A placeholder
is an empty object.
-/
namespace ImportTree

open Report (Json)

/-- A field that is left out where there is no value. -/
def Report.Json.optional (key : String) (value? : Option Json) : List (String × Json) :=
  match value? with
  | some value => [(key, value)]
  | none => []

def Node.toJson (n : Node) : Json :=
  .object ([
    ("tag", .text n.tag),
    ("attributes", .array (n.attributes.map fun (name, value) => .array [.text name, .text value]))] ++
    Json.optional "text" (n.text?.map .text) ++
    [("line", .number n.line)])

def Structure.toJson (s : Structure) : Json :=
  .object [
    ("scripts", .array (s.scripts.map Node.toJson)),
    ("imports", .array (s.imports.map Node.toJson)),
    ("templates", .array (s.templates.map Node.toJson))]

def Declaration.fields (d : Declaration) : List (String × Json) :=
  [("is", .text d.name), ("href", .text d.address)] ++
    Json.optional "script_href" (d.scriptAddress?.map .text) ++
    [("line", .number d.line)] ++
    Json.optional "script" (d.script?.map .text)

def Element.toJson (e : Element) : Json :=
  .object (e.toDeclaration.fields ++ Json.optional "template" (e.template?.map .number))

def Page.fields (p : Page) : List (String × Json) := [
  ("href", .text p.address),
  ("elements", .array (p.elements.map Element.toJson)),
  ("modules", .array (p.modules.map fun d => .object d.fields)),
  ("structure", p.markup.toJson)]

def Imports.toJson : Imports → List Json
  | .nil => []
  | .placeholder _ rest => .object [] :: rest.toJson
  | .expanded page imports rest => .object (page.fields ++ [("imports", .array imports.toJson)]) :: rest.toJson

def Tree.toJson (t : Tree) : Json :=
  .object (t.page.fields ++ [("imports", .array t.imports.toJson)])

end ImportTree
