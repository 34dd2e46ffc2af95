import ImportTree.Markup.Attribute
import ImportTree.Markup.Construct
import ImportTree.Markup.Fault
import ImportTree.Markup.Node
import ImportTree.Text.Space

/-!
# The structure of a document

Collects scripts, import links and template modules from the constructs of a document. The line of a
node is one more than the number of line feeds written before it.
-/
namespace ImportTree.Structure

open Markup

/-! ## Constructs with nodes -/

/-- Whether a link names another document to import. -/
def isImportLink (node : Node) : Bool :=
  match node.attribute? "rel" with
  | some rel => (Text.asciiWords rel.toList).any (Text.sameLetters "import".toList)
  | none => false

/-- The content of a script, unless it is blank. -/
def scriptText? (body : List Char) : Option String :=
  if Text.isAllSpace body then none else some (String.ofList body)

/-- The structure of a single construct that begins on the given line. -/
def ofConstruct (line : Nat) : Construct → Structure
  | .script _ attributes body _ =>
    { scripts := [⟨"script", Attribute.ofText attributes, scriptText? body, line⟩] }
  | .startTag name attributes =>
    let node : Node := ⟨String.ofList (Text.lower name), Attribute.ofText attributes, none, line⟩
    if node.tag = "link" then
      if isImportLink node then { imports := [node] } else {}
    else if node.tag = "dom-module" then { templates := [node] }
    else {}
  | _ => {}

/-- The structure of constructs of which the first begins on the given line. -/
def ofConstructs (line : Nat) : List Construct → Structure
  | [] => {}
  | k :: ks => (ofConstruct line k).append (ofConstructs (line + Text.newlines k.written) ks)

/-! ## Documents -/

/-- Reads a document; the fault is on the line of the construct that does not end. -/
def read (text : String) : Except SyntaxFault Structure :=
  match Construct.readAll text.toList with
  | (ks, none) => .ok (ofConstructs 1 ks)
  | (ks, some cut) => .error ⟨1 + Text.newlines (Construct.writtenAll ks), cut.reason⟩

end ImportTree.Structure
