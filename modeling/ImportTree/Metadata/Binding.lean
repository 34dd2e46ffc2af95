import ImportTree.Markup.Node
import ImportTree.Metadata.Record

/-!
# Templates of elements

An element is bound to the first template of its document whose identifier is the element's name.
-/
namespace ImportTree

/-- The position of the first template with this identifier. -/
def Structure.templateIndex? (s : Structure) (name : String) : Option Nat :=
  s.templates.findIdx? fun template => template.attribute? "id" == some name

/-- Binds an element to its template; an element without one keeps what it had. -/
def Element.bind (s : Structure) (e : Element) : Element :=
  match s.templateIndex? e.name with
  | some index => { e with template? := some index }
  | none => e

@[simp] theorem Element.toDeclaration_bind (s : Structure) (e : Element) :
    (e.bind s).toDeclaration = e.toDeclaration := by
  unfold Element.bind
  split <;> rfl

def bindTemplates (s : Structure) (elements : List Element) : List Element :=
  elements.map (Element.bind s)

end ImportTree
