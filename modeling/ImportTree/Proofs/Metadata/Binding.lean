import ImportTree.Metadata.Binding
import ImportTree.Tree.Basic

/-!
# First templates

An element without a template is bound to the first template of its document that is identified by the element's name,
and stays without one if there is none. What counts is the first identifier of a template.
-/

namespace ImportTree

variable {s : Structure} {name : String} {i : Nat}

/-! ## Identifiers -/

/-- Whether a name is the value of the first attribute of a node that identifies it, in any case of letters. -/
def Node.Identifies (node : Node) (name : String) : Prop :=
  ∃ before key after, node.attributes = before ++ (key, name) :: after ∧ Text.sameString key "id" = true ∧
    ∀ entry ∈ before, Text.sameString entry.1 "id" = false

theorem Node.attribute?_eq_some_iff {node : Node} : node.attribute? "id" = some name ↔ node.Identifies name := by
  unfold Node.attribute? Node.Identifies
  rw [Option.map_eq_some_iff]
  constructor
  · rintro ⟨⟨key, value⟩, hfind, rfl⟩
    obtain ⟨hkey, before, after, hsplit, hbefore⟩ := List.find?_eq_some_iff_append.mp hfind
    exact ⟨before, key, after, hsplit, hkey, fun entry hentry => by simpa using hbefore entry hentry⟩
  · rintro ⟨before, key, after, hsplit, hkey, hbefore⟩
    refine ⟨(key, name), List.find?_eq_some_iff_append.mpr ⟨hkey, before, after, hsplit, fun entry hentry => ?_⟩, rfl⟩
    simp [hbefore entry hentry]

/-- Whether the template at an index is the first one that is identified by a name. -/
structure Structure.Selects (s : Structure) (name : String) (i : Nat) : Prop where
  identified : ∃ node, s.templates[i]? = some node ∧ node.Identifies name
  first : ∀ j < i, ∀ node, s.templates[j]? = some node → ¬node.Identifies name

namespace Structure

theorem templateIndex?_eq_some_iff : s.templateIndex? name = some i ↔ s.Selects name i := by
  rw [templateIndex?, List.findIdx?_eq_some_iff_getElem]
  simp only [beq_iff_eq, Node.attribute?_eq_some_iff]
  constructor
  · rintro ⟨hi, hnode, hfirst⟩
    refine ⟨⟨s.templates[i], List.getElem?_eq_getElem hi, hnode⟩, fun j hj node hget => ?_⟩
    obtain ⟨hj', rfl⟩ := List.getElem?_eq_some_iff.mp hget
    exact hfirst j hj
  · rintro ⟨⟨node, hget, hnode⟩, hfirst⟩
    obtain ⟨hi, rfl⟩ := List.getElem?_eq_some_iff.mp hget
    exact ⟨hi, hnode, fun j hj => hfirst j hj _ (List.getElem?_eq_getElem (Nat.lt_trans hj hi))⟩

theorem templateIndex?_eq_none_iff :
    s.templateIndex? name = none ↔ ∀ node ∈ s.templates, ¬node.Identifies name := by
  simp only [templateIndex?, List.findIdx?_eq_none_iff, beq_eq_false_iff_ne, ne_eq, Node.attribute?_eq_some_iff]

end Structure

/-! ## Bound elements -/

theorem Element.template?_bind {e : Element} (s : Structure) (h : e.template? = none) :
    (e.bind s).template? = s.templateIndex? e.name := by
  unfold Element.bind
  split
  next index hindex => exact hindex.symm
  next hnone => rw [h, hnone]

/-- Whether an element of a page is bound to the first template of the page for it, or to none if there is none. -/
structure Page.Binds (page : Page) (e : Element) : Prop where
  some_iff : ∀ i, e.template? = some i ↔ page.markup.Selects e.name i
  none_iff : e.template? = none ↔ ∀ node ∈ page.markup.templates, ¬node.Identifies e.name
  own : ∀ i, e.template? = some i →
    ∃ node ∈ page.markup.templates, page.templateFor? e = some node ∧ node.Identifies e.name

/-- Whether none of the declared elements has a template. -/
def Metadata.Unbound (m : Metadata) : Prop :=
  ∀ e ∈ m.elements, e.template? = none

theorem bindTemplates_declarations (s : Structure) (elements : List Element) :
    (bindTemplates s elements).map (·.toDeclaration) = elements.map (·.toDeclaration) := by
  simp [bindTemplates]

theorem Page.binds {page : Page} {m : Metadata} (hm : m.Unbound)
    (helements : page.elements = bindTemplates page.markup m.elements) : ∀ e ∈ page.elements, page.Binds e := by
  intro e he
  rw [helements] at he
  obtain ⟨e, hmem, rfl⟩ := List.mem_map.mp he
  have hname : (e.bind page.markup).name = e.name := by rw [Element.toDeclaration_bind]
  have htemplate := Element.template?_bind page.markup (hm e hmem)
  have hsome (i : Nat) : (e.bind page.markup).template? = some i ↔ page.markup.Selects e.name i := by
    rw [htemplate, Structure.templateIndex?_eq_some_iff]
  refine ⟨fun i => ?_, ?_, fun i hi => ?_⟩
  · rw [hsome, hname]
  · rw [htemplate, hname, Structure.templateIndex?_eq_none_iff]
  · obtain ⟨node, hget, hnode⟩ := ((hsome i).mp hi).identified
    refine ⟨node, List.mem_of_getElem? hget, ?_, hname ▸ hnode⟩
    rw [templateFor?, hi, Option.bind_some, hget]

end ImportTree
