import ImportTree.Proofs.Session.Contents
import ImportTree.Proofs.Session.Extracts

/-!
# Inner declarations

What a document declares by scripts that stand in the document itself is what it would declare without a loader. While
its scripts are polled, each of them is on its way to what it declares so.
-/

namespace ImportTree

/-! ## Without scripts from elsewhere -/

/-- The declarations of scripts that stand in the document itself. -/
def Metadata.inner (m : Metadata) : Metadata where
  elements := m.elements.filter (·.scriptAddress? = none)
  modules := m.modules.filter (·.scriptAddress? = none)

/-- What the scripts that stand in the document itself add to its page. -/
def Page.inner (page : Page) : Page :=
  { page with
    elements := page.elements.filter (·.scriptAddress? = none)
    modules := page.modules.filter (·.scriptAddress? = none) }

namespace Metadata

variable {m m' : Metadata} {base : String}

theorem inner_append : (m.append m').inner = m.inner.append m'.inner := by
  simp [inner, append]

theorem inner_locate_none : (m.locate base none).inner = m.locate base none := by
  simp [inner, locate]

theorem inner_locate_some {script : String} : (m.locate base (some script)).inner = {} := by
  simp [inner, locate]

/-- The names of inner declarations are among all names, in order. -/
theorem names_inner_sublist (kind : Kind) : (m.inner.names kind).Sublist (m.names kind) := by
  cases kind <;> exact List.filter_sublist.map _

end Metadata

theorem bindTemplates_filter (markup : Structure) (elements : List Element) :
    (bindTemplates markup elements).filter (·.scriptAddress? = none) =
      bindTemplates markup (elements.filter (·.scriptAddress? = none)) := by
  have hkept : ((fun e : Element => decide (e.scriptAddress? = none)) ∘ Element.bind markup) =
      fun e => decide (e.scriptAddress? = none) := by
    funext e
    rw [Function.comp_apply, Element.toDeclaration_bind]
  rw [bindTemplates, bindTemplates, List.filter_map, hkept]

theorem Session.inner_page (d : Document) (m : Metadata) : (page d m).inner = page d m.inner := by
  simp only [Page.inner, page, bindTemplates_filter, Metadata.inner]

/-- What a script declares when there is no loader, or why that cannot be found. -/
def Extractor.inner (x : Extractor) (base : String) (node : Node) : Except AnalysisError Metadata :=
  ({ x with loader? := none } : Extractor).content base node

namespace Extractor

variable {x y : Extractor} {base : String} {node : Node} {m : Metadata}

theorem inner_congr (hr : y.readScript = x.readScript) (ha : y.attach = x.attach) : y.inner = x.inner := by
  funext base node
  exact content_congr rfl fun _ _ _ => by simp only [hr, ha]

theorem Before.inner (h : x.Before y) : y.inner = x.inner :=
  inner_congr h.readScript h.attach

theorem inner_external {a : String} (h : node.External base a) : x.inner base node = .ok {} := by
  obtain ⟨target, hsrc, _⟩ := h.source
  simp only [Extractor.inner, content, body?, h.readable, h.text, hsrc]

theorem inner_silent (h : node.isReadableScript = true → node.text? = none ∧
    (node.attribute? "src" = none ∨ x.loader? = none)) : x.inner base node = .ok {} := by
  rw [Extractor.inner, content, body?]
  cases hr : node.isReadableScript with
  | false => rfl
  | true =>
      rw [(h hr).1]
      cases node.attribute? "src" <;> rfl

theorem inner_declare {text : String} (hr : node.isReadableScript = true) (ht : node.text? = some text)
    (h : x.declare base none text = (.ok m, y)) : x.inner base node = .ok m.inner := by
  have hread : x.read base none text = .ok m := by
    rw [declare_eq] at h
    unfold enroll at h
    split at h
    next => cases h
    next hm =>
      rw [hm]
      split at h <;> cases h
      rfl
  have hinner : m.inner = m := by
    rw [read] at hread
    split at hread
    next => cases hread
    next => cases hread; exact Metadata.inner_locate_none
  simp only [Extractor.inner, content, body?, hr, ht]
  rw [hinner, ← hread]
  rfl

theorem declare_elsewhere {script text : String} (h : x.declare base (some script) text = (.ok m, y)) :
    m.inner = {} := by
  unfold declare at h
  split at h
  next => cases h
  next =>
    dsimp only at h
    split at h <;> cases h
    exact Metadata.inner_locate_some

end Extractor

/-! ## Scripts on their way -/

namespace ScriptTask

/-- A script that has declared of inner declarations what is expected of it, as far as it is done. -/
inductive Agrees (expected : Node → Except AnalysisError Metadata) (base : String) : Node → ScriptTask → Prop where
  | fresh {node : Node} : Agrees expected base node (.fresh node)
  | waiting {node : Node} {a : String} {due : Nat} : node.External base a → Agrees expected base node (.waiting a due)
  | done {node : Node} {m : Metadata} : expected node = .ok m.inner → Agrees expected base node (.done m)
  | failed {node : Node} {e : AnalysisError} : Agrees expected base node (.failed e)

variable {x y : Extractor} {base : String} {node : Node} {task task' : ScriptTask}

theorem Agrees.external {a : String} {expected : Node → Except AnalysisError Metadata}
    (h : task.Agrees expected base node) (hl : task.Listening x base a y) : node.External base a := by
  cases hl with
  | waiting _ => cases h; assumption
  | asking hx => cases h; exact hx

theorem Polled.agrees (h : task.Polled x base (.ok task', y)) (ht : task.Agrees (x.inner base) base node) :
    task'.Agrees (x.inner base) base node := by
  generalize hr : (Except.ok task', y) = r at h
  cases h with
  | known | pending _ => cases hr; exact ht
  | silent hs => cases hr; cases ht; exact .done (Extractor.inner_silent hs)
  | @inline _ _ r _ hread htext hd =>
      cases r <;> cases hr
      cases ht
      exact .done (Extractor.inner_declare hread htext hd)
  | unresolved _ _ _ _ _ | failed _ _ _ | stuck => cases hr
  | asked hx _ _ => cases hr; cases ht; exact .waiting hx
  | @answered _ _ _ _ r _ _ hl _ _ hd =>
      have hx := ht.external hl
      cases r <;> cases hr
      refine .done ?_
      rw [Extractor.declare_elsewhere hd]
      exact Extractor.inner_external hx

theorem Advanced.agrees {pending : Nat} (h : task.Advanced x base pending (task', y))
    (ht : task.Agrees (x.inner base) base node) : task'.Agrees (x.inner base) base node := by
  cases h with
  | polled h => exact h.agrees ht
  | held _ _ => exact .failed

end ScriptTask

namespace Extraction

variable {x y : Extractor} {base : String} {nodes : List Node} {tasks tasks' : List ScriptTask} {m : Metadata}
  {expected : Node → Except AnalysisError Metadata}

theorem TasksPolled.agree {pending : Nat} (h : TasksPolled base pending x tasks (.ok tasks', y))
    (ht : List.Forall₂ (ScriptTask.Agrees (x.inner base) base) nodes tasks) :
    List.Forall₂ (ScriptTask.Agrees (x.inner base) base) nodes tasks' := by
  generalize hr : (Except.ok tasks', y) = r at h
  induction h generalizing nodes tasks' with
  | nil => cases hr; exact ht
  | failed _ => cases hr
  | @cons _ x y z r task task' tasks hp _ ih =>
      cases r with
      | error e => cases hr
      | ok rest =>
          cases hr
          cases ht with
          | cons h₁ h₂ =>
              have hinner := congrFun hp.before.inner base
              exact .cons (hp.agrees h₁) (hinner ▸ ih (hinner ▸ h₂) rfl)

/-- What scripts are expected to declare by themselves, one after another. -/
def Yields (expected : Node → Except AnalysisError Metadata) (nodes : List Node) (m : Metadata) : Prop :=
  ∃ parts, nodes.map expected = parts.map .ok ∧ m.inner = Metadata.join parts

theorem gather?_yields (h : List.Forall₂ (ScriptTask.Agrees expected base) nodes tasks)
    (hm : gather? tasks = some m) : Yields expected nodes m := by
  induction h generalizing m with
  | nil => cases hm; exact ⟨[], rfl, rfl⟩
  | cons h _ ih =>
      cases h with
      | fresh | waiting _ | failed => cases hm
      | @done first hfirst =>
          obtain ⟨rest, hrest, rfl⟩ := Option.map_eq_some_iff.mp hm
          obtain ⟨parts, hparts, hjoin⟩ := ih hrest
          refine ⟨first.inner :: parts, by rw [List.map_cons, hfirst, hparts]; rfl, ?_⟩
          rw [Metadata.inner_append, hjoin]
          rfl

/-- An extraction all of whose scripts agree with what is expected of them. -/
def Agrees (expected : Node → Except AnalysisError Metadata) (base : String) (nodes : List Node) : Extraction → Prop
  | .running tasks => List.Forall₂ (ScriptTask.Agrees expected base) nodes tasks
  | .done (.ok m) => Yields expected nodes m
  | .done (.error _) => True

theorem agrees_start (nodes : List Node) : (Extraction.start nodes).Agrees expected base nodes := by
  have h : List.Forall₂ (ScriptTask.Agrees expected base) nodes (nodes.map .fresh) := by
    induction nodes with
    | nil => exact .nil
    | cons node nodes ih => exact .cons .fresh ih
  exact h

theorem Polled.agrees {e e' : Extraction} (h : e.Polled x base (e', y)) (he : e.Agrees (x.inner base) base nodes) :
    e'.Agrees (x.inner base) base nodes := by
  cases h with
  | known => exact he
  | failed _ => trivial
  | finished h hg => exact gather?_yields (h.agree he) hg
  | running h _ => exact h.agree he

end Extraction

/-! ## Sessions -/

/-- Whether all documents agree with what their scripts are expected to declare without a loader. -/
def Session.Agrees (expected : String → Node → Except AnalysisError Metadata) (s : Session) : Prop :=
  s.Extracts (fun x => x.inner = expected) fun a m e => e.Agrees (expected a) a m.scripts

theorem Session.agrees_persists (expected : String → Node → Except AnalysisError Metadata) :
    Persists (fun x => x.inner = expected) fun a m e => e.Agrees (expected a) a m.scripts where
  reads hr ha hx := (Extractor.inner_congr hr ha).trans hx
  fresh _ m := Extraction.agrees_start m.scripts
  polled hx hp he := by
    subst hx
    exact hp.agrees he

end ImportTree
