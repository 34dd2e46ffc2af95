import ImportTree.Proofs.Analysis.Limit
import ImportTree.Proofs.Metadata.Binding

/-!
# Templates in trees

Scripts declare elements without templates, and so a session keeps them. The pages of a tree bind copies of them, each
page to the templates of its own document.
-/

namespace ImportTree

variable {x y : Extractor} {base : String} {m m' : Metadata}

/-! ## Unbound declarations -/

theorem Metadata.Unbound.append (h : m.Unbound) (h' : m'.Unbound) : (m.append m').Unbound :=
  List.forall_mem_append.mpr ⟨h, h'⟩

theorem Metadata.Unbound.locate (h : m.Unbound) (address : String) (scriptAddress? : Option String) :
    (m.locate address scriptAddress?).Unbound := by
  intro e he
  obtain ⟨e, hmem, rfl⟩ := List.mem_map.mp he
  exact h e hmem

/-- Whether scripts are read as declarations of elements without templates. -/
def Extractor.Unbinding (x : Extractor) : Prop :=
  ∀ text m, x.readScript text x.attach = .ok m → m.Unbound

theorem Extractor.Unbinding.before (h : x.Unbinding) (hb : x.Before y) : y.Unbinding := by
  intro text m
  rw [hb.readScript, hb.attach]
  exact h text m

theorem Extractor.Unbinding.declare (h : x.Unbinding) {script? : Option String} {text : String}
    (hd : x.declare base script? text = (.ok m, y)) : m.Unbound := by
  unfold Extractor.declare at hd
  split at hd
  next => cases hd
  next m' hread =>
    dsimp only at hd
    split at hd
    next => cases hd; exact (h _ _ hread).locate _ _
    next => cases hd

/-! ## Extractions -/

/-- Whether what a script has been found to declare is unbound. -/
def ScriptTask.Unbound : ScriptTask → Prop
  | .done m => m.Unbound
  | _ => True

theorem ScriptTask.Polled.unbound {task task' : ScriptTask} (h : task.Polled x base (.ok task', y)) (hx : x.Unbinding)
    (ht : task.Unbound) : task'.Unbound := by
  generalize hr : (Except.ok task', y) = r at h
  cases h with
  | known => cases hr; exact ht
  | pending _ => cases hr; trivial
  | silent _ => cases hr; simp [Unbound, Metadata.Unbound]
  | @inline _ _ r _ _ _ hd =>
      cases r <;> cases hr
      exact hx.declare hd
  | unresolved _ _ _ _ _ => cases hr
  | asked _ _ _ => cases hr; trivial
  | failed _ _ _ | stuck => cases hr
  | @answered _ _ _ _ r _ _ hlisten _ _ hd =>
      cases r <;> cases hr
      exact (hx.before hlisten.before).declare hd

namespace Extraction

/-- Whether what an extraction has found so far is unbound. -/
def Unbound : Extraction → Prop
  | .running tasks => ∀ task ∈ tasks, task.Unbound
  | .done (.ok m) => m.Unbound
  | .done (.error _) => True

theorem unbound_of_gather? {tasks : List ScriptTask} (h : ∀ task ∈ tasks, task.Unbound)
    (hg : gather? tasks = some m) : m.Unbound := by
  induction tasks generalizing m with
  | nil =>
      cases hg
      simp [Metadata.Unbound]
  | cons task tasks ih =>
      obtain ⟨htask, htasks⟩ := List.forall_mem_cons.mp h
      cases task with
      | done declared =>
          obtain ⟨rest, hrest, rfl⟩ := Option.map_eq_some_iff.mp hg
          exact Metadata.Unbound.append htask (ih htasks hrest)
      | fresh _ | waiting _ _ | failed _ => cases hg

theorem Polled.unbound {e e' : Extraction} (h : e.Polled x base (e', y)) (hx : x.Unbinding) (he : e.Unbound) :
    e'.Unbound := by
  have tasks {tasks tasks' : List ScriptTask} {y : Extractor} (h : TasksPolled base 0 x tasks (.ok tasks', y))
      (ht : ∀ task ∈ tasks, task.Unbound) : ∀ task ∈ tasks', task.Unbound :=
    h.forall_ok ht (fun hb hp => hp.unbound (hx.before hb)) fun _ => trivial
  cases h with
  | known => exact he
  | failed _ => trivial
  | finished h hg => exact unbound_of_gather? (tasks h he) hg
  | running h _ => exact tasks h he

end Extraction

namespace Session

theorem unbound_persists : Persists Extractor.Unbinding fun _ _ e => e.Unbound where
  reads hr ha hx := by
    intro text m
    rw [hr, ha]
    exact hx text m
  fresh _ _ := by simp [Extraction.start, Extraction.Unbound, ScriptTask.Unbound]
  polled hx hp he := hp.unbound hx he

/-- Whether what documents have been found to declare is unbound. -/
abbrev Unbound (s : Session) : Prop :=
  s.Extracts Extractor.Unbinding fun _ _ e => e.Unbound

theorem Extracts.unbound {s : Session} (h : s.Unbound) {b : String} {d : Document} (hd : s.document? b = some d)
    (hm : d.extraction.result? = some (.ok m)) : m.Unbound := by
  have hunbound := h.extraction hd
  cases he : d.extraction with
  | running _ => rw [he] at hm; cases hm
  | done r =>
      rw [he] at hm hunbound
      cases hm
      exact hunbound

end Session

/-! ## Analyses -/

/-- Whether scripts are read as declarations of elements without templates. -/
def Readers.Unbinding (readers : Readers) : Prop :=
  ∀ text attach m, readers.script text attach = .ok m → m.Unbound

/-- Scripts are read so unless something else is plugged in. -/
theorem unbinding_default : ({} : Readers).Unbinding := by
  intro text attach m hread
  change Script.read text attach = .ok m at hread
  unfold Script.read at hread
  split at hread
  next => cases hread
  next =>
    cases hread
    simp [Metadata.Unbound]

namespace Analysis

variable {readers : Readers} {loader? : Option Loader} {attach eager : Bool} {root text : String} {a : Analysis}

theorem start_unbound (hreaders : readers.Unbinding)
    (hstart : start readers loader? attach eager root text = .ok a) : a.session.Unbound :=
  start_extracts Session.unbound_persists hstart fun text m => hreaders text attach m

/-- What has been found to be declared stays so, whatever is asked for later. -/
theorem run_keeps_result (hs : a.session.Coherent) (steps : List Step) {b : String} {d : Document}
    (hd : a.session.document? b = some d) (hm : d.extraction.result? = some (.ok m)) :
    ∃ d', (a.run steps).2.session.document? b = some d' ∧ d'.markup = d.markup ∧
      d'.extraction.result? = some (.ok m) := by
  obtain ⟨d', hd', hbefore⟩ := (run_evolves steps hs).1.grows.documents hd
  exact ⟨d', hd', hbefore.markup, hbefore.result hm⟩

/-- In a tree that an analysis answers after any steps, the elements of every page are those that the document at its
address declares, bound to the first templates of this document's own markup. What a document has been found to declare
is unbound and stays as it is, however many trees are built. -/
theorem templates_bound (hreaders : readers.Unbinding)
    (hstart : start readers loader? attach eager root text = .ok a) (steps : List Step) :
    (∀ tree, ((a.run steps).2.perform .tree).1 = .tree tree → ∀ page ∈ tree.pages,
      (∀ e ∈ page.elements, page.Binds e) ∧
      ∃ d m, ((a.run steps).2.perform .tree).2.session.document? page.address = some d ∧ page.markup = d.markup ∧
        d.extraction.result? = some (.ok m) ∧ page.modules = m.modules ∧
        page.elements.map (·.toDeclaration) = m.elements.map (·.toDeclaration)) ∧
    ∀ b d m, (a.run steps).2.session.document? b = some d → d.extraction.result? = some (.ok m) →
      m.Unbound ∧ ∀ more, ∃ d', ((a.run steps).2.run more).2.session.document? b = some d' ∧ d'.markup = d.markup ∧
        d'.extraction.result? = some (.ok m) := by
  have hrun := (run_evolves steps (start_coherent hstart)).1
  have hunbound : (a.run steps).2.session.Unbound :=
    run_extracts Session.unbound_persists steps (start_coherent hstart) (start_unbound hreaders hstart)
  constructor
  · intro tree htree page hp
    obtain ⟨targets, visited, hk, he⟩ := perform_tree hrun.coherent htree
    have hlast : ((a.run steps).2.perform .tree).2.session.Unbound :=
      run_extracts Session.unbound_persists [.tree] hrun.coherent hunbound
    obtain ⟨d, m, hd, hm, hpage⟩ := Session.page_of_tree hk he hp
    subst hpage
    exact ⟨Page.binds (hlast.unbound hd hm) rfl, d, m, hd, rfl, hm, rfl, bindTemplates_declarations ..⟩
  · intro b d m hd hm
    exact ⟨hunbound.unbound hd hm, fun more => run_keeps_result hrun.coherent more hd hm⟩

/-- An analysis of a document that has two templates for one of its elements, the first of them with two identifiers,
and an element whose template is in another document. -/
def cards : Except AnalysisError Analysis :=
  start {} (some (.shelf [("b.html", "<dom-module id=x-c>")] [])) false true "a.html"
    ("<link rel=import href=b.html><dom-module id=x-a><dom-module ID=x-b id=x-c><dom-module id=x-b>" ++
      "<script>Polymer(\x7bis:'x-b'\x7d)</script><script>Polymer(\x7bis:'x-c'\x7d)</script>")

theorem templates_bound_cards : ({} : Readers).Unbinding ∧ ∃ a tree, cards = .ok a ∧
    ((a.run [.tree]).2.perform .tree).1 = .tree tree ∧
    tree.page.elements.map (fun e => (e.name, e.template?)) = [("x-b", some 1), ("x-c", none)] ∧
    ∀ page ∈ tree.pages, ∀ e ∈ page.elements, page.Binds e := by
  have hrun : (cards.toOption.bind fun a => ((a.run [.tree]).2.perform .tree).1.tree?).map (fun tree =>
      tree.page.elements.map fun e => (e.name, e.template?)) =
        some [("x-b", some 1), ("x-c", none)] := by
    decide +kernel
  obtain ⟨tree, htree, helements⟩ := Option.map_eq_some_iff.mp hrun
  obtain ⟨a, hstart, htree⟩ := Option.bind_eq_some_iff.mp htree
  have hstart := toOption_eq_some hstart
  have htree := Answer.tree?_eq_some htree
  exact ⟨unbinding_default, a, tree, hstart, htree, helements, fun page hp =>
    ((templates_bound unbinding_default hstart [.tree]).1 tree htree page hp).1⟩

end Analysis

end ImportTree
