import ImportTree.Proofs.Session.Booking
import ImportTree.Proofs.Session.Handles

/-!
# Requests

Every address that a script names instead of a text is requested once for that script, however many other scripts name
it. Where a script fails, those behind it in the document may be requested no more.
-/

namespace ImportTree

variable {x y z : Extractor} {base a : String} {wanted wanted' lost lost' : List String}

/-! ## One script -/

/-- The address at which the text of a script has to be requested, if there is one. -/
def Node.source? (base : String) (node : Node) : Option String :=
  if node.isReadableScript = true ∧ node.text? = none then
    (node.attribute? "src").bind fun target => (Address.resolve base target).toOption
  else none

theorem Node.External.source? {node : Node} (h : node.External base a) : node.source? base = some a := by
  obtain ⟨target, hsource, haddress⟩ := h.source
  rw [Node.source?, if_pos ⟨h.readable, h.text⟩, hsource, Option.bind_some, haddress]
  rfl

def ScriptTask.pending (base : String) : ScriptTask → List String
  | .fresh node => (node.source? base).toList
  | _ => []

/-- What is requested of the addresses that were wanted: all but those that are lost, each as often as it is among
them. -/
def Extractor.Spends (x y : Extractor) (wanted lost : List String) : Prop :=
  ∀ a, y.log.count (.script a) + lost.count a = x.log.count (.script a) + wanted.count a

theorem Extractor.Spends.nothing (h : y.log = x.log) (lost : List String) : x.Spends y lost lost := by
  intro a
  rw [h]

theorem Extractor.Spends.andThen (h : x.Spends y wanted lost) (hrest : y.Spends z wanted' lost') :
    x.Spends z (wanted ++ wanted') (lost ++ lost') := by
  intro a
  have := h a
  have := hrest a
  simp only [List.count_append]
  omega

theorem Extractor.declare_log {script? : Option String} {text : String} {r : Except AnalysisError Metadata}
    (h : x.declare base script? text = (r, y)) : y.log = x.log := by
  unfold Extractor.declare at h
  cases hs : x.readScript text x.attach with
  | error f => rw [hs] at h; cases h; rfl
  | ok m =>
      rw [hs] at h
      dsimp only at h
      split at h <;> cases h <;> rfl

theorem ScriptTask.Listening.spends {task : ScriptTask} (h : task.Listening x base a y) :
    x.Spends y (task.pending base) [] := by
  cases h with
  | waiting _ => exact .nothing rfl []
  | asking hx =>
      intro b
      rw [ScriptTask.pending, hx.source?]
      simp [Extractor.request, List.count_cons]

theorem ScriptTask.Polled.spends {task : ScriptTask} {r : Except AnalysisError ScriptTask}
    (h : task.Polled x base (r, y)) : ∃ lost, x.Spends y (task.pending base) lost ∧
      (x.loader?.isSome = true → (∃ task', r = .ok task') → lost = []) := by
  cases h with
  | known | pending _ | stuck => exact ⟨[], .nothing rfl [], fun _ _ => rfl⟩
  | @silent node hnode =>
      refine ⟨(node.source? base).toList, .nothing rfl _, fun hl _ => ?_⟩
      unfold Node.source?
      split
      next hread =>
        rcases (hnode hread.1).2 with hsrc | hnone
        · rw [hsrc]; rfl
        · rw [hnone] at hl; cases hl
      next => rfl
  | @inline node _ _ _ _ htext hd =>
      have hsource : node.source? base = none := by simp [Node.source?, htext]
      rw [ScriptTask.pending, hsource]
      exact ⟨[], .nothing (Extractor.declare_log hd) [], fun _ _ => rfl⟩
  | unresolved _ _ _ _ _ => exact ⟨_, .nothing rfl _, fun _ hok => hok.elim nofun⟩
  | asked hx _ _ => exact ⟨[], (Listening.asking hx).spends, fun _ _ => rfl⟩
  | failed h _ _ => exact ⟨[], h.spends, fun _ _ => rfl⟩
  | answered h _ _ hd => exact ⟨[], fun b => Extractor.declare_log hd ▸ h.spends b, fun _ _ => rfl⟩

theorem ScriptTask.Polled.pending_nil {task task' : ScriptTask} (h : task.Polled x base (.ok task', y)) :
    task'.pending base = [] := by
  cases task' with
  | fresh node => exact h.begun.elim
  | waiting b due | done m | failed e => rfl

theorem ScriptTask.Advanced.spends {task task' : ScriptTask} {pending : Nat}
    (h : task.Advanced x base pending (task', y)) : ∃ lost, x.Spends y (task.pending base) lost ∧
      (x.loader?.isSome = true → (∀ e, task' ≠ .failed e) → lost = []) := by
  cases h with
  | polled h =>
      obtain ⟨lost, hspends, hlost⟩ := h.spends
      exact ⟨lost, hspends, fun hl _ => hlost hl ⟨_, rfl⟩⟩
  | held _ h =>
      obtain ⟨lost, hspends, -⟩ := h.spends
      exact ⟨lost, hspends, fun _ hne => absurd rfl (hne _)⟩

/-! ## All scripts of a document -/

/-- The addresses that an extraction has yet to request. -/
def Extraction.pending (base : String) : Extraction → List String
  | .running tasks => tasks.flatMap (·.pending base)
  | .done _ => []

theorem Extraction.TasksPolled.spends {tasks : List ScriptTask} {r : Except AnalysisError (List ScriptTask)}
    {pending : Nat} (h : TasksPolled base pending x tasks (r, y)) :
    ∃ lost, x.Spends y (tasks.flatMap (·.pending base)) lost ∧
      (x.loader?.isSome = true → (∃ tasks', r = .ok tasks' ∧ ∀ e, .failed e ∉ tasks') → lost = []) := by
  generalize hp : (r, y) = p at h
  induction h generalizing r with
  | nil => cases hp; exact ⟨[], .nothing rfl [], fun _ _ => rfl⟩
  | failed h =>
      cases hp
      obtain ⟨lost, hspends, -⟩ := h.spends
      exact ⟨_, hspends.andThen (.nothing rfl _), fun _ hok => hok.elim nofun⟩
  | @cons _ x z w r _ task' _ h _ ih =>
      cases hp
      obtain ⟨lost, hspends, hlost⟩ := h.spends
      obtain ⟨lost', hspends', hlost'⟩ := ih rfl
      refine ⟨lost ++ lost', hspends.andThen hspends', fun hl ⟨tasks', hok, hne⟩ => ?_⟩
      cases r with
      | error e => cases hok
      | ok rest =>
          cases hok
          rw [hlost hl fun e he => hne e (he ▸ List.mem_cons_self ..),
            hlost' (h.before.loader ▸ hl) ⟨rest, rfl, fun e he => hne e (List.mem_cons_of_mem _ he)⟩]
          rfl

/-- After a poll nothing is pending. What was has been requested, unless there is no loader or a script has failed. -/
theorem Extraction.Polled.spends {e e' : Extraction} (h : e.Polled x base (e', y)) :
    e'.pending base = [] ∧ ∃ lost, x.Spends y (e.pending base) lost ∧
      (x.loader?.isSome = true → ¬e'.Failing → lost = []) := by
  cases h with
  | known => exact ⟨rfl, [], .nothing rfl [], fun _ _ => rfl⟩
  | failed h =>
      obtain ⟨lost, hspends, -⟩ := h.spends
      exact ⟨rfl, lost, hspends, fun _ hne => absurd ⟨_, rfl⟩ hne⟩
  | finished h hg =>
      obtain ⟨lost, hspends, hlost⟩ := h.spends
      exact ⟨rfl, lost, hspends, fun hl _ => hlost hl ⟨_, rfl, fun e he => by rw [gather?_failed he] at hg; cases hg⟩⟩
  | running h _ =>
      obtain ⟨lost, hspends, hlost⟩ := h.spends
      refine ⟨List.flatMap_eq_nil_iff.mpr ?_, lost, hspends, fun hl hne => hlost hl ⟨_, rfl, fun e he => hne ⟨e, he⟩⟩⟩
      exact h.forall_ok (fun _ _ => trivial) (fun _ hp _ => hp.pending_nil) fun _ => rfl

/-! ## All documents -/

/-- The addresses that the scripts of a document name instead of a text. -/
def Document.scriptSources (d : Document) : List String :=
  d.markup.scripts.filterMap (·.source? d.address)

def Document.pending (d : Document) : List String :=
  d.extraction.pending d.address

theorem Document.pending_fresh (address : String) (markup : Structure) :
    (fresh address markup).pending = (fresh address markup).scriptSources := by
  simp [fresh, pending, scriptSources, Extraction.start, Extraction.pending, List.flatMap_map, ScriptTask.pending,
    List.filterMap_eq_flatMap_toList]

namespace Session

variable {A : String → Prop} {s t : Session} {d e : Document}

def scriptSources (s : Session) : List String :=
  s.documents.flatMap Document.scriptSources

def pending (s : Session) : List String :=
  s.documents.flatMap Document.pending

def Unfailed (s : Session) : Prop :=
  ∀ {a d}, s.document? a = some d → ¬d.extraction.Failing

theorem Grows.unfailed (h : s.Grows t) (ht : t.Unfailed) : s.Unfailed := by
  intro a d hd hfailing
  obtain ⟨d', hd', hbefore⟩ := h.documents hd
  exact ht hd' (hbefore.failing hfailing)

/-- Whether what scripts name has been requested for each of them, but for what is pending or lost. -/
def Accounted (s : Session) : Prop :=
  ∃ lost : List String, (∀ a, s.extractor.log.count (.script a) + s.pending.count a + lost.count a =
      s.scriptSources.count a) ∧
    (s.extractor.loader?.isSome = true → s.Unfailed → lost = [])

theorem Blank.accounted (h : s.Blank) : s.Accounted := by
  refine ⟨[], fun a => ?_, fun _ _ => rfl⟩
  simp [pending, scriptSources, h.documents, h.log]

/-! ## Documents that are replaced or added -/

theorem count_flatMap_update (f : Document → List String) (hn : (s.documents.map (·.address)).Nodup)
    (hd : s.document? a = some d) (e : Document) (b : String) :
    ((s.update a e).documents.flatMap f).count b + (f d).count b =
      (s.documents.flatMap f).count b + (f e).count b := by
  have hda : d.address = a := document?_address hd
  -- No other document has the address, so those around the replaced one stay as they are.
  obtain ⟨-, before, after, hlist, -⟩ := List.find?_eq_some_iff_append.mp hd
  rw [hlist, List.map_append, List.map_cons, List.nodup_middle, List.nodup_cons, hda, ← List.map_append] at hn
  have hkept {l : List Document} (hl : ∀ old ∈ l, old ∈ before ++ after) :
      (l.map fun old => if old.address = a then e else old) = l :=
    (List.map_congr_left fun old hold => if_neg fun ha =>
      hn.1 (List.mem_map.mpr ⟨old, hl old hold, ha⟩)).trans (List.map_id' l)
  rw [update, hlist]
  simp only [List.map_append, List.map_cons, hda, if_true, hkept fun _ => List.mem_append_left after,
    hkept fun _ => List.mem_append_right before, List.flatMap_append, List.flatMap_cons, List.count_append]
  omega

theorem count_update (hn : (s.documents.map (·.address)).Nodup) (hd : s.document? a = some d)
    (he : e.address = d.address) (hm : e.markup = d.markup) (b : String) :
    (s.update a e).scriptSources.count b = s.scriptSources.count b ∧
      (s.update a e).pending.count b + d.pending.count b = s.pending.count b + e.pending.count b := by
  have hsources : e.scriptSources = d.scriptSources := by rw [Document.scriptSources, Document.scriptSources, he, hm]
  have := count_flatMap_update Document.scriptSources hn hd e b
  rw [hsources] at this
  exact ⟨Nat.add_right_cancel this, count_flatMap_update Document.pending hn hd e b⟩

/-- The documents of a session and at most a new one. -/
inductive Adds (s t : Session) : Prop where
  | none : t.documents = s.documents → Adds s t
  | one {a : String} {m : Structure} : t.documents = s.documents ++ [Document.fresh a m] → Adds s t

theorem Resolved.adds {text : String} {r : Except AnalysisError Unit} (h : s.Resolved a text (r, t)) : s.Adds t := by
  cases h with
  | there _ | unreadable _ _ => exact .none rfl
  | read _ _ => exact .one rfl

theorem Fetching.adds {r : Option (Except AnalysisError Unit)} (h : s.Fetching a (r, t)) : s.Adds t := by
  cases h with
  | known _ | pending _ _ | refused _ _ | asked _ _ _ _ => exact .none rfl
  | failed ht _ _ => cases ht <;> exact .none rfl
  | late ht _ _ _ => cases ht <;> exact .none rfl
  | answered ht _ _ _ hr =>
      cases hr.adds with
      | none h => cases ht <;> exact .none h
      | one h => cases ht <;> exact .one h

theorem Fetching.log_script {r : Option (Except AnalysisError Unit)} (h : s.Fetching a (r, t)) (b : String) :
    t.extractor.log.count (.script b) = s.extractor.log.count (.script b) := by
  rcases h.log with hl | ⟨_, hl⟩
  · rw [hl]
  · rw [hl, List.count_cons_of_ne (by simp)]

/-! ## What is kept -/

theorem Accounted.adds (h : s.Accounted) (ht : s.Adds t) (hkeeps : s.Keeps t) (hg : s.Grows t)
    (hlog : ∀ b, t.extractor.log.count (.script b) = s.extractor.log.count (.script b)) : t.Accounted := by
  obtain ⟨lost, hcount, hlost⟩ := h
  refine ⟨lost, fun b => ?_, fun hl hu => hlost (hkeeps.loader ▸ hl) (hg.unfailed hu)⟩
  have := hcount b
  have := hlog b
  cases ht with
  | none hdocs =>
      rw [pending, scriptSources, hdocs]
      rw [pending, scriptSources] at *
      omega
  | @one a m hdocs =>
      -- All that the scripts of the new document name is pending, so both sides grow by it.
      rw [pending, scriptSources, hdocs, List.flatMap_append, List.flatMap_append, List.flatMap_singleton,
        List.flatMap_singleton, List.count_append, List.count_append, Document.pending_fresh]
      rw [pending, scriptSources] at *
      omega

theorem Accounted.resolved {text : String} {r : Except AnalysisError Unit} (h : s.Accounted)
    (hr : s.Resolved a text (r, t)) : t.Accounted :=
  h.adds hr.adds hr.steady.keeps hr.grows fun _ => by cases hr <;> rfl

theorem Accounted.retains (h : s.Accounted) (ht : s.Retains t) : t.Accounted :=
  h.adds (.none ht.documents) ht.toKeeps ht.grows fun _ => by rw [ht.log]

theorem Accounted.note (hs : s.Coherent) (h : s.Accounted) (hd : s.document? a = some d) {w : ImportWalk}
    (hb : d.imports.Before w) : (s.setImports a w).Accounted := by
  have hg : s.Grows (s.setImports a w) := grows_setImports fun e he => by rw [hd] at he; cases he; exact hb
  obtain ⟨lost, hcount, hlost⟩ := h
  refine ⟨lost, fun b => ?_, fun hl hu => hlost ((steady_setImports w).keeps.loader ▸ hl) (hg.unfailed hu)⟩
  have := hcount b
  obtain ⟨hsources, hpending⟩ := count_update hs.distinct hd (e := { d with imports := w }) rfl rfl b
  have hsame : Document.pending { d with imports := w } = d.pending := rfl
  have hset : s.setImports a w = s.update a { d with imports := w } := by simp only [setImports, hd]
  rw [hsame] at hpending
  rw [hset, hsources]
  change s.extractor.log.count (.script b) + _ + _ = _
  omega

theorem Accounted.extract (hs : s.Coherent) (h : s.Accounted) (a : String) : (s.pollMetadata a).2.Accounted := by
  cases hd : s.document? a with
  | none => rw [pollMetadata_none hd]; exact h
  | some d =>
      have hg := grows_pollMetadata s a
      have hloader := (steady_pollMetadata s a).keeps.loader
      have hp : d.extraction.Polled s.extractor a
          ((d.extraction.poll s.extractor a).1, (d.extraction.poll s.extractor a).2) := Extraction.poll_cases ..
      obtain ⟨hnil, lost', hspends, hlost'⟩ := hp.spends
      obtain ⟨lost, hcount, hlost⟩ := h
      refine ⟨lost ++ lost', fun b => ?_, fun hl hu => ?_⟩
      · -- What was pending of the document has moved to the log, but for what is lost.
        obtain ⟨hsources, hpending⟩ := count_update hs.distinct hd
          (e := { d with extraction := (d.extraction.poll s.extractor a).1 }) rfl rfl b
        have hnone : Document.pending { d with extraction := (d.extraction.poll s.extractor a).1 } = [] := by
          exact (congrArg (Extraction.pending · _) (document?_address hd)).trans hnil
        have hwanted : d.pending = d.extraction.pending a := by rw [Document.pending, document?_address hd]
        have := hcount b
        have := hspends b
        rw [hnone, hwanted, List.count_nil] at hpending
        rw [pollMetadata_some hd, List.count_append]
        change (d.extraction.poll s.extractor a).2.log.count (.script b) + (s.update a _).pending.count b + _ =
          (s.update a _).scriptSources.count b
        omega
      · have hunfailed : ¬(d.extraction.poll s.extractor a).1.Failing := by
          refine hu (a := a) (d := { d with extraction := (d.extraction.poll s.extractor a).1 }) ?_
          rw [document?_pollMetadata, if_pos rfl, hd]
          rfl
        rw [hlost (hloader ▸ hl) (hg.unfailed hu), hlost' (hloader ▸ hl) hunfailed]
        rfl

theorem Accounted.change (hs : s.Coherent) (h : s.Accounted) (hc : Change A s t) : t.Accounted := by
  have hg := hc.grows
  have hkeeps := hc.steady.keeps
  cases hc with
  | poll hp =>
      cases hp with
      | fetch _ => exact h.adds (pollFetch_fetching ..).adds hkeeps hg (pollFetch_fetching ..).log_script
      | extract => exact h.extract hs _
      | queue => exact h.adds (.none rfl) hkeeps hg fun _ => rfl
      | note hd hb _ => exact h.note hs hd hb
  | advance _ => exact h.adds (.none rfl) hkeeps hg fun _ => rfl

theorem Accounted.changes (hs : s.Coherent) (h : s.Accounted) (hc : Changes A s t) : t.Accounted := by
  induction hc with
  | refl => exact h
  | tail hu hc ih => exact ih.change (hs.changes hu) hc

end Session

end ImportTree
