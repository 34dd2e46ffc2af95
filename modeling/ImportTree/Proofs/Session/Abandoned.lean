import ImportTree.Proofs.Analysis.Steps
import ImportTree.Proofs.Session.Requests

/-!
# Abandoned sessions

A session that has been given up reads and requests no further document. Responses that are on the way still come, but
are of no use; what has been found stays, and scripts that nobody has looked at can still be requested.
-/

namespace ImportTree

/-! ## Requests of an extraction -/

/-- What a poll adds to the log is among what was pending. -/
theorem Extraction.Polled.log {x y : Extractor} {base : String} {e e' : Extraction} (h : e.Polled x base (e', y)) :
    ∃ l : List String, y.log = l.map Request.script ++ x.log ∧ ∀ a, l.count a ≤ (e.pending base).count a := by
  obtain ⟨l, hl⟩ := h.before.log
  obtain ⟨-, lost, hspends, -⟩ := h.spends
  refine ⟨l, hl, fun a => ?_⟩
  have hinj : Function.Injective Request.script := fun _ _ h => Request.script.inj h
  have hcount := hspends a
  rw [hl, List.count_append, List.count_map_of_injective _ _ hinj] at hcount
  omega

theorem Extraction.Ripe.pending_nil {e : Extraction} {time : Nat} (h : e.Ripe time) (base : String) :
    e.pending base = [] := by
  cases e with
  | done r => rfl
  | running tasks =>
      refine List.flatMap_eq_nil_iff.mpr fun task hmem => ?_
      cases task with
      | fresh node => exact (h _ hmem).elim
      | waiting a due | done m | failed e => rfl

theorem Extraction.Polled.log_of_ripe {x y : Extractor} {base : String} {e e' : Extraction} {time : Nat}
    (h : e.Polled x base (e', y)) (he : e.Ripe time) : y.log = x.log := by
  obtain ⟨l, hl, hcount⟩ := h.log
  cases l with
  | nil => exact hl
  | cons a l =>
      have := hcount a
      simp [he.pending_nil base] at this

theorem ScriptTask.Polled.log_of_none {x y : Extractor} {base : String} {task : ScriptTask}
    {r : Except AnalysisError ScriptTask} (h : task.Polled x base (r, y)) (hl : x.loader? = none) : y.log = x.log := by
  cases h with
  | known | pending _ | silent _ | stuck => rfl
  | inline _ _ hd => exact Extractor.declare_log hd
  | unresolved _ _ _ hloader _ | asked _ hloader _ | failed _ hloader _ | answered _ hloader _ _ =>
      cases hl.symm.trans hloader

theorem ScriptTask.Advanced.log_of_none {x y : Extractor} {base : String} {pending : Nat} {task task' : ScriptTask}
    (h : task.Advanced x base pending (task', y)) (hl : x.loader? = none) : y.log = x.log := by
  cases h with
  | polled h | held _ h => exact h.log_of_none hl

theorem Extraction.TasksPolled.log_of_none {x y : Extractor} {base : String} {pending : Nat} {tasks : List ScriptTask}
    {r : Except AnalysisError (List ScriptTask)} (h : TasksPolled base pending x tasks (r, y)) (hl : x.loader? = none) :
    y.log = x.log := by
  generalize hp : (r, y) = p at h
  induction h generalizing r with
  | nil => cases hp; rfl
  | failed h => cases hp; exact h.log_of_none hl
  | cons h _ ih =>
      cases hp
      exact (ih (h.before.loader.trans hl) rfl).trans (h.log_of_none hl)

theorem Extraction.Polled.log_of_none {x y : Extractor} {base : String} {e e' : Extraction}
    (h : e.Polled x base (e', y)) (hl : x.loader? = none) : y.log = x.log := by
  cases h with
  | known => rfl
  | failed h | finished h _ | running h _ => exact h.log_of_none hl

/-- Whether the scripts of each document have all begun, or none of them has. -/
def Session.Begins (s : Session) : Prop :=
  s.Extracts (fun _ => True) fun _ m e => e = .start m.scripts ∨ ∃ time, e.Ripe time

theorem Session.begins_persists :
    Persists (fun _ => True) fun _ m e => e = .start m.scripts ∨ ∃ time, e.Ripe time where
  reads _ _ := id
  fresh _ _ := .inl rfl
  polled _ hp _ := .inr hp.begun

/-- What is pending of a document is what its scripts name, or nothing. -/
theorem Session.Begins.count_pending_le {s : Session} {a : String} {d : Document} (h : s.Begins)
    (hd : s.document? a = some d) (b : String) : d.pending.count b ≤ d.scriptSources.count b := by
  rcases h.extraction hd with h | ⟨time, h⟩
  · have hpending : d.pending = (Document.fresh d.address d.markup).pending := by
      rw [Document.pending, h]
      rfl
    rw [hpending, Document.pending_fresh]
    exact Nat.le_refl _
  · rw [Document.pending, h.pending_nil]
    exact Nat.zero_le _

namespace Session

variable {A : String → Prop} {s t u : Session} {a b : String} {d : Document} {l : List String} {L : List Request}

/-! ## Documents and fetches -/

/-- A fetch of a session that has been given up brings no document and requests none. -/
theorem Fetching.dropped {r : Option (Except AnalysisError Unit)} (h : s.Fetching a (r, t)) (hd : s.dropped = true) :
    t.documents = s.documents ∧ t.extractor.log = s.extractor.log ∧
      ∀ {f}, s.fetches.lookup b = none → t.fetches.lookup b = some f → f = .done (.error (.detached b)) := by
  have listening {t : Session} (ht : s.Listening a t) : (s.fetches.lookup a).isSome = true ∧ t = s := by
    cases ht with
    | waiting hf _ => exact ⟨by simp [hf], rfl⟩
    | asking _ hlive => cases hd.symm.trans hlive
  have closed (r : Except AnalysisError Unit) (ha : (s.fetches.lookup a).isSome = true) {f : Fetch}
      (hn : s.fetches.lookup b = none) (hf : (s.closeFetch a r).fetches.lookup b = some f) :
      f = .done (.error (.detached b)) := by
    rw [lookup_cons] at hf
    split at hf
    next hb => rw [← hb, hn] at ha; cases ha
    next => cases hn.symm.trans hf
  cases h with
  | known _ | pending _ _ => exact ⟨rfl, rfl, fun hn hf => by cases hn.symm.trans hf⟩
  | refused hf _ =>
      refine ⟨rfl, rfl, fun hn hf => ?_⟩
      rw [lookup_cons, hd] at hf
      split at hf
      next hb => subst hb; cases hf; rfl
      next => cases hn.symm.trans hf
  | asked _ _ hlive _ | answered _ _ _ hlive _ => cases hd.symm.trans hlive
  | failed ht _ _ | late ht _ _ _ =>
      obtain ⟨ha, rfl⟩ := listening ht
      exact ⟨rfl, rfl, closed _ ha⟩

/-- What has become of a session since it was given up. -/
structure Abandoned (s t : Session) : Prop where
  evolves : s.Evolves t
  dropped : t.dropped = true
  held : ∀ b, t.holds b = s.holds b
  fetched : ∀ {b f}, s.fetches.lookup b = none → t.fetches.lookup b = some f → f = .done (.error (.detached b))

theorem abandoned_drop (hs : s.Coherent) : s.Abandoned s.drop :=
  ⟨.of_retains hs (retains_drop s), rfl, fun _ => rfl, fun hn hf => by cases hn.symm.trans hf⟩

/-- What is done with a session afterwards leaves its documents alone, and begins no fetch that is not refused. -/
theorem Abandoned.andThen (h : Abandoned s t) (he : t.Evolves u) (held : ∀ b, u.holds b = t.holds b)
    (fetched : ∀ {b f}, t.fetches.lookup b = none → u.fetches.lookup b = some f → f = .done (.error (.detached b))) :
    Abandoned s u where
  evolves := h.evolves.trans he
  dropped := he.dropped h.dropped
  held b := (held b).trans (h.held b)
  fetched {b f} hn hf := by
    cases ht : t.fetches.lookup b with
    | none => exact fetched ht hf
    | some g =>
        obtain ⟨g', hg', hbefore⟩ := he.grows.fetches ht
        cases hf.symm.trans hg'
        cases h.fetched hn ht
        cases hbefore
        rfl

theorem Abandoned.change (h : Abandoned s t) (hc : Change A t u) : Abandoned s u := by
  have he : t.Evolves u := .of_changes h.evolves.coherent (.single hc)
  have same (hf : u.fetches = t.fetches) {b : String} {f : Fetch} (hn : t.fetches.lookup b = none)
      (hb : u.fetches.lookup b = some f) : f = .done (.error (.detached b)) := by
    cases (hf ▸ hn : u.fetches.lookup b = none).symm.trans hb
  cases hc with
  | poll hp =>
      cases hp with
      | @fetch a _ =>
          have hf := pollFetch_fetching t a
          exact h.andThen he (fun b => by rw [holds, holds, document?, document?, (hf.dropped (b := b) h.dropped).1])
            (hf.dropped h.dropped).2.2
      | extract => exact h.andThen he (fun _ => holds_pollMetadata) (same (by rw [(pollMetadata_frame ..).1]))
      | note _ _ _ => exact h.andThen he (fun _ => holds_setImports _) (same (by rw [setImports_eq]))
      | queue => exact h.andThen he (fun _ => rfl) (same rfl)
  | advance _ => exact h.andThen he (fun _ => rfl) (same rfl)

theorem Abandoned.changes (h : Abandoned s t) (hc : Changes A t u) : Abandoned s u := by
  induction hc with
  | refl => exact h
  | tail _ hc ih => exact ih.change hc

theorem Abandoned.serve (h : Abandoned s t) (change : Loader → Loader) : Abandoned s (t.serve change) :=
  h.andThen (.of_retains h.evolves.coherent (retains_serve t change)) (fun _ => rfl)
    fun hn hf => by cases hn.symm.trans hf

/-! ## The log -/

/-- A session that has been given up, with what was requested so far. -/
structure Quiet (L : List Request) (s : Session) : Prop where
  coherent : s.Coherent
  dropped : s.dropped = true
  log : s.extractor.log = L

/-- Whether there is a document at an address whose scripts have begun. -/
def Begun (s : Session) (a : String) : Prop :=
  ∃ time, s.Ripe time (.metadata a)

theorem Begun.grows (h : s.Begun a) (hg : s.Grows t) : t.Begun a := by
  obtain ⟨time, hr⟩ := h
  exact ⟨time, hr.grows hg⟩

theorem begun_polled (hd : s.document? a = some d) : (s.pollMetadata a).2.Begun a := by
  obtain ⟨e, he, _, _, _, time, hr⟩ := begun_pollMetadata hd
  exact ⟨time, e, he, hr⟩

theorem pollMetadata_log (hl : s.extractor.loader? = none ∨ s.Begun a) :
    (s.pollMetadata a).2.extractor.log = s.extractor.log := by
  cases hd : s.document? a with
  | none => rw [pollMetadata_none hd]
  | some d =>
      have hp : d.extraction.Polled s.extractor a
          ((d.extraction.poll s.extractor a).1, (d.extraction.poll s.extractor a).2) := Extraction.poll_cases ..
      rw [pollMetadata_some hd]
      rcases hl with hl | hb
      · exact hp.log_of_none hl
      · obtain ⟨time, e, he, hr⟩ := hb
        cases hd.symm.trans he
        exact hp.log_of_ripe hr

theorem FetchesPolled.log {r : Option (Except AnalysisError Unit)} (h : FetchesPolled s l (r, t))
    (hd : s.dropped = true) : t.extractor.log = s.extractor.log := by
  generalize hp : (r, t) = p at h
  induction h generalizing r with
  | nil => cases hp; rfl
  | @failed _ _ a _ _ hf _ => cases hp; exact (hf.dropped (b := a) hd).2.1
  | @cons _ _ _ a _ _ _ hf _ _ ih =>
      cases hp
      exact (ih (hf.steady.dropped.trans hd) rfl).trans (hf.dropped (b := a) hd).2.1

@[simp] theorem log_setImports (s : Session) (a : String) (w : ImportWalk) :
    (s.setImports a w).extractor.log = s.extractor.log := by
  rw [setImports_eq]

@[simp] theorem log_endWalk (s : Session) (a : String) (r : Except AnalysisError (List String)) :
    (s.endWalk a r).2.extractor.log = s.extractor.log :=
  log_setImports ..

theorem pollWalk_log (targets awaited : List String) (hd : s.dropped = true) (hb : s.Begun a) :
    (s.pollWalk a targets awaited).2.extractor.log = s.extractor.log := by
  -- The scripts have begun, and no fetch begins any more.
  have hm := pollMetadata_log (.inr hb)
  have hdrop : (s.pollMetadata a).2.dropped = true := (steady_pollMetadata s a).dropped.trans hd
  unfold pollWalk
  cases hc : s.pollMetadata a with
  | mk declared t =>
      rw [hc] at hm hdrop
      have hf := pollFetches_cases t targets.length 0 awaited
      cases hq : t.pollFetches targets.length 0 awaited with
      | mk fetched u =>
          rw [hq] at hf
          have hlog := (hf.log hdrop).trans hm
          rcases declared with _ | (_ | _) <;> rcases fetched with _ | (_ | _) <;>
            simp only [hq, log_endWalk, log_setImports] <;> first | exact hlog | exact hm

theorem beginWalk_log (hd : s.dropped = true) : (s.beginWalk d).2.extractor.log = s.extractor.log := by
  unfold beginWalk
  cases hl : s.extractor.loader? with
  | none =>
      have hm := pollMetadata_log (a := d.address) (.inl hl)
      dsimp only
      generalize s.pollMetadata d.address = p at hm
      obtain ⟨_ | (_ | _), t⟩ := p
      · exact hm
      · exact (log_endWalk ..).trans hm
      · exact (log_endWalk ..).trans hm
  | some loader =>
      dsimp only
      split
      next => exact log_endWalk ..
      next => rw [if_pos hd, log_endWalk]

theorem pollImports_log (hs : s.Coherent) (hd : s.dropped = true) (a : String) :
    (s.pollImports a).2.extractor.log = s.extractor.log := by
  unfold pollImports
  cases hdoc : s.document? a with
  | none => rfl
  | some d =>
      have hw := hs.allowed hdoc
      cases hi : d.imports with
      | done r => simp only [hi]
      | idle => simpa only [hi] using beginWalk_log hd
      | waiting targets awaited =>
          rw [hi] at hw
          obtain ⟨time, hr⟩ := hw.extraction
          simpa only [hi] using pollWalk_log targets awaited hd ⟨time, d, hdoc, hr⟩

/-! ## Time and goals -/

theorem Quiet.changes (h : s.Quiet L) (hc : Changes A s t) (hl : t.extractor.log = s.extractor.log) : t.Quiet L :=
  ⟨h.coherent.changes hc, hc.steady.dropped.trans h.dropped, hl.trans h.log⟩

theorem Quiet.pollImports (h : s.Quiet L) (a : String) : (s.pollImports a).2.Quiet L :=
  h.changes (pollImports_imported (fun _ => True) h.coherent a).polls.changes (pollImports_log h.coherent h.dropped a)

theorem quiet_upkeep (L : List Request) : Upkeep (Quiet L) where
  coherent h := h.coherent
  worked h := drain_keeps (fun a h => h.pollImports a)
    (fun _ h => h.changes (A := fun _ => True) (.single (.poll .queue)) rfl) _ _ h
  advanced ht h := h.changes (A := fun _ => True) (.single (.advance ht)) rfl

theorem Quiet.serve (h : s.Quiet L) (change : Loader → Loader) : (s.serve change).Quiet L :=
  ⟨h.coherent.retains (retains_serve s change), h.dropped, h.log⟩

theorem Quiet.await_imports (h : s.Quiet L) (a : String) : (s.await (.imports a)).2.Quiet L :=
  (quiet_upkeep L).await_keeps (fun h => h.pollImports a) h

theorem Quiet.pollGoal_metadata (h : s.Quiet L ∧ s.Begun a) :
    (s.pollGoal (.metadata a)).2.Quiet L ∧ (s.pollGoal (.metadata a)).2.Begun a :=
  ⟨h.1.changes (A := fun _ => True) (.single (.poll .extract)) (pollMetadata_log (.inr h.2)),
    h.2.grows (grows_pollMetadata s a)⟩

/-- Whoever waits for declarations requests at most what is pending, and that at the first poll. -/
theorem Quiet.await_metadata (h : s.Quiet L) (hd : s.document? a = some d) :
    ∃ l : List String, (∀ b, l.count b ≤ d.pending.count b) ∧
      (s.await (.metadata a)).2.Quiet (l.map .script ++ L) ∧ (s.await (.metadata a)).2.Begun a := by
  have hp : d.extraction.Polled s.extractor a
      ((d.extraction.poll s.extractor a).1, (d.extraction.poll s.extractor a).2) := Extraction.poll_cases ..
  obtain ⟨l, hl, hcount⟩ := hp.log
  have hlog : (s.pollMetadata a).2.extractor.log = l.map .script ++ L := by
    rw [pollMetadata_some hd, ← h.log]
    exact hl
  have hc : Changes (fun _ => True) s (s.pollMetadata a).2 := .single (.poll .extract)
  have hfirst : (s.pollMetadata a).2.Quiet (l.map .script ++ L) :=
    ⟨h.coherent.changes hc, hc.steady.dropped.trans h.dropped, hlog⟩
  have hP := (quiet_upkeep (l.map .script ++ L)).knowing (R := fun t => t.Begun a) fun hg h => h.grows hg
  refine ⟨l, fun b => ?_, hP.await_polled_keeps Quiet.pollGoal_metadata ⟨hfirst, begun_polled hd⟩⟩
  rw [Document.pending, document?_address hd]
  exact hcount b

theorem Quiet.await_begun (h : s.Quiet L) (hb : s.Begun a) : (s.await (.metadata a)).2.Quiet L := by
  have hP := (quiet_upkeep L).knowing (R := fun t => t.Begun a) fun hg h => h.grows hg
  exact (hP.await_keeps Quiet.pollGoal_metadata ⟨h, hb⟩).1

end Session

end ImportTree
