import ImportTree.Proofs.Session.Bounds

/-!
# Prompt sessions

While every response comes at once, no script is ever waited for: a poll of an extraction ends it. This stays so
whatever texts are given and however the loader changes its answers.
-/

namespace ImportTree

/-! ## Extractions -/

/-- A script that waits for no response. -/
def ScriptTask.Prompt (task : ScriptTask) : Prop :=
  ∀ a due, task ≠ .waiting a due

/-- An extraction none of whose scripts waits for a response. -/
def Extraction.Prompt : Extraction → Prop
  | .running tasks => ∀ task ∈ tasks, task.Prompt
  | .done _ => True

/-- An extractor all of whose responses come at once. -/
def Extractor.Prompt (x : Extractor) : Prop :=
  ∀ {loader}, x.loader? = some loader → ∀ a, loader.delay a = 0

variable {x y : Extractor} {base : String}

theorem Extractor.Prompt.before (h : x.Prompt) (hb : x.Before y) : y.Prompt := by
  intro loader hl
  exact h (hb.loader ▸ hl)

theorem ScriptTask.Polled.done_of_prompt {task task' : ScriptTask} (h : task.Polled x base (.ok task', y))
    (hx : x.Prompt) (ht : task.Prompt) : ∃ m, task' = .done m := by
  generalize hr : (Except.ok task', y) = r at h
  cases h with
  | @known m => cases hr; exact ⟨m, rfl⟩
  | @pending a due _ => exact absurd rfl (ht a due)
  | silent _ => cases hr; exact ⟨{}, rfl⟩
  | @inline _ _ r _ _ _ _ => cases r <;> cases hr; exact ⟨_, rfl⟩
  | unresolved _ _ _ _ _ => cases hr
  | @asked _ a _ _ hl hd => simp [hx hl a] at hd
  | failed _ _ _ | stuck => cases hr
  | @answered _ _ _ _ r _ _ _ _ _ _ => cases r <;> cases hr; exact ⟨_, rfl⟩

theorem Extraction.Polled.done_of_prompt {e e' : Extraction} (h : e.Polled x base (e', y)) (hx : x.Prompt)
    (he : e.Prompt) : ∃ r, e' = .done r := by
  cases h with
  | @known r => exact ⟨r, rfl⟩
  | failed _ => exact ⟨_, rfl⟩
  | finished _ _ => exact ⟨_, rfl⟩
  | running h hg =>
      have hdone := h.forall_done he fun hb hp ht => hp.done_of_prompt (hx.before hb) ht
      obtain ⟨m, hm⟩ := gather?_isSome hdone
      simp [hm] at hg

theorem Extraction.prompt_start (scripts : List Node) : (Extraction.start scripts).Prompt := by
  intro task hmem a due he
  obtain ⟨node, _, rfl⟩ := List.mem_map.mp hmem
  cases he

/-! ## Sessions -/

namespace Session

variable {A : String → Prop} {s t : Session} {a : String} {d : Document}

/-- A session in which nothing is waited for. -/
structure Prompt (s : Session) : Prop where
  extractor : s.extractor.Prompt
  extraction : ∀ {a d}, s.document? a = some d → d.extraction.Prompt

theorem Steady.prompt (h : s.Steady t) (hs : s.extractor.Prompt) : t.extractor.Prompt := by
  intro loader hl
  exact hs (h.loader ▸ hl)

theorem Resolved.prompt {text : String} {r : Except AnalysisError Unit} (h : s.Resolved a text (r, t))
    (hs : s.Prompt) : t.Prompt where
  extractor := h.steady.prompt hs.extractor
  extraction {b d} hd := by
    rcases h.document?_eq hd with hd | ⟨_, _, m, _, rfl⟩
    · exact hs.extraction hd
    · exact Extraction.prompt_start m.scripts

theorem Retains.prompt (h : s.Retains t) (hs : s.Prompt) (hx : t.extractor.Prompt) : t.Prompt where
  extractor := hx
  extraction {b _} hd := hs.extraction (h.document? b ▸ hd)

theorem Prompt.insert (hs : s.Prompt) (a text : String) : (s.insert a text).Prompt := by
  refine (retains_serve s (·.insert a text)).prompt hs fun {loader} hl => ?_
  obtain ⟨loader', hl', rfl⟩ := Option.map_eq_some_iff.mp hl
  exact fun b => hs.extractor hl' b

theorem Prompt.fetch (hs : s.Prompt) (a : String) : (s.pollFetch a).2.Prompt where
  extractor := (pollFetch_fetching s a).steady.prompt hs.extractor
  extraction {b d} hd := by
    rcases (pollFetch_fetching s a).document?_eq hd with hd | ⟨_, _, _, _, m, _, _, _, rfl⟩
    · exact hs.extraction hd
    · exact Extraction.prompt_start m.scripts

/-- Declarations that are asked for are found, or there is an error. -/
theorem Prompt.pollMetadata (hs : s.Prompt) (hd : s.document? a = some d) :
    ∃ r, (s.pollMetadata a).1 = some r ∧ (d.extraction.poll s.extractor a).1 = .done r := by
  have hp : ∃ r, (d.extraction.poll s.extractor a).1 = .done r :=
    (Extraction.poll_cases ..).done_of_prompt hs.extractor (hs.extraction hd)
  obtain ⟨r, hr⟩ := hp
  exact ⟨r, by rw [pollMetadata_some hd, hr]; rfl, hr⟩

theorem Prompt.extract (hs : s.Prompt) (a : String) : (s.pollMetadata a).2.Prompt where
  extractor := (steady_pollMetadata s a).prompt hs.extractor
  extraction {b d} hd := by
    rw [document?_pollMetadata] at hd
    split at hd
    next hb =>
      subst hb
      obtain ⟨d', hd', rfl⟩ := Option.map_eq_some_iff.mp hd
      obtain ⟨r, _, hr⟩ := hs.pollMetadata hd'
      simp [hr, Extraction.Prompt]
    next => exact hs.extraction hd

theorem Prompt.note (hs : s.Prompt) (w : ImportWalk) : (s.setImports a w).Prompt where
  extractor := (steady_setImports w).prompt hs.extractor
  extraction {b d} hd := by
    rw [document?_setImports] at hd
    split at hd
    next =>
      obtain ⟨d', hd', rfl⟩ := Option.map_eq_some_iff.mp hd
      exact (hs.extraction hd' : d'.extraction.Prompt)
    next => exact hs.extraction hd

theorem Prompt.change (hs : s.Prompt) (h : Change A s t) : t.Prompt := by
  cases h with
  | poll h =>
      cases h with
      | fetch _ => exact hs.fetch _
      | extract => exact hs.extract _
      | note _ _ _ => exact hs.note _
      | queue => exact ⟨hs.extractor, hs.extraction⟩
  | advance _ => exact ⟨hs.extractor, hs.extraction⟩

theorem Prompt.changes (hs : s.Prompt) (h : Changes A s t) : t.Prompt := by
  induction h with
  | refl => exact hs
  | tail _ h ih => exact ih.change h

/-! ## Goals -/

def Goal.address : Goal → String
  | .load a | .metadata a | .imports a | .both a => a

/-! Declarations and imports together: the declarations come first. -/

theorem pollBoth_error {e : AnalysisError} (h : (s.pollMetadata a).1 = some (.error e)) :
    s.pollGoal (.both a) = (some (.error e), (s.pollMetadata a).2) := by
  simp only [pollGoal]
  cases hc : s.pollMetadata a with
  | mk declared t =>
      rw [hc] at h
      cases h
      rfl

theorem pollBoth_ok {m : Metadata} (h : (s.pollMetadata a).1 = some (.ok m)) :
    s.pollGoal (.both a) =
      (outcome ((s.pollMetadata a).2.pollImports a).1, ((s.pollMetadata a).2.pollImports a).2) := by
  simp only [pollGoal]
  cases hc : s.pollMetadata a with
  | mk declared t =>
      rw [hc] at h
      cases h
      cases hq : t.pollImports a with
      | mk imported u => rcases imported with _ | (_ | _) <;> simp only [hq, outcome]

/-! ## Without a loader -/

/-- Without a loader, imports that are asked for are found, or there is an error. -/
theorem Prompt.pollImports (hp : s.Prompt) (hs : s.Coherent) (hl : s.extractor.loader? = none)
    (hd : s.document? a = some d) : ∃ r, (s.pollImports a).1 = some r := by
  simp only [Session.pollImports, hd]
  cases hi : d.imports with
  | done r => exact ⟨r, rfl⟩
  | waiting targets awaited =>
      have hw := hs.allowed hd
      rw [hi] at hw
      have hloader := hw.loader
      simp [hl] at hloader
  | idle =>
      obtain ⟨m, hm, _⟩ := hp.pollMetadata hd
      simp only [beginWalk, hl, document?_address hd]
      cases hc : s.pollMetadata a with
      | mk declared t =>
          rw [hc] at hm
          cases hm
          cases m <;> exact ⟨_, rfl⟩

theorem Prompt.pollBoth (hp : s.Prompt) (hs : s.Coherent) (hl : s.extractor.loader? = none)
    (hd : s.document? a = some d) : ∃ r, (s.pollGoal (.both a)).1 = some r := by
  obtain ⟨m, hm, _⟩ := hp.pollMetadata hd
  cases m with
  | error e => exact ⟨_, by rw [pollBoth_error hm]⟩
  | ok m =>
      have hc : Changes (fun _ => True) s (s.pollMetadata a).2 := .single (.poll .extract)
      obtain ⟨e, he, _⟩ := hc.grows.documents hd
      obtain ⟨l, hi⟩ := (hp.changes hc).pollImports (hs.changes hc) (hc.steady.loader.trans hl) he
      rw [pollBoth_ok hm, hi]
      cases l <;> exact ⟨_, rfl⟩

theorem await_of_poll {goal : Goal} (h : ∃ r, (s.pollGoal goal).1 = some r) : ∃ r, (s.await goal).1 = some r := by
  obtain ⟨r, hr⟩ := h
  unfold await
  cases hc : s.pollGoal goal with
  | mk r' t =>
      rw [hc] at hr
      cases hr
      exact ⟨r, rfl⟩

/-- Without a loader, a document has been found to import nothing. -/
theorem Coherent.leads_nil {targets : List String} (hs : s.Coherent) (hl : s.extractor.loader? = none)
    (h : s.leads a = some targets) : targets = [] := by
  obtain ⟨d, hd, ht⟩ := leads_eq_some.mp h
  have hi := (hs.completes hd ht).imported
  rw [Session.imported, hl] at hi
  cases hi
  rfl

theorem Prompt.tree_isSome (hp : s.Prompt) (hs : s.Coherent) (hl : s.extractor.loader? = none)
    (hd : s.document? a = some d) : ∃ r, (s.tree a).1 = some r := by
  have hvisit : ∃ r, (visit s.walkBound a [a] s).1 = some r := by
    rw [walkBound, visit_succ]
    refine (await_anywhere hs (.both a)).isSome (await_of_poll (hp.pollBoth hs hl hd)) fun {_ t} hc hr => ?_
    obtain ⟨page, targets, hk⟩ := hr.known
    obtain ⟨e, he, hx⟩ := Option.bind_eq_some_iff.mp hk
    obtain ⟨m, _, ht, _⟩ := expansion?_eq_some hx
    cases (hs.changes hc).leads_nil (hc.steady.loader.trans hl) (leads_eq_some.mpr ⟨e, he, ht⟩)
    rw [hk]
    exact ⟨_, rfl⟩
  rw [tree_eq]
  exact (visit_does (A := fun _ => True) _ a [a] hs).isSome hvisit fun _ _ => ⟨_, rfl⟩

theorem Prompt.dependencies_isSome (hp : s.Prompt) (hs : s.Coherent) (hl : s.extractor.loader? = none)
    (hd : s.document? a = some d) : ∃ r, (s.dependencies a).1 = some r := by
  rw [dependencies, walkBound, walkQueue_cons]
  refine (await_anywhere hs (.load a)).isSome (await_of_poll ⟨.ok (), ?_⟩) fun {_ t} hc _ => ?_
  · simp only [pollGoal, pollLoad, if_pos (holds_iff.mpr ⟨d, hd⟩)]
  have ht := hs.changes hc
  have htl := hc.steady.loader.trans hl
  obtain ⟨e, he, _⟩ := hc.grows.documents hd
  obtain ⟨l, hi⟩ := (hp.changes hc).pollImports ht htl he
  refine (await_anywhere ht (.imports a)).isSome (await_of_poll ⟨l.map fun _ => (), ?_⟩) fun {_ u} hc' hr => ?_
  · show outcome (t.pollImports a).1 = _
    rw [hi]
    cases l <;> rfl
  obtain ⟨targets, hk⟩ := hr.leads
  cases (ht.changes hc').leads_nil (hc'.steady.loader.trans htl) hk
  simp [hk, unseen, walkQueue, Walk.andThen]

end Session

end ImportTree
