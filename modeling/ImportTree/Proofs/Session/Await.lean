import ImportTree.Proofs.Session.Time

/-!
# Waiting ends

A goal that has been polled waits for responses of which the last is known. Every pass of time comes nearer to it,
and once nothing is awaited any more the goal is reached.
-/

namespace ImportTree

/-! ## Ripeness -/

/-- A fetch that waits for nothing later than a time. -/
def Fetch.Ripe (time : Nat) : Fetch → Prop
  | .waiting due => due ≤ time
  | .done _ => True

theorem Fetch.Ripe.before {f g : Fetch} {time : Nat} (h : f.Ripe time) (hb : f.Before g) : g.Ripe time := by
  cases hb with
  | same => exact h
  | done => trivial

theorem Fetch.Ripe.mono {f : Fetch} {time time' : Nat} (h : f.Ripe time) (ht : time ≤ time') : f.Ripe time' := by
  cases f with
  | waiting due => exact Nat.le_trans h ht
  | done r => trivial

namespace Session

variable {A : String → Prop} {s t : Session} {a : String} {goal : Goal} {time : Nat} {loader : Loader}

/-- A fetch that has begun, and waits for nothing later than a time. -/
def FetchRipe (s : Session) (time : Nat) (a : String) : Prop :=
  ∃ f, s.fetches.lookup a = some f ∧ f.Ripe time

/-- Imports that are being walked, and wait for nothing later than a time. -/
def WalkRipe (s : Session) (time : Nat) (d : Document) : Prop :=
  match d.imports with
  | .idle => False
  | .waiting _ awaited => d.extraction.Ripe time ∧ ∀ a ∈ awaited, s.FetchRipe time a
  | .done _ => True

/-- A goal that has been polled, and waits for nothing later than a time. -/
def Ripe (s : Session) (time : Nat) : Goal → Prop
  | .load a => s.holds a = true ∨ s.FetchRipe time a
  | .metadata a => ∃ d, s.document? a = some d ∧ d.extraction.Ripe time
  | .imports a => ∃ d, s.document? a = some d ∧ s.WalkRipe time d
  | .both a => ∃ d, s.document? a = some d ∧ d.extraction.Ripe time ∧ s.WalkRipe time d

theorem FetchRipe.mono {time' : Nat} (h : s.FetchRipe time a) (ht : time ≤ time') : s.FetchRipe time' a := by
  obtain ⟨f, hf, hr⟩ := h
  exact ⟨f, hf, hr.mono ht⟩

theorem WalkRipe.mono {d : Document} {time' : Nat} (h : s.WalkRipe time d) (ht : time ≤ time') :
    s.WalkRipe time' d := by
  unfold WalkRipe at h ⊢
  cases hi : d.imports with
  | idle => rw [hi] at h; exact h.elim
  | done r => trivial
  | waiting targets awaited =>
      rw [hi] at h
      exact ⟨h.1.mono ht, fun a ha => (h.2 a ha).mono ht⟩

theorem Ripe.mono {time' : Nat} (h : s.Ripe time goal) (ht : time ≤ time') : s.Ripe time' goal := by
  cases goal with
  | load a => exact h.imp_right (·.mono ht)
  | metadata a =>
      obtain ⟨d, hd, hr⟩ := h
      exact ⟨d, hd, hr.mono ht⟩
  | imports a =>
      obtain ⟨d, hd, hr⟩ := h
      exact ⟨d, hd, hr.mono ht⟩
  | both a =>
      obtain ⟨d, hd, hr, hw⟩ := h
      exact ⟨d, hd, hr.mono ht, hw.mono ht⟩

theorem FetchRipe.grows (h : s.FetchRipe time a) (hg : s.Grows t) : t.FetchRipe time a := by
  obtain ⟨f, hf, hr⟩ := h
  obtain ⟨g, hg, hb⟩ := hg.fetches hf
  exact ⟨g, hg, hr.before hb⟩

theorem WalkRipe.grows {d e : Document} (h : s.WalkRipe time d) (hg : s.Grows t) (hd : d.Before e) :
    t.WalkRipe time e := by
  have hi := hd.imports
  unfold WalkRipe at h ⊢
  cases hw : d.imports with
  | idle => rw [hw] at h; exact h.elim
  | done r => rw [hi.eq_done hw]; trivial
  | waiting targets awaited =>
      rw [hw] at h hi
      generalize e.imports = w at hi
      cases hi with
      | same => exact ⟨hd.ripe _ h.1, fun a ha => (h.2 a ha).grows hg⟩
      | done => trivial

theorem Ripe.grows (h : s.Ripe time goal) (hg : s.Grows t) : t.Ripe time goal := by
  cases goal with
  | load a => exact h.imp hg.holds (·.grows hg)
  | metadata a =>
      obtain ⟨d, hd, hr⟩ := h
      obtain ⟨e, he, hb⟩ := hg.documents hd
      exact ⟨e, he, hb.ripe _ hr⟩
  | imports a =>
      obtain ⟨d, hd, hr⟩ := h
      obtain ⟨e, he, hb⟩ := hg.documents hd
      exact ⟨e, he, hr.grows hg hb⟩
  | both a =>
      obtain ⟨d, hd, hr, hw⟩ := h
      obtain ⟨e, he, hb⟩ := hg.documents hd
      exact ⟨e, he, hb.ripe _ hr, hw.grows hg hb⟩

/-! ## Ripe goals are reached -/

theorem pollFetch_ripe (hl : s.extractor.loader? = some loader) (h : s.FetchRipe s.clock a) :
    ∃ r, (s.pollFetch a).1 = some r := by
  obtain ⟨f, hf, hr⟩ := h
  have hc := pollFetch_cases s a
  generalize s.pollFetch a = p at hc
  cases hc with
  | @known r _ => exact ⟨r, rfl⟩
  | pending hw hp =>
      cases hf.symm.trans hw
      rcases hp with hp | hp
      · rw [hl] at hp; cases hp
      · exact absurd hp (Nat.not_lt.mpr hr)
  | refused hn _ => rw [hf] at hn; cases hn
  | asked hn _ _ _ => rw [hf] at hn; cases hn
  | failed _ _ _ => exact ⟨_, rfl⟩
  | late _ _ _ _ => exact ⟨_, rfl⟩
  | answered _ _ _ _ _ => exact ⟨_, rfl⟩

/-- Behind what is done no failure is held back, so fetches that are due have a result. -/
theorem pollFetches_ripe {l : List String} (count : Nat) (hl : s.extractor.loader? = some loader)
    (h : ∀ a ∈ l, s.FetchRipe s.clock a) : ∃ r, (s.pollFetches count 0 l).1 = some r := by
  induction l generalizing s with
  | nil => exact ⟨_, rfl⟩
  | cons a l ih =>
      obtain ⟨r, hr⟩ := pollFetch_ripe hl (h a (List.mem_cons_self ..))
      have hf := pollFetch_fetching s a
      unfold pollFetches
      cases hp : s.pollFetch a with
      | mk r' t =>
          rw [hp] at hr hf
          cases hr
          cases r with
          | error e => exact ⟨.error e, by simp [Joining.report, Joining.prompt]⟩
          | ok _ =>
              exact ih (hf.steady.loader.trans hl) fun b hb =>
                hf.clock ▸ (h b (List.mem_cons_of_mem _ hb)).grows hf.grows

theorem pollMetadata_ripe {d : Document} (hl : s.extractor.loader? = some loader) (hd : s.document? a = some d)
    (h : d.extraction.Ripe s.clock) : ∃ r, (s.pollMetadata a).1 = some r := by
  have hp : ∃ r, (d.extraction.poll s.extractor a).1 = .done r := (Extraction.poll_cases ..).done hl h
  obtain ⟨r, hr⟩ := hp
  exact ⟨r, by rw [pollMetadata_some hd, hr]; rfl⟩

theorem pollWalk_ripe {d : Document} {targets awaited : List String} (hl : s.extractor.loader? = some loader)
    (hd : s.document? a = some d) (h : d.extraction.Ripe s.clock) (hf : ∀ a ∈ awaited, s.FetchRipe s.clock a) :
    ∃ r, (s.pollWalk a targets awaited).1 = some r := by
  obtain ⟨declared, hr⟩ := pollMetadata_ripe hl hd h
  have hg := grows_pollMetadata s a
  have hx := (pollMetadata_frame s a).2
  have hclock : (s.pollMetadata a).2.clock = s.clock := hx.clock
  unfold pollWalk
  cases hc : s.pollMetadata a with
  | mk declared' t =>
      rw [hc] at hr hg hx hclock
      cases hr
      match declared with
      | .error e => exact ⟨_, rfl⟩
      | .ok m =>
          obtain ⟨fetched, hq⟩ := pollFetches_ripe (l := awaited) targets.length (hx.loader.trans hl) fun b hb =>
            hclock ▸ (hf b hb).grows hg
          cases hp : t.pollFetches targets.length 0 awaited with
          | mk fetched' u =>
              rw [hp] at hq
              cases hq
              simp only [hp]
              match fetched with
              | .error e => exact ⟨_, rfl⟩
              | .ok () => exact ⟨_, rfl⟩

theorem pollImports_ripe {d : Document} (hl : s.extractor.loader? = some loader) (hd : s.document? a = some d)
    (h : s.WalkRipe s.clock d) : ∃ r, (s.pollImports a).1 = some r := by
  unfold WalkRipe at h
  unfold pollImports
  simp only [hd]
  cases hi : d.imports with
  | idle => rw [hi] at h; exact h.elim
  | done r => exact ⟨r, rfl⟩
  | waiting targets awaited =>
      rw [hi] at h
      exact pollWalk_ripe hl hd h.1 h.2

theorem outcome_some {α : Type} (r : Except AnalysisError α) : ∃ r', outcome (some r) = some r' := by
  cases r <;> exact ⟨_, rfl⟩

theorem pollBoth_ripe (hl : s.extractor.loader? = some loader) (h : s.Ripe s.clock (.both a)) :
    ∃ r, (s.pollGoal (.both a)).1 = some r := by
  obtain ⟨d, hd, hr, hw⟩ := h
  obtain ⟨declared, hr⟩ := pollMetadata_ripe hl hd hr
  have hg := grows_pollMetadata s a
  have hx := (pollMetadata_frame s a).2
  have hclock : (s.pollMetadata a).2.clock = s.clock := hx.clock
  obtain ⟨e, he, hb⟩ := hg.documents hd
  have hw' := hw.grows hg hb
  simp only [pollGoal]
  cases hc : s.pollMetadata a with
  | mk declared' t =>
      rw [hc] at hr hg hx hclock he hw'
      cases hr
      cases declared with
      | error e => exact ⟨_, rfl⟩
      | ok m =>
          obtain ⟨imported, hq⟩ := pollImports_ripe (hx.loader.trans hl) he (hclock ▸ hw')
          cases hp : t.pollImports a with
          | mk imported' u =>
              rw [hp] at hq
              cases hq
              simp only [hp]
              cases imported with
              | error e => exact ⟨_, rfl⟩
              | ok targets => exact ⟨_, rfl⟩

theorem pollGoal_ripe (hl : s.extractor.loader? = some loader) (h : s.Ripe s.clock goal) :
    ∃ r, (s.pollGoal goal).1 = some r := by
  cases goal with
  | load a =>
      simp only [pollGoal, pollLoad]
      split
      next => exact ⟨_, rfl⟩
      next hn => exact pollFetch_ripe hl (h.resolve_left (by simpa using hn))
  | metadata a =>
      obtain ⟨d, hd, hr⟩ := h
      obtain ⟨r, hr⟩ := pollMetadata_ripe hl hd hr
      change ∃ r', outcome (s.pollMetadata a).1 = some r'
      rw [hr]
      exact outcome_some r
  | imports a =>
      obtain ⟨d, hd, hr⟩ := h
      obtain ⟨r, hr⟩ := pollImports_ripe hl hd hr
      change ∃ r', outcome (s.pollImports a).1 = some r'
      rw [hr]
      exact outcome_some r
  | both a => exact pollBoth_ripe hl h

/-! ## Everything that is awaited is due -/

theorem FetchRipe.of_dues {time' : Nat} (h : s.FetchRipe time a) (hc : s.clock ≤ time')
    (hd : ∀ due ∈ s.dues, due ≤ time') : s.FetchRipe time' a := by
  obtain ⟨f, hf, hr⟩ := h
  refine ⟨f, hf, ?_⟩
  cases f with
  | done r => trivial
  | waiting due =>
      obtain ⟨l₁, l₂, hl, _⟩ := List.lookup_eq_some_iff.mp hf
      have hmem : due ∈ s.fetches.filterMap fetchDue? :=
        List.mem_filterMap.mpr ⟨(a, .waiting due), by simp [hl], rfl⟩
      by_cases hlt : s.clock < due
      · exact hd due (List.mem_filter.mpr ⟨List.mem_append_left _ hmem, by simpa using hlt⟩)
      · change due ≤ time'
        omega

theorem ripe_extraction_of_dues {d : Document} {time' : Nat} (hm : s.document? a = some d)
    (h : d.extraction.Ripe time) (hc : s.clock ≤ time') (hd : ∀ due ∈ s.dues, due ≤ time') :
    d.extraction.Ripe time' := by
  refine h.of_dues fun due hdue => ?_
  have hmem : due ∈ s.documents.flatMap fun d => d.extraction.dues :=
    List.mem_flatMap.mpr ⟨d, document?_mem hm, hdue⟩
  by_cases hlt : s.clock < due
  · exact hd due (List.mem_filter.mpr ⟨List.mem_append_right _ hmem, by simpa using hlt⟩)
  · omega

theorem WalkRipe.of_dues {d : Document} {time' : Nat} (h : s.WalkRipe time d) (hm : s.document? a = some d)
    (hc : s.clock ≤ time') (hd : ∀ due ∈ s.dues, due ≤ time') : s.WalkRipe time' d := by
  unfold WalkRipe at h ⊢
  cases hi : d.imports with
  | idle => rw [hi] at h; exact h.elim
  | done r => trivial
  | waiting targets awaited =>
      rw [hi] at h
      exact ⟨ripe_extraction_of_dues hm h.1 hc hd, fun b hb => (h.2 b hb).of_dues hc hd⟩

theorem Ripe.of_dues {time' : Nat} (h : s.Ripe time goal) (hc : s.clock ≤ time') (hd : ∀ due ∈ s.dues, due ≤ time') :
    s.Ripe time' goal := by
  cases goal with
  | load a => exact h.imp_right (·.of_dues hc hd)
  | metadata a =>
      obtain ⟨d, hm, hr⟩ := h
      exact ⟨d, hm, ripe_extraction_of_dues hm hr hc hd⟩
  | imports a =>
      obtain ⟨d, hm, hr⟩ := h
      exact ⟨d, hm, hr.of_dues hm hc hd⟩
  | both a =>
      obtain ⟨d, hm, hr, hw⟩ := h
      exact ⟨d, hm, ripe_extraction_of_dues hm hr hc hd, hw.of_dues hm hc hd⟩

/-! ## Goals that have been polled -/

/-- Whether the document that a goal asks about is there. -/
def Attends (s : Session) : Goal → Prop
  | .load _ => True
  | .metadata a | .imports a | .both a => s.holds a = true

theorem clock_le_horizon (s : Session) : s.clock ≤ s.horizon := by
  unfold horizon
  cases h : s.dues.max? with
  | none => exact Nat.le_refl _
  | some due => exact Nat.le_of_lt (clock_lt_dues (List.max?_eq_some_iff.mp h).1)

theorem le_horizon {due : Nat} (h : due ∈ s.dues) : due ≤ s.horizon :=
  List.le_max?_getD_of_mem h

theorem fetchRipe_of_begun (h : (s.fetches.lookup a).isSome = true) : s.FetchRipe s.horizon a := by
  obtain ⟨f, hf⟩ := Option.isSome_iff_exists.mp h
  have hbegun : ∃ time, f.Ripe time := by
    cases f with
    | waiting due => exact ⟨due, Nat.le_refl due⟩
    | done r => exact ⟨0, trivial⟩
  obtain ⟨time, hr⟩ := hbegun
  exact FetchRipe.of_dues ⟨f, hf, hr⟩ (clock_le_horizon _) fun _ => le_horizon

/-- Imports that are being walked wait for responses that are expected before the horizon. -/
theorem walkRipe_of_begun {d : Document} (hs : s.Coherent) (hd : s.document? a = some d) (hne : d.imports ≠ .idle) :
    s.WalkRipe s.horizon d := by
  have hw := hs.allowed hd
  unfold WalkRipe
  cases hc : d.imports with
  | idle => exact absurd hc hne
  | done r => trivial
  | waiting targets awaited =>
      rw [hc] at hw
      obtain ⟨time, ht⟩ := hw.extraction
      exact ⟨ripe_extraction_of_dues hd ht (clock_le_horizon _) fun _ => le_horizon,
        fun b hb => fetchRipe_of_begun (hw.begun b hb)⟩

/-- The document after a poll of its imports: they are found, or they are being walked. -/
theorem walked_pollImports {d : Document} (hs : s.Coherent) (hl : s.extractor.loader?.isSome = true)
    (hd : s.document? a = some d) :
    ∃ e, (s.pollImports a).2.document? a = some e ∧ d.Before e ∧
      (s.pollImports a).2.WalkRipe (s.pollImports a).2.horizon e := by
  have hi := pollImports_imported (fun _ => True) hs a
  obtain ⟨e, he, hde⟩ := hi.polls.changes.grows.documents hd
  exact ⟨e, he, hde, walkRipe_of_begun (hs.polls hi.polls) he (hi.begun hl he)⟩

/-- What a goal that is not reached waits for is expected before the horizon. -/
theorem pollBoth_begun (hs : s.Coherent) (hl : s.extractor.loader?.isSome = true) (hg : s.holds a = true)
    (hr : (s.pollGoal (.both a)).1 = none) :
    (s.pollGoal (.both a)).2.Ripe (s.pollGoal (.both a)).2.horizon (.both a) := by
  obtain ⟨d, hd⟩ := holds_iff.mp hg
  obtain ⟨e, he, _, _, _, time, ht⟩ := begun_pollMetadata hd
  have hp : Polls (fun _ => True) s (s.pollMetadata a).2 := .single .extract
  obtain ⟨e', he', hb, hw⟩ := walked_pollImports (hs.polls hp) (hp.changes.steady.loader ▸ hl) he
  have key : ((s.pollMetadata a).2.pollImports a).2.Ripe ((s.pollMetadata a).2.pollImports a).2.horizon (.both a) :=
    ⟨e', he', ripe_extraction_of_dues he' (hb.ripe _ ht) (clock_le_horizon _) fun _ => le_horizon, hw⟩
  simp only [pollGoal] at hr ⊢
  cases hc : s.pollMetadata a with
  | mk declared t =>
      rw [hc] at hr key
      cases hq : t.pollImports a with
      | mk imported u =>
          rw [hq] at key
          rcases declared with _ | (_ | _) <;> rcases imported with _ | (_ | _) <;> simp only [hq] at hr ⊢ <;>
            first
            | exact key
            | cases hr

theorem pollGoal_begun (hs : s.Coherent) (hl : s.extractor.loader?.isSome = true) (hg : s.Attends goal)
    (hr : (s.pollGoal goal).1 = none) : (s.pollGoal goal).2.Ripe (s.pollGoal goal).2.horizon goal := by
  cases goal with
  | load a =>
      simp only [pollGoal, pollLoad]
      split
      next h => exact .inl h
      next => exact .inr (fetchRipe_of_begun (pollFetch_fetching s a).begun)
  | metadata a =>
      obtain ⟨d, hd⟩ := holds_iff.mp hg
      obtain ⟨e, he, _, _, _, time, ht⟩ := begun_pollMetadata hd
      exact ⟨e, he, ripe_extraction_of_dues he ht (clock_le_horizon _) fun _ => le_horizon⟩
  | imports a =>
      obtain ⟨d, hd⟩ := holds_iff.mp hg
      obtain ⟨e, he, _, hw⟩ := walked_pollImports hs hl hd
      exact ⟨e, he, hw⟩
  | both a => exact pollBoth_begun hs hl hg hr

/-! ## Waiting -/

/-- A pass of time comes nearer to every response, unless none is awaited any more. -/
theorem pass_ripe (hs : s.Coherent) (hr : s.Ripe time goal) :
    s.clock < s.pass.clock ∨ s.pass.Ripe s.pass.clock goal := by
  have hw := work_polls (fun _ => True) hs
  have hclock := clock_work hs
  unfold pass
  cases hm : s.work.dues.min? with
  | some due =>
      have hlt := clock_lt_dues (List.min?_eq_some_iff.mp hm).1
      rw [hclock] at hlt
      exact .inl hlt
  | none =>
      have hnil : s.work.dues = [] := by simpa using hm
      exact .inr ((hr.grows hw.changes.grows).of_dues (Nat.le_refl _) (by simp [hnil]))

theorem pollGoal_anywhere (hs : s.Coherent) (goal : Goal) :
    Advanced (fun _ => True) s goal (s.pollGoal goal) :=
  pollGoal_advanced hs fun _ _ => .inl trivial

theorem awaitFor_ripe {n : Nat} (hs : s.Coherent) (hl : s.extractor.loader?.isSome = true)
    (hr : s.Ripe s.clock goal ∨ s.Ripe time goal ∧ time ≤ s.clock + n) : ∃ r, (awaitFor goal n s).1 = some r := by
  obtain ⟨loader, hloader⟩ := Option.isSome_iff_exists.mp hl
  induction n generalizing s with
  | zero => exact pollGoal_ripe hloader (hr.elim id fun h => h.1.mono h.2)
  | succ n ih =>
      have hp := (pollGoal_anywhere hs goal).polls
      unfold awaitFor
      cases hc : s.pollGoal goal with
      | mk r t =>
          rw [hc] at hp
          cases r with
          | some r => exact ⟨r, rfl⟩
          | none =>
              rcases hr with hr | ⟨hr, ht⟩
              · obtain ⟨r, hr⟩ := pollGoal_ripe hloader hr
                rw [hc] at hr
                cases hr
              · replace hp : Polls (fun _ => True) s t := hp
                have hripe := hr.grows hp.changes.grows
                have hclock := hp.clock
                have hpass := hp.changes.trans (pass_changes _ (hs.polls hp))
                have hsteady := (Changes.steady hpass).loader
                refine ih (hs.changes hpass) (hsteady ▸ hl) ?_ (hsteady.trans hloader)
                refine (pass_ripe (hs.polls hp) hripe).symm.imp_right fun hlt => ?_
                exact ⟨hr.grows (Changes.grows hpass), by omega⟩

/-- While there is a loader, waiting for a goal ends. -/
theorem await_isSome (goal : Goal) (hs : s.Coherent) (hl : s.extractor.loader?.isSome = true) (hg : s.Attends goal) :
    ∃ r, (s.await goal).1 = some r := by
  have hp := (pollGoal_anywhere hs goal).polls
  have hbegun := pollGoal_begun hs hl hg
  unfold await
  cases hc : s.pollGoal goal with
  | mk r t =>
      rw [hc] at hp hbegun
      match r with
      | some r => exact ⟨r, rfl⟩
      | none =>
          have ht := hs.polls hp
          have hripe := hbegun rfl
          have hpass := pass_changes (fun _ => True) ht
          have hclock := clock_le_horizon t
          have hl' : t.pass.extractor.loader?.isSome = true := by
            rw [hpass.steady.loader, hp.changes.steady.loader]; exact hl
          refine awaitFor_ripe (ht.changes hpass) hl' (.inr ⟨hripe.grows hpass.grows, ?_⟩)
          have := hpass.grows.clock
          dsimp only at this ⊢
          omega

end Session

end ImportTree
