import ImportTree.Proofs.Session.Bounds

/-!
# Background work ends

A document is queued when it is read, and stays in the queue until its imports have been found or cannot be found. Only
finitely many documents can be read, so the queue runs empty.
-/

namespace ImportTree.Session

variable {A : String → Prop} {s t u : Session} {a : String} {V : List String}

/-! ## What is added to the queue -/

/-- What becomes of the queue while nothing is taken from it: the documents that are read meanwhile come last. -/
structure Enlists (s t : Session) : Prop where
  eager : t.eager = s.eager
  holds : ∀ {a}, s.holds a = true → t.holds a = true
  queue : ∃ new : List String, t.queue = s.queue ++ new ∧ new.Nodup ∧
    ∀ a, a ∈ new ↔ s.eager = true ∧ s.holds a = false ∧ t.holds a = true

theorem Enlists.same (he : t.eager = s.eager) (hq : t.queue = s.queue) (hh : ∀ a, t.holds a = s.holds a) :
    s.Enlists t where
  eager := he
  holds ha := (hh _).trans ha
  queue := ⟨[], by simp [hq], List.nodup_nil, fun a => by simp [hh]⟩

theorem Enlists.refl (s : Session) : s.Enlists s :=
  .same rfl rfl fun _ => rfl

theorem Enlists.trans (h₁ : s.Enlists t) (h₂ : t.Enlists u) : s.Enlists u where
  eager := h₂.eager.trans h₁.eager
  holds ha := h₂.holds (h₁.holds ha)
  queue := by
    obtain ⟨new₁, hq₁, hn₁, hmem₁⟩ := h₁.queue
    obtain ⟨new₂, hq₂, hn₂, hmem₂⟩ := h₂.queue
    refine ⟨new₁ ++ new₂, by rw [hq₂, hq₁, List.append_assoc], ?_, fun a => ?_⟩
    · refine List.nodup_append.mpr ⟨hn₁, hn₂, ?_⟩
      rintro a ha _ hb rfl
      exact absurd ((hmem₁ a).mp ha).2.2 (by simp [((hmem₂ a).mp hb).2.1])
    · rw [List.mem_append, hmem₁, hmem₂, h₁.eager]
      constructor
      · rintro (⟨he, hs, ht⟩ | ⟨he, ht, hu⟩)
        · exact ⟨he, hs, h₂.holds ht⟩
        · exact ⟨he, Bool.eq_false_iff.mpr fun hs => by simp [h₁.holds hs] at ht, hu⟩
      · rintro ⟨he, hs, hu⟩
        cases ht : t.holds a with
        | true => exact .inl ⟨he, hs, rfl⟩
        | false => exact .inr ⟨he, rfl, hu⟩

theorem Resolved.enlists {text : String} {r : Except AnalysisError Unit} (h : s.Resolved a text (r, t)) :
    s.Enlists t := by
  cases h with
  | there _ => exact .refl s
  | unreadable _ _ => exact .refl s
  | @read m hn _ =>
      have hh (b : String) : (s.register a m).holds b = (decide (b = a) || s.holds b) := by
        change ((s.register a m).document? b).isSome = (decide (b = a) || (s.document? b).isSome)
        rw [document?_register m hn]
        by_cases hb : b = a <;> simp [hb]
      have hna : s.holds a = false := not_holds_iff.mpr hn
      refine ⟨rfl, fun hb => by simp [hh, hb], ?_⟩
      cases he : s.eager with
      | false => exact ⟨[], by simp [register, he], List.nodup_nil, by simp⟩
      | true =>
          refine ⟨[a], by simp [register, he], List.nodup_singleton a, fun b => ?_⟩
          rw [List.mem_singleton, hh]
          by_cases hb : b = a
          · simp [hb, hna]
          · simp [hb]

theorem Listening.enlists (h : s.Listening a t) : s.Enlists t := by
  cases h with
  | waiting _ _ => exact .refl s
  | asking _ _ => exact .same rfl rfl fun _ => rfl

theorem enlists_closeFetch (r : Except AnalysisError Unit) : s.Enlists (s.closeFetch a r) :=
  .same rfl rfl fun _ => rfl

theorem Fetching.enlists {r : Option (Except AnalysisError Unit)} (h : s.Fetching a (r, t)) : s.Enlists t := by
  cases h with
  | known _ => exact .refl s
  | pending _ _ => exact .refl s
  | refused _ _ => exact enlists_closeFetch _
  | asked _ _ _ _ => exact .same rfl rfl fun _ => rfl
  | failed ht _ _ => exact ht.enlists.trans (enlists_closeFetch _)
  | late ht _ _ _ => exact ht.enlists.trans (enlists_closeFetch _)
  | answered ht _ _ _ hr => exact (ht.enlists.trans hr.enlists).trans (enlists_closeFetch _)

theorem FetchesPolled.enlists {l : List String} {r : Option (Except AnalysisError Unit)}
    (h : FetchesPolled s l (r, t)) : s.Enlists t := by
  generalize hr : (r, t) = p at h
  induction h generalizing r with
  | nil => cases hr; exact .refl _
  | failed hf _ => cases hr; exact hf.enlists
  | cons hf _ _ ih => cases hr; exact hf.enlists.trans (ih rfl)

theorem enlists_pollMetadata (s : Session) (a : String) : s.Enlists (s.pollMetadata a).2 := by
  have he := (pollMetadata_frame s a).1
  exact .same (steady_pollMetadata s a).eager (by rw [he]) fun _ => holds_pollMetadata

theorem enlists_setImports (s : Session) (a : String) (w : ImportWalk) : s.Enlists (s.setImports a w) :=
  .same (steady_setImports w).eager (by rw [setImports_eq]) fun _ => holds_setImports w

theorem enlists_pollWalk (s : Session) (a : String) (targets awaited : List String) :
    s.Enlists (s.pollWalk a targets awaited).2 := by
  have hm := enlists_pollMetadata s a
  unfold pollWalk
  cases hc : s.pollMetadata a with
  | mk declared t =>
      rw [hc] at hm
      have hf := pollFetches_cases t targets.length 0 awaited
      cases hq : t.pollFetches targets.length 0 awaited with
      | mk fetched u =>
          rw [hq] at hf
          have hnote (w : ImportWalk) : s.Enlists (u.setImports a w) :=
            (hm.trans hf.enlists).trans (enlists_setImports u a w)
          match declared, fetched with
          | some (.error _), _ => exact hm.trans (enlists_setImports t a _)
          | none, some (.error _) | some (.ok _), some (.error _) => simp only [hq]; exact hnote _
          | none, some (.ok ()) | none, none => simp only [hq]; exact hnote _
          | some (.ok _), some (.ok ()) | some (.ok _), none => simp only [hq]; exact hnote _

theorem enlists_beginWalk (s : Session) (d : Document) : s.Enlists (s.beginWalk d).2 := by
  unfold beginWalk
  split
  next =>
    have hm := enlists_pollMetadata s d.address
    cases hc : s.pollMetadata d.address with
    | mk declared t =>
        rw [hc] at hm
        match declared with
        | none => exact hm
        | some (.error _) | some (.ok _) => exact hm.trans (enlists_setImports t d.address _)
  next =>
    split
    next => exact enlists_setImports s d.address _
    next =>
      split
      next => exact enlists_setImports s d.address _
      next => exact enlists_pollWalk ..

theorem enlists_pollImports (s : Session) (a : String) : s.Enlists (s.pollImports a).2 := by
  unfold pollImports
  split
  next => exact .refl s
  next =>
    split
    next => exact .refl s
    next => exact enlists_pollWalk ..
    next => exact enlists_beginWalk ..

theorem enlists_pollGoal (s : Session) (goal : Goal) : s.Enlists (s.pollGoal goal).2 := by
  cases goal with
  | load a =>
      simp only [pollGoal, pollLoad]
      split
      next => exact .refl s
      next => exact (pollFetch_fetching s a).enlists
  | metadata a => exact enlists_pollMetadata s a
  | imports a => exact enlists_pollImports s a
  | both a =>
      have hm := enlists_pollMetadata s a
      simp only [pollGoal]
      cases hc : s.pollMetadata a with
      | mk declared t =>
          rw [hc] at hm
          have hi := hm.trans (enlists_pollImports t a)
          cases hq : t.pollImports a with
          | mk imported u =>
              rw [hq] at hi
              rcases declared with _ | (_ | _)
              · rcases imported with _ | (_ | _) <;> simp only [hq] <;> exact hi
              · exact hm
              · rcases imported with _ | (_ | _) <;> simp only [hq] <;> exact hi

/-! ## What is left to read -/

/-- The number of entries of a list at whose address no document has been read. -/
def room (V : List String) (s : Session) : Nat :=
  V.countP fun a => !s.holds a

/-- Whether all texts that the loader has are for addresses of a list. -/
def Stocked (V : List String) (s : Session) : Prop :=
  ∀ a text, s.Answers a text → a ∈ V

theorem Stocked.steady (h : s.Stocked V) (hst : s.Steady t) : t.Stocked V :=
  fun a text ha => h a text (hst.answers ha)

theorem room_split (V : List String) (h : ∀ {a}, s.holds a = true → t.holds a = true) :
    (V.filter fun a => !s.holds a && t.holds a).length + t.room V = s.room V := by
  unfold room
  induction V with
  | nil => rfl
  | cons a V ih =>
      have ha := h (a := a)
      rw [List.filter_cons, List.countP_cons, List.countP_cons]
      cases hs : s.holds a <;> cases ht : t.holds a <;> simp_all <;> omega

/-- What is read makes the queue longer, and leaves less to read. -/
theorem Enlists.length_add_room (h : s.Enlists t) (hc : Changes A s t) (hV : s.Stocked V) :
    t.queue.length + t.room V ≤ s.queue.length + s.room V := by
  obtain ⟨new, hq, hn, hmem⟩ := h.queue
  have hsub : new ⊆ V.filter fun a => !s.holds a && t.holds a := by
    intro a ha
    obtain ⟨_, hs, ht⟩ := (hmem a).mp ha
    obtain ⟨d, hd⟩ := holds_iff.mp ht
    obtain ⟨text, htext, _⟩ := hc.registered (not_holds_iff.mp hs) hd
    exact List.mem_filter.mpr ⟨hV a text htext, by simp [hs, ht]⟩
  have hlen := length_le_of_subset hn hsub
  have hroom := room_split V h.holds
  rw [hq, List.length_append]
  omega

/-! ## The queue in order -/

/-- A queue in order, apart from documents that are parked: what is in it is there, and whatever is there is in it, or
its imports have come to an end. -/
structure Tended (parked : List String) (s : Session) : Prop where
  held : ∀ a ∈ parked ++ s.queue, s.holds a = true
  idle : s.eager = false → parked ++ s.queue = []
  tended : s.eager = true → ∀ {a d}, s.document? a = some d →
    a ∈ parked ++ s.queue ∨ ∃ r, d.imports.result? = some r

variable {parked rest : List String}

/-- What is read is held when it is queued. -/
theorem Enlists.held (he : s.Enlists t) (h : ∀ a ∈ parked ++ s.queue, s.holds a = true) :
    ∀ a ∈ parked ++ t.queue, t.holds a = true := by
  obtain ⟨new, hq, _, hmem⟩ := he.queue
  intro a ha
  rw [hq, ← List.append_assoc] at ha
  rcases List.mem_append.mp ha with ha | ha
  · exact he.holds (h a ha)
  · exact ((hmem a).mp ha).2.2

theorem Tended.enlists (h : s.Tended parked) (he : s.Enlists t) (hg : s.Grows t) : t.Tended parked := by
  obtain ⟨new, hq, _, hmem⟩ := he.queue
  refine ⟨he.held h.held, fun hlazy => ?_, fun heager a d hd => ?_⟩
  · have hnew : new = [] := List.eq_nil_iff_forall_not_mem.mpr fun a ha => by
      simpa [he.eager.symm.trans hlazy] using ((hmem a).mp ha).1
    rw [hq, hnew, List.append_nil]
    exact h.idle (he.eager.symm.trans hlazy)
  · rw [he.eager] at heager
    rw [hq, ← List.append_assoc, List.mem_append]
    cases hs : s.document? a with
    | none => exact .inl (.inr ((hmem a).mpr ⟨heager, not_holds_iff.mpr hs, holds_iff.mpr ⟨d, hd⟩⟩))
    | some e =>
        obtain ⟨d', hd', hb⟩ := hg.documents hs
        cases hd.symm.trans hd'
        exact (h.tended heager hs).imp .inl fun ⟨r, hr⟩ => ⟨r, hb.imports_result hr⟩

theorem Tended.resolved {text : String} {r : Except AnalysisError Unit} (h : s.Tended parked)
    (hr : s.Resolved a text (r, t)) : t.Tended parked :=
  h.enlists hr.enlists hr.grows

theorem Tended.join (h : s.Tended parked) : ({ s with queue := parked ++ s.queue } : Session).Tended [] :=
  ⟨h.held, h.idle, h.tended⟩

/-- A document whose imports have come to an end leaves the queue. -/
theorem Tended.finished {r : Except AnalysisError (List String)} (h : s.Tended (parked ++ [a]))
    (hr : (s.document? a).bind (·.imports.result?) = some r) : s.Tended parked := by
  obtain ⟨e, he, hres⟩ := Option.bind_eq_some_iff.mp hr
  refine ⟨fun b hb => h.held b ?_, fun hlazy => absurd (h.idle hlazy) (by simp), fun heager b d hd => ?_⟩
  · simp only [List.mem_append] at hb ⊢
    tauto
  · rcases h.tended heager hd with hb | hb
    · by_cases hba : b = a
      · subst hba
        cases he.symm.trans hd
        exact .inr ⟨r, hres⟩
      · simp only [List.mem_append, List.mem_singleton, hba, or_false] at hb ⊢
        exact .inl hb
    · exact .inr hb

/-! ## Draining the queue -/

theorem drain_cons (n : Nat) (hq : s.queue = a :: rest) : drain (n + 1) parked s =
    match ({ s with queue := rest } : Session).pollImports a with
    | (some _, t) => drain n parked t
    | (none, t) => drain n (parked ++ [a]) t := by
  obtain ⟨⟩ := s
  cases hq
  rfl

theorem drain_tended (n : Nat) (hs : s.Coherent) (h : s.Tended parked) : (drain n parked s).Tended [] := by
  induction n generalizing parked s with
  | zero => exact h.join
  | succ n ih =>
      cases hq : s.queue with
      | nil =>
          have hp := h.join
          rw [hq, List.append_nil] at hp
          rw [drain, hq]
          exact hp
      | cons a rest =>
          have hp : Polls (fun _ => True) s { s with queue := rest } := .single .queue
          have hi := pollImports_imported (fun _ => True) (hs.polls hp) a
          have he := enlists_pollImports { s with queue := rest } a
          have hg := hi.polls.changes.grows
          have hs' := (hs.polls hp).polls hi.polls
          have hresult := hi.result
          rw [drain_cons n hq]
          have hback : ({ s with queue := rest } : Session).Tended (parked ++ [a]) := by
            refine ⟨fun b hb => h.held b ?_, fun hlazy => ?_, fun heager b d hd => ?_⟩
            · simpa [hq] using hb
            · simpa [hq] using h.idle hlazy
            · simpa [hq] using h.tended heager hd
          have hback' := hback.enlists he hg
          generalize ({ s with queue := rest } : Session).pollImports a = p at hresult hs' hback'
          obtain ⟨r, t⟩ := p
          match r with
          | none => exact ih hs' hback'
          | some r => exact ih hs' (hback'.finished hresult.symm)

/-- Whether the imports of a document were polled on the way from one session to another, without a result. -/
def Parked (s t : Session) (a : String) : Prop :=
  ∃ u, Polls (fun _ => True) s u ∧ u.holds a = true ∧ (u.pollImports a).1 = none ∧
    Polls (fun _ => True) (u.pollImports a).2 t

theorem Parked.after (h : Parked t u a) (hp : Polls (fun _ => True) s t) : Parked s u a := by
  obtain ⟨v, hv, h⟩ := h
  exact ⟨v, hp.trans hv, h⟩

/-- Where there are as many steps as there is work, nothing is left in the queue but what waits. -/
theorem drain_parked (n : Nat) (hs : s.Coherent) (hV : s.Stocked V) (hheld : ∀ a ∈ s.queue, s.holds a = true)
    (hn : s.queue.length + s.room V < n) :
    ∀ a ∈ (drain n parked s).queue, a ∈ parked ∨ Parked s (drain n parked s) a := by
  induction n generalizing parked s with
  | zero => exact absurd hn (Nat.not_lt_zero _)
  | succ n ih =>
      cases hq : s.queue with
      | nil =>
          rw [drain, hq]
          exact fun a ha => .inl ha
      | cons a rest =>
          have hp : Polls (fun _ => True) s { s with queue := rest } := .single .queue
          have hi := (pollImports_imported (fun _ => True) (hs.polls hp) a).polls
          have he := enlists_pollImports { s with queue := rest } a
          have ha : s.holds a = true := hheld a (by simp [hq])
          have hlen := he.length_add_room hi.changes (hV.steady hp.changes.steady)
          have hparked {t : Session}
              (ht : Polls (fun _ => True) (({ s with queue := rest } : Session).pollImports a).2 t)
              (hnone : (({ s with queue := rest } : Session).pollImports a).1 = none) : Parked s t a :=
            ⟨_, hp, ha, hnone, ht⟩
          rw [drain_cons n hq]
          generalize ({ s with queue := rest } : Session).pollImports a = p at hi he hlen hparked
          obtain ⟨r, t⟩ := p
          have hpt : Polls (fun _ => True) s t := hp.trans hi
          have ht := hs.polls hpt
          have hheld' : ∀ b ∈ [] ++ t.queue, t.holds b = true :=
            he.held fun b hb => hheld b (hq ▸ List.mem_cons_of_mem a hb)
          have hn' : t.queue.length + t.room V < n := by
            have hroom : ({ s with queue := rest } : Session).room V = s.room V := rfl
            rw [hq, List.length_cons] at hn
            dsimp only at hlen
            omega
          have hrest (parked : List String) :
              ∀ b ∈ (drain n parked t).queue, b ∈ parked ∨ Parked t (drain n parked t) b :=
            ih ht (hV.steady hpt.changes.steady) hheld' hn'
          intro b hb
          match r with
          | some r => exact (hrest parked b hb).imp_right (·.after hpt)
          | none =>
              rcases hrest (parked ++ [a]) b hb with hb | hb
              · rcases List.mem_append.mp hb with hb | hb
                · exact .inl hb
                · obtain rfl := List.mem_singleton.mp hb
                  exact .inr (hparked (drain_polls _ n _ ht) rfl)
              · exact .inr (hb.after hpt)

/-! ## Documents that wait -/

theorem Parked.begun {d : Document} (h : Parked s t a) (hs : s.Coherent) (hl : s.extractor.loader?.isSome = true)
    (hd : t.document? a = some d) : d.imports ≠ .idle := by
  obtain ⟨u, hu, ha, _, ht⟩ := h
  have hi := pollImports_imported (fun _ => True) (hs.polls hu) a
  obtain ⟨e, he⟩ := holds_iff.mp (hi.polls.changes.grows.holds ha)
  obtain ⟨d', hd', hb⟩ := ht.changes.grows.documents he
  cases hd.symm.trans hd'
  exact fun hidle => hi.begun (hu.changes.steady.loader ▸ hl) he (hb.imports.eq_idle hidle)

/-- A document that waits for nothing later than the present is not parked. -/
theorem Parked.not_ripe {d : Document} (h : Parked s t a) (hl : s.extractor.loader?.isSome = true)
    (hd : s.document? a = some d) : ¬s.WalkRipe s.clock d := by
  obtain ⟨u, hu, _, hnone, _⟩ := h
  intro hripe
  obtain ⟨loader, hloader⟩ := Option.isSome_iff_exists.mp hl
  obtain ⟨e, he, hb⟩ := hu.changes.grows.documents hd
  obtain ⟨r, hr⟩ := pollImports_ripe (hu.changes.steady.loader.trans hloader) he
    (hu.clock.symm ▸ hripe.grows hu.changes.grows hb)
  cases hnone.symm.trans hr

/-! ## The queue in time -/

theorem clock_runTo (deadline n : Nat) (s : Session) : (runTo deadline n s).clock = deadline := by
  induction n generalizing s with
  | zero => rfl
  | succ n ih =>
      unfold runTo
      split
      next => split <;> [exact ih _; rfl]
      next => rfl

theorem Tended.work (h : s.Tended []) (hs : s.Coherent) : s.work.Tended [] :=
  drain_tended _ hs h

theorem tended_upkeep : Upkeep fun s => s.Coherent ∧ s.Tended [] where
  coherent h := h.1
  worked h := ⟨work_coherent h.1, h.2.work h.1⟩
  advanced ht h := ⟨h.1.change (A := fun _ => True) (.advance ht), ⟨h.2.held, h.2.idle, h.2.tended⟩⟩

theorem Tended.pollGoal (h : s.Tended []) (hs : s.Coherent) (goal : Goal) : (s.pollGoal goal).2.Tended [] :=
  h.enlists (enlists_pollGoal s goal) (pollGoal_anywhere hs goal).polls.changes.grows

theorem Tended.await (h : s.Tended []) (hs : s.Coherent) (goal : Goal) : (s.await goal).2.Tended [] :=
  (tended_upkeep.await_keeps
    (fun h => ⟨h.1.polls (pollGoal_anywhere h.1 goal).polls, h.2.pollGoal h.1 goal⟩) ⟨hs, h⟩).2

/-! ## Rounds of background work -/

/-- A session with a loader, all of whose texts are for addresses of a list, and with a queue in order. -/
structure Supplied (V : List String) (s : Session) : Prop where
  coherent : s.Coherent
  loader : s.extractor.loader?.isSome = true
  stocked : s.Stocked V
  extent : V.length ≤ s.extent
  tended : s.Tended []

theorem Supplied.steady (h : s.Supplied V) (hst : s.Steady t) (hc : t.Coherent) (ht : t.Tended []) : t.Supplied V where
  coherent := hc
  loader := hst.loader ▸ h.loader
  stocked := h.stocked.steady hst
  extent := hst.extent ▸ h.extent
  tended := ht

theorem Supplied.changes (h : s.Supplied V) (hc : Changes A s t) (ht : t.Tended []) : t.Supplied V :=
  h.steady hc.steady (h.coherent.changes hc) ht

theorem Supplied.resolved {text : String} {r : Except AnalysisError Unit} (h : s.Supplied V)
    (hr : s.Resolved a text (r, t)) : t.Supplied V :=
  h.steady hr.steady (hr.coherent h.coherent) (h.tended.resolved hr)

theorem Supplied.insert (h : s.Supplied V) (a text : String) : (s.insert a text).Supplied (a :: V) := by
  obtain ⟨loader, hl⟩ := Option.isSome_iff_exists.mp h.loader
  have hl' : (s.insert a text).extractor.loader? = some (loader.insert a text) := by simp [Session.insert, hl]
  refine ⟨h.coherent.retains (retains_serve s (·.insert a text)), by simp [hl'], fun b text' hb => ?_, ?_, ?_⟩
  · obtain ⟨_, hloader, hb⟩ := hb
    cases hl'.symm.trans hloader
    exact List.mem_cons.mpr ((Loader.answer_insert hb).imp_right fun hb => h.stocked b text' ⟨loader, hl, hb⟩)
  · have := h.extent
    rw [Session.extent, hl] at this
    rw [Session.extent, hl']
    exact Nat.succ_le_succ this
  · exact ⟨h.tended.held, h.tended.idle, h.tended.tended⟩

theorem Supplied.drop (h : s.Supplied V) : s.drop.Supplied V where
  coherent := h.coherent.retains (retains_drop s)
  loader := h.loader
  stocked := h.stocked
  extent := h.extent
  tended := ⟨h.tended.held, h.tended.idle, h.tended.tended⟩

theorem Supplied.work (h : s.Supplied V) : s.work.Supplied V :=
  h.changes (work_polls (fun _ => True) h.coherent).changes (h.tended.work h.coherent)

theorem Supplied.sleep (h : s.Supplied V) (time : Nat) : (s.sleep time).Supplied V :=
  h.changes (sleep_changes (fun _ => True) h.coherent time) (tended_upkeep.sleep time ⟨h.coherent, h.tended⟩).2

/-- All background work that can be done at a time is done at once: what is left in the queue waits. -/
theorem Supplied.work_parked (h : s.Supplied V) : ∀ a ∈ s.work.queue, Parked s s.work a := by
  have hroom : s.room V ≤ V.length := List.countP_le_length
  have hlen := h.extent
  exact fun a ha => (drain_parked _ h.coherent h.stocked h.tended.held (by omega) a ha).resolve_left List.not_mem_nil

/-- After a round of work, no document waits for a response that is expected after the horizon. -/
theorem Supplied.ripe {d : Document} (h : s.Supplied V) (he : s.work.eager = true) (hd : s.work.document? a = some d) :
    s.work.WalkRipe s.work.horizon d := by
  rcases h.work.tended.tended he hd with ha | ⟨r, hr⟩
  · exact walkRipe_of_begun h.work.coherent hd ((h.work_parked a ha).begun h.coherent h.loader hd)
  · unfold WalkRipe
    rw [imports_eq_done hr]
    trivial

/-- One round later, whatever still waits has been read meanwhile. -/
theorem Supplied.parked_new (h : s.Supplied V) (hp : Parked (s.work.sleep (s.work.horizon - s.work.clock)) t a)
    (he : s.work.eager = true) : s.work.holds a = false := by
  have hc := sleep_changes (fun _ => True) h.work.coherent (s.work.horizon - s.work.clock)
  have hclock : (s.work.sleep (s.work.horizon - s.work.clock)).clock = s.work.horizon := by
    rw [Session.sleep, clock_runTo, Nat.add_sub_cancel' (clock_le_horizon _)]
  refine Bool.eq_false_iff.mpr fun ha => ?_
  obtain ⟨d, hd⟩ := holds_iff.mp ha
  obtain ⟨e, he', hb⟩ := hc.grows.documents hd
  refine hp.not_ripe (hc.steady.loader ▸ h.work.loader) he' ?_
  rw [hclock]
  exact (h.ripe he hd).grows hc.grows hb

theorem Supplied.room_lt (h : s.Supplied V) (hq : (s.work.sleep (s.work.horizon - s.work.clock)).work.queue ≠ []) :
    (s.work.sleep (s.work.horizon - s.work.clock)).work.room V < s.work.room V := by
  have ht := h.work.sleep (s.work.horizon - s.work.clock)
  have hc : Changes (fun _ => True) s.work (s.work.sleep (s.work.horizon - s.work.clock)).work :=
    (sleep_changes _ h.work.coherent _).trans (work_polls _ ht.coherent).changes
  obtain ⟨a, ha⟩ := List.exists_mem_of_ne_nil _ hq
  have heager : s.work.eager = true := by
    cases he : s.work.eager with
    | true => rfl
    | false => exact absurd (ht.work.tended.idle (hc.steady.eager.trans he)) hq
  have hnew := h.parked_new (ht.work_parked a ha) heager
  have hheld := ht.work.tended.held a ha
  obtain ⟨d, hd⟩ := holds_iff.mp hheld
  obtain ⟨text, htext, _⟩ := hc.registered (not_holds_iff.mp hnew) hd
  have hread : a ∈ V.filter fun b => !s.work.holds b && (s.work.sleep (s.work.horizon - s.work.clock)).work.holds b :=
    List.mem_filter.mpr ⟨h.work.stocked a text htext, by simp [hnew, hheld]⟩
  have := room_split V hc.grows.holds
  have := List.length_pos_of_mem hread
  omega

theorem Supplied.idleFor {n : Nat} (h : s.Supplied V) (hn : s.work.queue = [] ∨ s.work.room V < n) :
    (idleFor n s).queue = [] := by
  induction n generalizing s with
  | zero => exact hn.resolve_right (Nat.not_lt_zero _)
  | succ n ih =>
      simp only [Session.idleFor]
      split
      next hq => exact List.isEmpty_iff.mp hq
      next hq =>
        have hlt := hn.resolve_left fun hnil => hq (List.isEmpty_iff.mpr hnil)
        refine ih (h.work.sleep _) (Classical.or_iff_not_imp_left.mpr fun hne => ?_)
        have := h.room_lt hne
        omega

/-- The background work runs out: nothing is left in the queue, and the imports of every document have come to an end
where documents are worked on before anything asks for them. -/
theorem Supplied.idle (h : s.Supplied V) : s.idle.queue = [] ∧
    (s.eager = true → ∀ {a d}, s.idle.document? a = some d → ∃ r, d.imports.result? = some r) := by
  have hroom : s.work.room V ≤ V.length := List.countP_le_length
  have hextent := h.extent
  have hempty : s.idle.queue = [] := h.idleFor (.inr (by omega))
  refine ⟨hempty, fun he a d hd => ?_⟩
  have ht : s.idle.Tended [] := (tended_upkeep.idle ⟨h.coherent, h.tended⟩).2
  have he' : s.idle.eager = true := (idle_changes (fun _ => True) h.coherent).steady.eager.trans he
  exact (ht.tended he' hd).resolve_left (by rw [hempty]; exact List.not_mem_nil)

end ImportTree.Session
