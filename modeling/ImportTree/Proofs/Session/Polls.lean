import ImportTree.Proofs.Session.Change

/-!
# Work as changes

The work on imports, in the background and in the foreground, is made of changes of the session; and what it
answers is what is known of the document afterwards.
-/

namespace ImportTree.Session

variable {A : String → Prop} {s t : Session} {a b : String} {d : Document}

/-! ## Fetches in order -/

theorem Poll.holds_or_begun (h : Poll A s t) (hs : s.holds b = false ∨ (s.fetches.lookup b).isSome = true) :
    t.holds b = false ∨ (t.fetches.lookup b).isSome = true := by
  rcases hs with hs | hs
  · cases h with
    | @fetch a _ =>
        have hf := pollFetch_fetching s a
        by_cases hb : b = a
        · exact .inr (hb ▸ hf.begun)
        · exact .inl (by rw [holds, hf.document? hb]; exact hs)
    | extract => exact .inl (by rw [holds_pollMetadata]; exact hs)
    | note _ _ _ => exact .inl (by rw [holds_setImports]; exact hs)
    | queue => exact .inl hs
  · exact .inr (h.grows.begun hs)

theorem Links.grows (h : s.Links a) (hg : s.Grows t) : t.Links a := by
  obtain ⟨b, d, targets, hd, ht, ha⟩ := h
  obtain ⟨e, he, hde⟩ := hg.documents hd
  exact ⟨b, e, targets, he, hde.targets.trans ht, ha⟩

theorem Wanted.grows (h : s.Wanted A a) (hg : s.Grows t) : t.Wanted A a :=
  h.imp_right (·.grows hg)

theorem Fetchable.poll (h : s.Fetchable A b) (hp : Poll A s t) : t.Fetchable A b :=
  ⟨h.wanted.grows hp.grows, hp.holds_or_begun h.absent⟩

/-- The result of two polls, where a failure of the first is held back. -/
def meet : Option (Except AnalysisError Unit) → Option (Except AnalysisError Unit) → Option (Except AnalysisError Unit)
  | _, some (.error e) => some (.error e)
  | some (.ok ()), some (.ok ()) => some (.ok ())
  | _, _ => none

/-- What polls of fetches in order do. -/
inductive FetchesPolled : Session → List String → Option (Except AnalysisError Unit) × Session → Prop where
  | nil {s : Session} : FetchesPolled s [] (some (.ok ()), s)
  | failed {s t : Session} {a : String} {l e} : s.Fetching a (some (.error e), t) → (s.pollFetch a).2 = t →
      FetchesPolled s (a :: l) (some (.error e), t)
  | cons {s t u : Session} {a : String} {l r r'} : s.Fetching a (r, t) → (s.pollFetch a).2 = t →
      FetchesPolled t l (r', u) → FetchesPolled s (a :: l) (meet r r', u)

theorem pollFetches_cases (s : Session) (count pending : Nat) (l : List String) :
    FetchesPolled s l (s.pollFetches count pending l) := by
  induction l generalizing s pending with
  | nil => exact .nil
  | cons a l ih =>
      have hf := pollFetch_cases s a
      unfold pollFetches
      cases hp : s.pollFetch a with
      | mk r t =>
          rw [hp] at hf
          have ht : (s.pollFetch a).2 = t := by rw [hp]
          have hnext (pending : Nat) := FetchesPolled.cons hf ht (ih t pending)
          match r with
          | some (.ok ()) =>
              have hl := hnext pending
              simp only [Joining.report]
              generalize t.pollFetches count pending l = q at hl ⊢
              rcases q with ⟨_ | (_ | _), u⟩ <;> exact hl
          | some (.error e) =>
              have hl := hnext (pending + 1)
              cases hj : t.extractor.joining.reports count pending with
              | true =>
                  simp only [Joining.report, hj, if_true]
                  exact .failed hf ht
              | false =>
                  simp only [Joining.report, hj, Bool.false_eq_true, if_false]
                  generalize t.pollFetches count (pending + 1) l = q at hl ⊢
                  rcases q with ⟨_ | (_ | _), u⟩ <;> exact hl
          | none =>
              have hl := hnext (pending + 1)
              simp only [Joining.report]
              generalize t.pollFetches count (pending + 1) l = q at hl ⊢
              rcases q with ⟨_ | (_ | _), u⟩ <;> exact hl

variable {l : List String} {r : Option (Except AnalysisError Unit)}

theorem FetchesPolled.polls (hp : FetchesPolled s l (r, t)) (h : ∀ a ∈ l, s.Fetchable A a) : Polls A s t := by
  generalize hr : (r, t) = p at hp
  induction hp generalizing r with
  | nil => cases hr; exact .refl
  | failed _ ht =>
      cases hr
      exact .single (ht ▸ .fetch (h _ (List.mem_cons_self ..)))
  | @cons s u _ a l _ _ _ hu _ ih =>
      cases hr
      have hpoll : Poll A s u := hu ▸ .fetch (h a (List.mem_cons_self ..))
      exact .head hpoll (ih (fun b hb => (h b (List.mem_cons_of_mem _ hb)).poll hpoll) rfl)

theorem FetchesPolled.grows (hp : FetchesPolled s l (r, t)) : s.Grows t := by
  generalize hr : (r, t) = p at hp
  induction hp generalizing r with
  | nil => cases hr; exact .refl _
  | failed hf _ => cases hr; exact hf.grows
  | cons hf _ _ ih => cases hr; exact hf.grows.trans (ih rfl)

/-- Documents that are there are untouched by polls of fetches. -/
theorem FetchesPolled.document?_some (hp : FetchesPolled s l (r, t)) (hd : s.document? b = some d) :
    t.document? b = some d := by
  generalize hr : (r, t) = p at hp
  induction hp generalizing r with
  | nil => cases hr; exact hd
  | failed hf _ => cases hr; exact hf.document?_some hd
  | cons hf _ _ ih => cases hr; exact ih (hf.document?_some hd) rfl

theorem fetched?_begun {r : Except AnalysisError Unit} (h : s.fetched? a = some r) :
    (s.fetches.lookup a).isSome = true := by
  rw [fetched?_eq_some] at h
  simp [h]

/-- What polls of fetches in order have found. -/
def Found (s : Session) (l : List String) : Option (Except AnalysisError Unit) → Prop
  | some (.ok ()) => ∀ a ∈ l, s.fetched? a = some (.ok ())
  | some (.error e) => ∃ a ∈ l, s.fetched? a = some (.error e)
  | none => ∀ a ∈ l, (s.fetches.lookup a).isSome = true

theorem Found.begun (h : s.Found l r) (hr : ∀ e, r ≠ some (.error e)) :
    ∀ a ∈ l, (s.fetches.lookup a).isSome = true := by
  match r with
  | some (.error e) => exact absurd rfl (hr e)
  | some (.ok ()) => exact fun a ha => fetched?_begun (h a ha)
  | none => exact h

theorem FetchesPolled.found (hp : FetchesPolled s l (r, t)) : t.Found l r := by
  generalize hr : (r, t) = p at hp
  induction hp generalizing r with
  | nil => cases hr; intro a ha; cases ha
  | failed hf _ => cases hr; exact ⟨_, List.mem_cons_self .., hf.result.symm⟩
  | @cons s u v a l r₁ r₂ hf _ hrest ih =>
      cases hr
      have hl := ih rfl
      have hbegun := hrest.grows.begun hf.begun
      match r₁, r₂ with
      | some (.ok ()), some (.ok ()) =>
          exact List.forall_mem_cons.mpr ⟨hrest.grows.fetched hf.result.symm, hl⟩
      | some (.ok ()), some (.error e) | some (.error _), some (.error e) | none, some (.error e) =>
          exact hl.imp fun b hb => ⟨List.mem_cons_of_mem _ hb.1, hb.2⟩
      | some (.error _), some (.ok ()) | none, some (.ok ()) =>
          exact List.forall_mem_cons.mpr ⟨hbegun, hl.begun (by simp)⟩
      | some (.ok ()), none | some (.error _), none | none, none =>
          exact List.forall_mem_cons.mpr ⟨hbegun, hl⟩

/-! ## Imports -/

/-- What a poll of the imports of a document does: it answers what is known of them afterwards. -/
structure Imported (A : String → Prop) (s : Session) (a : String)
    (p : Option (Except AnalysisError (List String)) × Session) : Prop where
  polls : Polls A s p.2
  result : p.1 = (p.2.document? a).bind (·.imports.result?)
  begun : s.extractor.loader?.isSome = true → ∀ {d}, p.2.document? a = some d → d.imports ≠ .idle

theorem Imported.after {p : Option (Except AnalysisError (List String)) × Session} (ht : Polls A s t)
    (h : Imported A t a p) : Imported A s a p :=
  ⟨ht.trans h.polls, h.result, fun hl => h.begun (ht.changes.steady.loader ▸ hl)⟩

theorem imported_endWalk {r : Except AnalysisError (List String)} (hd : s.document? a = some d)
    (hb : d.imports.Before (.done r)) (hw : s.Allows d (.done r)) : Imported A s a (s.endWalk a r) where
  polls := .single (.note hd hb hw)
  result := by simp [endWalk, document?_setImports, hd, ImportWalk.result?]
  begun _ {e} he := by
    simp only [endWalk, document?_setImports, if_pos, hd, Option.map_some, Option.some.injEq] at he
    subst he
    simp

theorem imported_wait {targets awaited : List String} (hd : s.document? a = some d)
    (hb : d.imports.Before (.waiting targets awaited)) (hw : s.Awaits d targets awaited) :
    Imported A s a (none, s.setImports a (.waiting targets awaited)) where
  polls := .single (.note hd hb hw)
  result := by simp [document?_setImports, hd, ImportWalk.result?]
  begun _ {e} he := by
    simp only [document?_setImports, if_pos, hd, Option.map_some, Option.some.injEq] at he
    subst he
    simp

/-- A document whose imports are walked, or are about to be. -/
structure Walking (A : String → Prop) (s : Session) (d : Document) (targets awaited : List String) : Prop where
  loader : s.extractor.loader?.isSome = true
  resolved : d.targets = .ok targets
  among : ∀ b ∈ awaited, b ∈ targets
  present : ∀ b ∈ targets, b ∈ awaited ∨ s.holds b = true
  fetchable : ∀ b ∈ awaited, s.Fetchable A b
  stage : d.imports = .idle ∨ d.imports = .waiting targets awaited

theorem Walking.before_done {targets awaited : List String} (h : s.Walking A d targets awaited)
    (r : Except AnalysisError (List String)) : d.imports.Before (.done r) := by
  rcases h.stage with hi | hi
  · exact hi ▸ .idle
  · exact hi ▸ .done

theorem Walking.before_waiting {targets awaited : List String} (h : s.Walking A d targets awaited) :
    d.imports.Before (.waiting targets awaited) := by
  rcases h.stage with hi | hi
  · exact hi ▸ .idle
  · exact hi ▸ .same

theorem Walking.polls {targets awaited : List String} (h : s.Walking A d targets awaited) (hp : Polls A s t) :
    t.Walking A d targets awaited where
  loader := hp.changes.steady.loader ▸ h.loader
  resolved := h.resolved
  among := h.among
  present b hb := (h.present b hb).imp_right hp.changes.grows.holds
  fetchable b hb := by
    have := h.fetchable b hb
    induction hp with
    | refl => exact this
    | tail _ hp ih => exact ih.poll hp
  stage := h.stage

/-- A document whose extraction has been polled. -/
theorem begun_pollMetadata (h : s.document? a = some d) :
    ∃ e, (s.pollMetadata a).2.document? a = some e ∧ e.imports = d.imports ∧ d.Before e ∧
      e.extraction.result? = (s.pollMetadata a).1 ∧ ∃ time, e.extraction.Ripe time := by
  have he : (s.pollMetadata a).2.document? a =
      some { d with extraction := (d.extraction.poll s.extractor a).1 } := by
    rw [document?_pollMetadata, if_pos rfl, h]; rfl
  refine ⟨_, he, rfl, before_poll d .., ?_, (Extraction.poll_cases s.extractor a d.extraction).begun⟩
  rw [pollMetadata_some h]

theorem pollWalk_imported {targets awaited : List String} (hs : s.Coherent) (hd : s.document? a = some d)
    (hw : s.Walking A d targets awaited) : Imported A s a (s.pollWalk a targets awaited) := by
  obtain ⟨e, he, hi, hde, hr, hripe⟩ := begun_pollMetadata hd
  have hp : Polls A s (s.pollMetadata a).2 := .single .extract
  have hs' := hs.polls hp
  have hw' : (s.pollMetadata a).2.Walking A e targets awaited := by
    have := hw.polls hp
    exact ⟨this.loader, hde.targets.trans this.resolved, this.among, this.present, this.fetchable, hi ▸ this.stage⟩
  unfold pollWalk
  cases hc : s.pollMetadata a with
  | mk declared t =>
      rw [hc] at he hr hp hw' hs'
      refine .after hp ?_
      have hf := pollFetches_cases t targets.length 0 awaited
      cases hq : t.pollFetches targets.length 0 awaited with
      | mk fetched u =>
          rw [hq] at hf
          have hp' : Polls A t u := hf.polls hw'.fetchable
          have he' := hf.document?_some he
          have hfound := hf.found
          have hs'' := hs'.polls hp'
          have hw'' := hw'.polls hp'
          have wait (hne : ∀ err, fetched ≠ some (.error err)) :
              Imported A t a (none, u.setImports a (.waiting targets awaited)) :=
            .after hp' (imported_wait he' hw''.before_waiting
              ⟨hw''.loader, hw''.resolved, hw''.among, hw''.present, hfound.begun hne, hripe⟩)
          have fail {err} (hfe : fetched = some (.error err)) : Imported A t a (u.endWalk a (.error err)) := by
            subst hfe
            obtain ⟨b, hb, hbe⟩ := hfound
            exact .after hp'
              (imported_endWalk he' (hw''.before_done _) (.unfetched hw''.resolved (hw''.among b hb) hbe))
          match declared, fetched with
          | some (.error err), _ => exact imported_endWalk he (hw'.before_done _) (.undeclared hr)
          | none, some (.error err) => simp only [hq]; exact fail rfl
          | some (.ok m), some (.error err) => simp only [hq]; exact fail rfl
          | none, some (.ok ()) => simp only [hq]; exact wait (by simp)
          | none, none => simp only [hq]; exact wait (by simp)
          | some (.ok m), none => simp only [hq]; exact wait (by simp)
          | some (.ok m), some (.ok ()) =>
              simp only [hq]
              refine .after hp' (imported_endWalk he' (hw''.before_done _) ⟨?_, fun b hb => ?_, m, hr⟩)
              · rw [imported, if_pos hw''.loader]; exact hw''.resolved
              · exact (hw''.present b hb).elim (fun h => hs''.fetched (hfound b h)) id

theorem beginWalk_imported (hs : s.Coherent) (hd : s.document? a = some d) (hi : d.imports = .idle) :
    Imported A s a (s.beginWalk d) := by
  have ha := document?_address hd
  unfold beginWalk
  cases hl : s.extractor.loader? with
  | none =>
      obtain ⟨e, he, hie, hde, hr, _⟩ := begun_pollMetadata hd
      have hp : Polls A s (s.pollMetadata a).2 := .single .extract
      have hb (r : Except AnalysisError (List String)) : e.imports.Before (.done r) := by rw [hie, hi]; exact .idle
      simp only [ha]
      cases hc : s.pollMetadata a with
      | mk declared t =>
          rw [hc] at he hr hp
          match declared with
          | none => exact ⟨hp, by simp [he, hie, hi, ImportWalk.result?], fun h => by rw [hl] at h; cases h⟩
          | some (.error err) => exact .after hp (imported_endWalk he (hb _) (.undeclared hr))
          | some (.ok m) =>
              refine .after hp (imported_endWalk he (hb _) ⟨?_, by simp, m, hr⟩)
              rw [imported, hp.changes.steady.loader, hl]; rfl
  | some loader =>
      simp only [ha]
      have hb (r : Except AnalysisError (List String)) : d.imports.Before (.done r) := by rw [hi]; exact .idle
      have hsome : s.extractor.loader?.isSome = true := by rw [hl]; rfl
      cases ht : d.targets with
      | error e =>
          refine imported_endWalk hd (hb _) (.unresolvable ?_)
          rw [imported, if_pos hsome]; exact ht
      | ok targets =>
          simp only
          split
          next hdrop => exact imported_endWalk hd (hb _) (ha ▸ .detached hdrop)
          next =>
            refine pollWalk_imported hs hd ⟨hsome, ht, fun b hb => (List.mem_filter.mp hb).1, fun b hb => ?_,
              fun b hb => ⟨.inr ⟨a, d, targets, hd, ht, (List.mem_filter.mp hb).1⟩, .inl ?_⟩, .inl hi⟩
            · by_cases hh : s.holds b = true
              · exact .inr hh
              · exact .inl (List.mem_filter.mpr ⟨hb, by simpa using hh⟩)
            · simpa using (List.mem_filter.mp hb).2

theorem pollImports_imported (A : String → Prop) (hs : s.Coherent) (a : String) : Imported A s a (s.pollImports a) := by
  unfold pollImports
  cases hd : s.document? a with
  | none => exact ⟨.refl, by simp [hd], fun _ {e} he => by rw [hd] at he; cases he⟩
  | some d =>
      have hw := hs.allowed hd
      cases hi : d.imports with
      | done r =>
          simp only [hi]
          refine ⟨.refl, by simp [hd, hi, ImportWalk.result?], fun _ {e} he => ?_⟩
          cases hd.symm.trans he
          simp [hi]
      | idle => simp only [hi]; exact beginWalk_imported hs hd hi
      | waiting targets awaited =>
          rw [hi] at hw
          simp only [hi]
          exact pollWalk_imported hs hd ⟨hw.loader, hw.resolved, hw.among, hw.present,
            fun b hb => ⟨.inr ⟨a, d, targets, hd, hw.resolved, hw.among b hb⟩, .inr (hw.begun b hb)⟩, .inr hi⟩

/-! ## Goals -/

/-- What a session knows of a goal. -/
inductive Reached (s : Session) : Goal → Except AnalysisError Unit → Prop where
  | loaded {a : String} : s.holds a = true → Reached s (.load a) (.ok ())
  | unloaded {a : String} {e} : s.fetched? a = some (.error e) → Reached s (.load a) (.error e)
  | declared {a : String} {d : Document} {m} : s.document? a = some d → d.extraction.result? = some (.ok m) →
      Reached s (.metadata a) (.ok ())
  | undeclared {a : String} {d : Document} {e} : s.document? a = some d → d.extraction.result? = some (.error e) →
      Reached s (.metadata a) (.error e)
  | imported {a : String} {d : Document} {targets} : s.document? a = some d → d.imports.result? = some (.ok targets) →
      Reached s (.imports a) (.ok ())
  | unimported {a : String} {d : Document} {e} : s.document? a = some d → d.imports.result? = some (.error e) →
      Reached s (.imports a) (.error e)
  | both {a : String} {d : Document} {m targets} : s.document? a = some d → d.extraction.result? = some (.ok m) →
      d.imports.result? = some (.ok targets) → Reached s (.both a) (.ok ())
  | bothUndeclared {a : String} {d : Document} {e} : s.document? a = some d →
      d.extraction.result? = some (.error e) → Reached s (.both a) (.error e)
  | bothUnimported {a : String} {d : Document} {e} : s.document? a = some d →
      d.imports.result? = some (.error e) → Reached s (.both a) (.error e)

/-- What a poll of a goal does. -/
structure Advanced (A : String → Prop) (s : Session) (goal : Goal) (p : Option (Except AnalysisError Unit) × Session) :
    Prop where
  polls : Polls A s p.2
  reached : ∀ {r}, p.1 = some r → p.2.Reached goal r

theorem pollLoad_advanced (hs : s.Coherent) (ha : s.Wanted A a) : Advanced A s (.load a) (s.pollLoad a) := by
  unfold pollLoad
  split
  next h => exact ⟨.refl, fun hr => by cases hr; exact .loaded h⟩
  next h =>
    have hf := pollFetch_fetching s a
    have hp : Polls A s (s.pollFetch a).2 := .single (.fetch ⟨ha, .inl (by simpa using h)⟩)
    refine ⟨hp, fun {r} hr => ?_⟩
    have hk := hf.result.symm.trans hr
    match r with
    | .error e => exact .unloaded hk
    | .ok () => exact .loaded ((hs.polls hp).fetched hk)

theorem outcome_eq_some {α : Type} {r? : Option (Except AnalysisError α)} {r : Except AnalysisError Unit}
    (h : outcome r? = some r) : ∃ r', r? = some r' ∧ r = r'.map fun _ => () := by
  rcases r? with _ | (e | v)
  · cases h
  · cases h; exact ⟨_, rfl, rfl⟩
  · cases h; exact ⟨_, rfl, rfl⟩

theorem Reached.of_extraction {r : Except AnalysisError Metadata} (hd : s.document? a = some d)
    (hr : d.extraction.result? = some r) : s.Reached (.metadata a) (r.map fun _ => ()) := by
  cases r with
  | error e => exact .undeclared hd hr
  | ok m => exact .declared hd hr

theorem Reached.of_imports {r : Except AnalysisError (List String)} (hd : s.document? a = some d)
    (hr : d.imports.result? = some r) : s.Reached (.imports a) (r.map fun _ => ()) := by
  cases r with
  | error e => exact .unimported hd hr
  | ok targets => exact .imported hd hr

theorem pollBoth_advanced (hs : s.Coherent) (a : String) : Advanced A s (.both a) (s.pollGoal (.both a)) := by
  have hm := pollMetadata_result s a
  have hp : Polls A s (s.pollMetadata a).2 := .single .extract
  have hi := pollImports_imported A (hs.polls hp) a
  simp only [pollGoal]
  cases hc : s.pollMetadata a with
  | mk declared t =>
      rw [hc] at hm hp hi
      have hg := hi.polls.changes.grows
      cases hq : t.pollImports a with
      | mk imported u =>
          rw [hq] at hi hg
          match declared, imported with
          | some (.error e), _ =>
              obtain ⟨d, hd, he⟩ := Option.bind_eq_some_iff.mp hm.symm
              exact ⟨hp, fun hr => by cases hr; exact .bothUndeclared hd he⟩
          | none, some (.error e) =>
              obtain ⟨d, hd, he⟩ := Option.bind_eq_some_iff.mp hi.result.symm
              simp only [hq]
              exact ⟨hp.trans hi.polls, fun hr => by cases hr; exact .bothUnimported hd he⟩
          | some (.ok m), some (.error e) =>
              obtain ⟨d, hd, he⟩ := Option.bind_eq_some_iff.mp hi.result.symm
              simp only [hq]
              exact ⟨hp.trans hi.polls, fun hr => by cases hr; exact .bothUnimported hd he⟩
          | some (.ok m), some (.ok targets) =>
              obtain ⟨d, hd, he⟩ := Option.bind_eq_some_iff.mp hm.symm
              obtain ⟨e, he', hde⟩ := hg.documents hd
              obtain ⟨e', hd', hi'⟩ := Option.bind_eq_some_iff.mp hi.result.symm
              cases he'.symm.trans hd'
              simp only [hq]
              exact ⟨hp.trans hi.polls, fun hr => by cases hr; exact .both he' (hde.result he) hi'⟩
          | none, some (.ok targets) => simp only [hq]; exact ⟨hp.trans hi.polls, nofun⟩
          | none, none => simp only [hq]; exact ⟨hp.trans hi.polls, nofun⟩
          | some (.ok m), none => simp only [hq]; exact ⟨hp.trans hi.polls, nofun⟩

theorem pollGoal_advanced {goal : Goal} (hs : s.Coherent) (ha : ∀ a, goal = .load a → s.Wanted A a) :
    Advanced A s goal (s.pollGoal goal) := by
  cases goal with
  | load a => exact pollLoad_advanced hs (ha a rfl)
  | metadata a =>
      refine ⟨.single .extract, fun {r} hr => ?_⟩
      obtain ⟨r', hr', rfl⟩ := outcome_eq_some hr
      obtain ⟨d, hd, he⟩ := Option.bind_eq_some_iff.mp ((pollMetadata_result s a).symm.trans hr')
      exact .of_extraction hd he
  | imports a =>
      have hi := pollImports_imported A hs a
      refine ⟨hi.polls, fun {r} hr => ?_⟩
      obtain ⟨r', hr', rfl⟩ := outcome_eq_some hr
      obtain ⟨d, hd, he⟩ := Option.bind_eq_some_iff.mp (hi.result.symm.trans hr')
      exact .of_imports hd he
  | both a => exact pollBoth_advanced hs a

end ImportTree.Session
