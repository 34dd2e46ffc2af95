import ImportTree.Session.Schedule
import ImportTree.Proofs.Session.Extraction
import ImportTree.Proofs.Session.Table

/-!
# Growth of a session

A session only grows: what has been read, found or begun stays as it is, whatever happens later.
-/

namespace ImportTree

/-! ## Documents and fetches before and after -/

/-- An import walk that has come at least as far. -/
inductive ImportWalk.Before : ImportWalk → ImportWalk → Prop where
  | idle {w} : Before .idle w
  | same {w} : Before w w
  | done {targets awaited r} : Before (.waiting targets awaited) (.done r)

theorem ImportWalk.Before.trans {u v w : ImportWalk} (h₁ : u.Before v) (h₂ : v.Before w) : u.Before w := by
  cases h₁ with
  | idle => exact .idle
  | same => exact h₂
  | done =>
      cases h₂
      exact .done

theorem ImportWalk.Before.eq_idle {v w : ImportWalk} (h : v.Before w) (hw : w = .idle) : v = .idle := by
  cases h with
  | idle => rfl
  | same => exact hw
  | done => cases hw

theorem ImportWalk.Before.eq_done {v w : ImportWalk} {r : Except AnalysisError (List String)} (h : v.Before w)
    (hv : v = .done r) : w = .done r := by
  cases h with
  | idle => cases hv
  | same => exact hv
  | done => cases hv

/-- A document with the same markup of which at least as much is known. -/
structure Document.Before (d e : Document) : Prop where
  address : e.address = d.address
  markup : e.markup = d.markup
  extraction : ∀ r, d.extraction = .done r → e.extraction = .done r
  ripe : ∀ time, d.extraction.Ripe time → e.extraction.Ripe time
  failing : d.extraction.Failing → e.extraction.Failing
  imports : d.imports.Before e.imports

theorem Document.Before.refl (d : Document) : d.Before d :=
  ⟨rfl, rfl, fun _ h => h, fun _ h => h, id, .same⟩

theorem Document.Before.trans {d e f : Document} (h₁ : d.Before e) (h₂ : e.Before f) : d.Before f :=
  ⟨h₂.address.trans h₁.address, h₂.markup.trans h₁.markup, fun r h => h₂.extraction r (h₁.extraction r h),
    fun t h => h₂.ripe t (h₁.ripe t h), fun h => h₂.failing (h₁.failing h), h₁.imports.trans h₂.imports⟩

theorem mapM_eq_ok {α β : Type} {f : α → Except AnalysisError β} {l : List α} {l' : List β} :
    l.mapM f = .ok l' ↔ l.map f = l'.map .ok := by
  induction l generalizing l' with
  | nil => cases l' <;> simp [pure, Except.pure]
  | cons v l ih =>
      rw [List.mapM_cons, List.map_cons]
      cases hv : f v with
      | error e => cases l' <;> simp [bind, Except.bind]
      | ok v' =>
          cases l' with
          | nil => cases hl : l.mapM f <;> simp [bind, Except.bind, pure, Except.pure]
          | cons u' l' =>
              rw [List.map_cons, List.cons.injEq, ← ih]
              cases hl : l.mapM f <;> simp [bind, Except.bind, pure, Except.pure]

theorem mapM_error {α β : Type} {f : α → Except AnalysisError β} {l : List α} {e : AnalysisError}
    (h : l.mapM f = .error e) : ∃ v ∈ l, f v = .error e := by
  induction l with
  | nil => cases h
  | cons v l ih =>
      rw [List.mapM_cons] at h
      cases hv : f v with
      | error e' => rw [hv] at h; cases h; exact ⟨v, List.mem_cons_self .., hv⟩
      | ok v' =>
          cases hl : l.mapM f with
          | ok rest => rw [hv, hl] at h; cases h
          | error e' =>
              rw [hv, hl] at h
              cases h
              obtain ⟨u, hu, hf⟩ := ih hl
              exact ⟨u, List.mem_cons_of_mem _ hu, hf⟩

/-- The targets of a document are the addresses of its references, in order. -/
theorem Document.targets_eq_ok {d : Document} {targets : List String} :
    d.targets = .ok targets ↔ (references d.markup).map (Address.resolve d.address) = targets.map .ok :=
  mapM_eq_ok

theorem Document.Before.targets {d e : Document} (h : d.Before e) : e.targets = d.targets := by
  rw [Document.targets, Document.targets, h.address, h.markup]

theorem Document.Before.result {d e : Document} (h : d.Before e) {r : Except AnalysisError Metadata}
    (hr : d.extraction.result? = some r) : e.extraction.result? = some r := by
  cases hd : d.extraction with
  | running tasks => rw [hd] at hr; cases hr
  | done r' =>
      rw [hd] at hr
      cases hr
      rw [h.extraction _ hd]; rfl

theorem Document.Before.imports_result {d e : Document} (h : d.Before e) {r : Except AnalysisError (List String)}
    (hr : d.imports.result? = some r) : e.imports.result? = some r := by
  cases hd : d.imports with
  | idle => rw [hd] at hr; cases hr
  | waiting targets awaited => rw [hd] at hr; cases hr
  | done r' =>
      rw [hd] at hr
      cases hr
      rw [h.imports.eq_done hd]; rfl

/-- A fetch that has come at least as far. -/
inductive Fetch.Before : Fetch → Fetch → Prop where
  | same {f} : Before f f
  | done {due r} : Before (.waiting due) (.done r)

theorem Fetch.Before.trans {f g h : Fetch} (h₁ : f.Before g) (h₂ : g.Before h) : f.Before h := by
  cases h₁ with
  | same => exact h₂
  | done =>
      cases h₂
      exact .done

namespace Session

variable {s t u : Session} {a b : String}

/-! ## Growth -/

/-- A session with everything another one has, as far along or further. -/
structure Grows (s t : Session) : Prop where
  documents : ∀ {a d}, s.document? a = some d → ∃ e, t.document? a = some e ∧ d.Before e
  fetches : ∀ {a f}, s.fetches.lookup a = some f → ∃ g, t.fetches.lookup a = some g ∧ f.Before g
  log : s.extractor.log <:+ t.extractor.log
  clock : s.clock ≤ t.clock

theorem Grows.refl (s : Session) : s.Grows s :=
  ⟨fun h => ⟨_, h, .refl _⟩, fun h => ⟨_, h, .same⟩, List.suffix_refl _, Nat.le_refl _⟩

theorem Grows.trans (h₁ : s.Grows t) (h₂ : t.Grows u) : s.Grows u where
  documents h := by
    obtain ⟨e, he, hde⟩ := h₁.documents h
    obtain ⟨f, hf, hef⟩ := h₂.documents he
    exact ⟨f, hf, hde.trans hef⟩
  fetches h := by
    obtain ⟨g, hg, hfg⟩ := h₁.fetches h
    obtain ⟨k, hk, hgk⟩ := h₂.fetches hg
    exact ⟨k, hk, hfg.trans hgk⟩
  log := h₁.log.trans h₂.log
  clock := Nat.le_trans h₁.clock h₂.clock

theorem Grows.holds (h : s.Grows t) (hs : s.holds a = true) : t.holds a = true := by
  obtain ⟨d, hd⟩ := holds_iff.mp hs
  obtain ⟨e, he, _⟩ := h.documents hd
  exact holds_iff.mpr ⟨e, he⟩

theorem Grows.begun (h : s.Grows t) (hs : (s.fetches.lookup a).isSome) : (t.fetches.lookup a).isSome := by
  obtain ⟨f, hf⟩ := Option.isSome_iff_exists.mp hs
  obtain ⟨g, hg, _⟩ := h.fetches hf
  exact Option.isSome_iff_exists.mpr ⟨g, hg⟩

theorem fetched?_eq_some {r : Except AnalysisError Unit} :
    s.fetched? a = some r ↔ s.fetches.lookup a = some (.done r) := by
  unfold fetched?
  split
  next h => simp [h]
  next h => simp only [reduceCtorEq, false_iff]; exact h r

theorem Grows.fetched {r : Except AnalysisError Unit} (h : s.Grows t) (hs : s.fetched? a = some r) :
    t.fetched? a = some r := by
  rw [fetched?_eq_some] at hs ⊢
  obtain ⟨g, hg, hb⟩ := h.fetches hs
  cases hb
  exact hg

/-! ## What stays the same while nobody interferes -/

/-- A session with the same loader, the same readers and the same will to go on. -/
structure Steady (s t : Session) : Prop where
  loader : t.extractor.loader? = s.extractor.loader?
  readScript : t.extractor.readScript = s.extractor.readScript
  attach : t.extractor.attach = s.extractor.attach
  readMarkup : t.readMarkup = s.readMarkup
  eager : t.eager = s.eager
  dropped : t.dropped = s.dropped

theorem Steady.refl (s : Session) : s.Steady s := ⟨rfl, rfl, rfl, rfl, rfl, rfl⟩

theorem Steady.trans (h₁ : s.Steady t) (h₂ : t.Steady u) : s.Steady u :=
  ⟨h₂.loader.trans h₁.loader, h₂.readScript.trans h₁.readScript, h₂.attach.trans h₁.attach,
    h₂.readMarkup.trans h₁.readMarkup, h₂.eager.trans h₁.eager, h₂.dropped.trans h₁.dropped⟩

/-! ## A document more -/

theorem grows_register (m : Structure) (h : s.document? a = none) : s.Grows (s.register a m) where
  documents {b d} hd := by
    have hb : b ≠ a := by rintro rfl; rw [h] at hd; cases hd
    exact ⟨d, by rw [document?_register m h, if_neg hb]; exact hd, .refl d⟩
  fetches h := ⟨_, h, .same⟩
  log := List.suffix_refl _
  clock := Nat.le_refl _

theorem Resolved.grows {text : String} {r : Except AnalysisError Unit} (h : s.Resolved a text (r, t)) :
    s.Grows t := by
  cases h with
  | there _ => exact .refl s
  | unreadable _ _ => exact .refl s
  | read hn _ => exact grows_register _ hn

theorem Resolved.steady {text : String} {r : Except AnalysisError Unit} (h : s.Resolved a text (r, t)) :
    s.Steady t := by
  cases h <;> exact ⟨rfl, rfl, rfl, rfl, rfl, rfl⟩

theorem Resolved.fetches {text : String} {r : Except AnalysisError Unit} (h : s.Resolved a text (r, t)) :
    t.fetches = s.fetches := by
  cases h <;> rfl

theorem Resolved.holds {text : String} (h : s.Resolved a text (.ok (), t)) : t.holds a = true := by
  cases h with
  | there hd => exact holds_iff.mpr ⟨_, hd⟩
  | read hn _ => exact holds_iff.mpr ⟨_, by rw [document?_register _ hn, if_pos rfl]⟩

/-- Reading a text leaves the documents at other addresses alone. -/
theorem Resolved.document? {text : String} {r : Except AnalysisError Unit} (h : s.Resolved a text (r, t))
    (hb : b ≠ a) : t.document? b = s.document? b := by
  cases h with
  | there _ => rfl
  | unreadable _ _ => rfl
  | read hn _ => rw [document?_register _ hn, if_neg hb]

/-! ## The end of a fetch -/

theorem grows_closeFetch {r : Except AnalysisError Unit} (h : ∀ r', s.fetches.lookup a ≠ some (.done r')) :
    s.Grows (s.closeFetch a r) where
  documents h := ⟨_, h, .refl _⟩
  fetches {b f} hf := by
    by_cases hb : b = a
    · subst hb
      refine ⟨.done r, by simp, ?_⟩
      cases f with
      | waiting due => exact .done
      | done r' => exact absurd hf (h r')
    · exact ⟨f, by simpa [lookup_cons, hb] using hf, .same⟩
  log := List.suffix_refl _
  clock := Nat.le_refl _

theorem steady_closeFetch (r : Except AnalysisError Unit) : s.Steady (s.closeFetch a r) :=
  ⟨rfl, rfl, rfl, rfl, rfl, rfl⟩

theorem Listening.grows (h : s.Listening a t) : s.Grows t := by
  cases h with
  | waiting _ _ => exact .refl s
  | asking _ _ => exact ⟨fun h => ⟨_, h, .refl _⟩, fun h => ⟨_, h, .same⟩, List.suffix_cons .., Nat.le_refl _⟩

theorem Listening.fetches (h : s.Listening a t) : t.fetches = s.fetches := by
  cases h <;> rfl

theorem Listening.steady (h : s.Listening a t) : s.Steady t := by
  cases h <;> exact ⟨rfl, rfl, rfl, rfl, rfl, rfl⟩

theorem Listening.not_done (h : s.Listening a t) (r : Except AnalysisError Unit) :
    t.fetches.lookup a ≠ some (.done r) := by
  rw [h.fetches]
  cases h with
  | waiting hf _ => rw [hf]; simp
  | asking hf _ => rw [hf]; simp

theorem Fetching.grows {r : Option (Except AnalysisError Unit)} (h : s.Fetching a (r, t)) : s.Grows t := by
  cases h with
  | known _ => exact .refl s
  | pending _ _ => exact .refl s
  | refused hf _ => exact grows_closeFetch (by simp [hf])
  | asked hf hl hd hz =>
      refine ⟨fun h => ⟨_, h, .refl _⟩, fun {b f} hb => ?_, List.suffix_cons .., Nat.le_refl _⟩
      have hne : b ≠ a := by rintro rfl; rw [hf] at hb; cases hb
      exact ⟨f, by simpa [lookup_cons, hne] using hb, .same⟩
  | failed ht _ _ => exact ht.grows.trans (grows_closeFetch ht.not_done)
  | late ht _ _ _ => exact ht.grows.trans (grows_closeFetch ht.not_done)
  | answered ht _ _ _ hr =>
      exact (ht.grows.trans hr.grows).trans (grows_closeFetch (by rw [hr.fetches]; exact ht.not_done))

theorem Fetching.steady {r : Option (Except AnalysisError Unit)} (h : s.Fetching a (r, t)) : s.Steady t := by
  cases h with
  | known _ => exact .refl s
  | pending _ _ => exact .refl s
  | refused _ _ => exact steady_closeFetch _
  | asked _ _ _ _ => exact ⟨rfl, rfl, rfl, rfl, rfl, rfl⟩
  | failed ht _ _ => exact ht.steady.trans (steady_closeFetch _)
  | late ht _ _ _ => exact ht.steady.trans (steady_closeFetch _)
  | answered ht _ _ _ hr => exact (ht.steady.trans hr.steady).trans (steady_closeFetch _)

theorem Fetching.clock {r : Option (Except AnalysisError Unit)} (h : s.Fetching a (r, t)) : t.clock = s.clock := by
  cases h with
  | known _ => rfl
  | pending _ _ => rfl
  | refused _ _ => rfl
  | asked _ _ _ _ => rfl
  | failed ht _ _ => cases ht <;> rfl
  | late ht _ _ _ => cases ht <;> rfl
  | answered ht _ _ _ hr => cases ht <;> cases hr <;> rfl

/-- The result of a poll of a fetch is what is known of it afterwards. -/
theorem Fetching.result {r : Option (Except AnalysisError Unit)} (h : s.Fetching a (r, t)) : r = t.fetched? a := by
  cases h with
  | known hf => exact (fetched?_eq_some.mpr hf).symm
  | pending hf _ => simp [fetched?, hf]
  | refused _ _ => simp [fetched?]
  | asked _ _ _ _ => simp [fetched?]
  | failed _ _ _ => simp [fetched?]
  | late _ _ _ _ => simp [fetched?]
  | answered _ _ _ _ _ => simp [fetched?]

theorem Fetching.begun {r : Option (Except AnalysisError Unit)} (h : s.Fetching a (r, t)) :
    (t.fetches.lookup a).isSome := by
  cases h with
  | known hf => simp [hf]
  | pending hf _ => simp [hf]
  | refused _ _ => simp
  | asked _ _ _ _ => simp
  | failed _ _ _ => simp
  | late _ _ _ _ => simp
  | answered _ _ _ _ _ => simp

/-- A poll of a fetch leaves the documents at other addresses alone. -/
theorem Fetching.document? {r : Option (Except AnalysisError Unit)} (h : s.Fetching a (r, t)) (hb : b ≠ a) :
    t.document? b = s.document? b := by
  cases h with
  | known _ => rfl
  | pending _ _ => rfl
  | refused _ _ => rfl
  | asked _ _ _ _ => rfl
  | failed ht _ _ => cases ht <;> rfl
  | late ht _ _ _ => cases ht <;> rfl
  | answered ht _ _ _ hr =>
      have hr := hr.document? hb
      cases ht <;> exact hr

/-! ## Polls of declarations, and notes of imports -/

theorem pollMetadata_none (h : s.document? a = none) : s.pollMetadata a = (none, s) := by
  simp only [pollMetadata, h]

theorem pollMetadata_some {d : Document} (h : s.document? a = some d) :
    s.pollMetadata a = ((d.extraction.poll s.extractor a).1.result?,
      { s with extractor := (d.extraction.poll s.extractor a).2 }.update a
        { d with extraction := (d.extraction.poll s.extractor a).1 }) := by
  simp only [pollMetadata, h, pollExtraction, document?_address h]

@[simp] theorem document?_pollMetadata :
    (s.pollMetadata a).2.document? b =
      if b = a then (s.document? b).map fun d => { d with extraction := (d.extraction.poll s.extractor a).1 }
      else s.document? b := by
  cases h : s.document? a with
  | none =>
      rw [pollMetadata_none h]
      split
      next hb => simp [hb, h]
      next => rfl
  | some d =>
      have hd : d.address = a := document?_address h
      rw [pollMetadata_some h, document?_update (d := { d with extraction := (d.extraction.poll s.extractor a).1 }) hd]
      change (if b = a then (s.document? b).map _ else s.document? b) = _
      split
      next hb => subst hb; simp [h]
      next => rfl

theorem pollMetadata_frame (s : Session) (a : String) :
    (s.pollMetadata a).2 = { s with
      extractor := (s.pollMetadata a).2.extractor
      documents := (s.pollMetadata a).2.documents } ∧
    s.extractor.Before (s.pollMetadata a).2.extractor := by
  cases h : s.document? a with
  | none => rw [pollMetadata_none h]; exact ⟨rfl, .refl _⟩
  | some d => rw [pollMetadata_some h]; exact ⟨rfl, (Extraction.poll_cases ..).before⟩

theorem pollMetadata_result (s : Session) (a : String) :
    (s.pollMetadata a).1 = ((s.pollMetadata a).2.document? a).bind (·.extraction.result?) := by
  rw [document?_pollMetadata, if_pos rfl]
  cases h : s.document? a with
  | none => simp [pollMetadata_none h]
  | some d => simp [pollMetadata_some h]

theorem before_poll (d : Document) (x : Extractor) (a : String) :
    d.Before { d with extraction := (d.extraction.poll x a).1 } where
  address := rfl
  markup := rfl
  extraction _ h := (Extraction.poll_cases x a d.extraction).result h
  ripe _ h := (Extraction.poll_cases x a d.extraction).ripe h
  failing h := (Extraction.poll_cases x a d.extraction).failing h
  imports := .same

theorem grows_pollMetadata (s : Session) (a : String) : s.Grows (s.pollMetadata a).2 where
  documents {b d} hd := by
    rw [document?_pollMetadata]
    split
    next => exact ⟨_, by rw [hd]; rfl, before_poll d s.extractor a⟩
    next => exact ⟨d, hd, .refl d⟩
  fetches {b f} hf := by
    rw [(pollMetadata_frame s a).1]
    exact ⟨f, hf, .same⟩
  log := by
    obtain ⟨l, hl⟩ := (pollMetadata_frame s a).2.log
    exact hl ▸ List.suffix_append ..
  clock := Nat.le_of_eq (pollMetadata_frame s a).2.clock.symm

theorem steady_pollMetadata (s : Session) (a : String) : s.Steady (s.pollMetadata a).2 := by
  obtain ⟨he, hx⟩ := pollMetadata_frame s a
  refine ⟨hx.loader, hx.readScript, hx.attach, ?_, ?_, ?_⟩ <;> rw [he]

theorem grows_setImports {w : ImportWalk} (h : ∀ d, s.document? a = some d → d.imports.Before w) :
    s.Grows (s.setImports a w) where
  documents {b d} hd := by
    rw [document?_setImports]
    split
    next hb =>
      subst hb
      exact ⟨{ d with imports := w }, by rw [hd]; rfl, rfl, rfl, fun _ h => h, fun _ h => h, id, h d hd⟩
    next => exact ⟨d, hd, .refl d⟩
  fetches {b f} hf := by
    rw [setImports_eq]
    exact ⟨f, hf, .same⟩
  log := by
    have hlog : (s.setImports a w).extractor.log = s.extractor.log := by rw [setImports_eq]
    exact hlog ▸ List.suffix_refl _
  clock := by rw [setImports_eq]; exact Nat.le_refl _

theorem steady_setImports (w : ImportWalk) : s.Steady (s.setImports a w) := by
  rw [setImports_eq]; exact ⟨rfl, rfl, rfl, rfl, rfl, rfl⟩

end Session

end ImportTree
