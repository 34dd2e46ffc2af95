import ImportTree.Proofs.Session.Growth
import Mathlib.Logic.Relation

/-!
# Changes of a session

While nobody interferes from outside, a session changes only by polls of fetches and of declarations, by notes
of how far imports have come, in its queue, and by the passing of time. Everything else it does is made of
these changes, and they keep its tables coherent.
-/

namespace ImportTree.Session

/-! ## What may be noted of imports -/

/-- What a document imports: without a loader nothing. -/
def imported (s : Session) (d : Document) : Except AnalysisError (List String) :=
  if s.extractor.loader?.isSome then d.targets else .ok []

/-- Why the imports of a document may have failed. -/
inductive Explains (s : Session) (d : Document) : AnalysisError → Prop where
  | unresolvable {e} : s.imported d = .error e → Explains s d e
  | detached : s.dropped = true → Explains s d (.detached d.address)
  | undeclared {e} : d.extraction.result? = some (.error e) → Explains s d e
  | unfetched {e targets a} : d.targets = .ok targets → a ∈ targets → s.fetched? a = some (.error e) → Explains s d e

/-- What an import walk that waits relies on. -/
structure Awaits (s : Session) (d : Document) (targets awaited : List String) : Prop where
  loader : s.extractor.loader?.isSome = true
  resolved : d.targets = .ok targets
  among : ∀ a ∈ awaited, a ∈ targets
  present : ∀ a ∈ targets, a ∈ awaited ∨ s.holds a = true
  begun : ∀ a ∈ awaited, (s.fetches.lookup a).isSome = true
  extraction : ∃ time, d.extraction.Ripe time

/-- What a finished import walk relies on. -/
structure Completes (s : Session) (d : Document) (targets : List String) : Prop where
  imported : s.imported d = .ok targets
  present : ∀ a ∈ targets, s.holds a = true
  declared : ∃ m, d.extraction.result? = some (.ok m)

/-- What may be noted of the imports of a document. -/
def Allows (s : Session) (d : Document) : ImportWalk → Prop
  | .idle => True
  | .waiting targets awaited => s.Awaits d targets awaited
  | .done (.ok targets) => s.Completes d targets
  | .done (.error e) => s.Explains d e

variable {A : String → Prop} {s t u : Session} {a b : String} {d e : Document}

/-- A session with a loader exactly if the other one has one, and given up if the other one is. -/
structure Keeps (s t : Session) : Prop where
  loader : t.extractor.loader?.isSome = s.extractor.loader?.isSome
  dropped : s.dropped = true → t.dropped = true

theorem Steady.keeps (h : s.Steady t) : s.Keeps t :=
  ⟨by rw [h.loader], fun hd => h.dropped.trans hd⟩

theorem Keeps.imported (hs : s.Keeps t) (hd : d.Before e) : t.imported e = s.imported d := by
  rw [Session.imported, Session.imported, hs.loader, hd.targets]

theorem Allows.grows {w : ImportWalk} (h : s.Allows d w) (hg : s.Grows t) (hs : s.Keeps t) (hd : d.Before e) :
    t.Allows e w := by
  cases w with
  | idle => trivial
  | waiting targets awaited =>
      refine ⟨hs.loader.trans h.loader, hd.targets.trans h.resolved, h.among,
        fun a ha => (h.present a ha).imp_right hg.holds, fun a ha => hg.begun (h.begun a ha), ?_⟩
      obtain ⟨time, ht⟩ := h.extraction
      exact ⟨time, hd.ripe _ ht⟩
  | done r =>
      cases r with
      | ok targets =>
          obtain ⟨m, hm⟩ := h.declared
          exact ⟨(hs.imported hd).trans h.imported, fun a ha => hg.holds (h.present a ha), m, hd.result hm⟩
      | error err =>
          cases h with
          | unresolvable h => exact .unresolvable ((hs.imported hd).trans h)
          | detached h => exact hd.address ▸ .detached (hs.dropped h)
          | undeclared h => exact .undeclared (hd.result h)
          | unfetched ht ha h => exact .unfetched (hd.targets.trans ht) ha (hg.fetched h)

/-! ## Changes -/

/-- Whether the imports of a document of the session lead to an address. -/
def Links (s : Session) (a : String) : Prop :=
  ∃ b d targets, s.document? b = some d ∧ d.targets = .ok targets ∧ a ∈ targets

/-- Whether an address is asked for or imported. -/
def Wanted (A : String → Prop) (s : Session) (a : String) : Prop :=
  A a ∨ s.Links a

/-- An address that may be fetched: it is wanted, and it is fetched already unless it is absent. -/
structure Fetchable (A : String → Prop) (s : Session) (a : String) : Prop where
  wanted : Wanted A s a
  absent : s.holds a = false ∨ (s.fetches.lookup a).isSome = true

/-- A change of a session for which no time passes. -/
inductive Poll (A : String → Prop) : Session → Session → Prop where
  | fetch {s : Session} {a : String} : Fetchable A s a → Poll A s (s.pollFetch a).2
  | extract {s : Session} {a : String} : Poll A s (s.pollMetadata a).2
  | note {s : Session} {a : String} {d : Document} {w : ImportWalk} : s.document? a = some d →
      d.imports.Before w → s.Allows d w → Poll A s (s.setImports a w)
  | queue {s : Session} {queue : List String} : Poll A s { s with queue := queue }

/-- A change of a session. -/
inductive Change (A : String → Prop) : Session → Session → Prop where
  | poll {s t : Session} : Poll A s t → Change A s t
  | advance {s : Session} {time : Nat} : s.clock ≤ time → Change A s (s.advance time)

abbrev Polls (A : String → Prop) : Session → Session → Prop :=
  Relation.ReflTransGen (Poll A)

abbrev Changes (A : String → Prop) : Session → Session → Prop :=
  Relation.ReflTransGen (Change A)

theorem Polls.changes (h : Polls A s t) : Changes A s t :=
  Relation.ReflTransGen.mono (fun _ _ => .poll) _ _ h

theorem pollFetch_fetching (s : Session) (a : String) : s.Fetching a ((s.pollFetch a).1, (s.pollFetch a).2) :=
  pollFetch_cases s a

theorem Poll.grows (h : Poll A s t) : s.Grows t := by
  cases h with
  | fetch _ => exact (pollFetch_fetching ..).grows
  | extract => exact grows_pollMetadata ..
  | note hd hb _ => exact grows_setImports fun e he => by rw [hd] at he; cases he; exact hb
  | queue => exact ⟨fun h => ⟨_, h, .refl _⟩, fun h => ⟨_, h, .same⟩, List.suffix_refl _, Nat.le_refl _⟩

theorem Poll.steady (h : Poll A s t) : s.Steady t := by
  cases h with
  | fetch _ => exact (pollFetch_fetching ..).steady
  | extract => exact steady_pollMetadata ..
  | note _ _ _ => exact steady_setImports _
  | queue => exact ⟨rfl, rfl, rfl, rfl, rfl, rfl⟩

theorem Poll.clock (h : Poll A s t) : t.clock = s.clock := by
  cases h with
  | fetch _ => exact (pollFetch_fetching ..).clock
  | extract => exact (pollMetadata_frame _ _).2.clock
  | note _ _ _ => rw [setImports_eq]; rfl
  | queue => rfl

theorem Change.grows (h : Change A s t) : s.Grows t := by
  cases h with
  | poll h => exact h.grows
  | advance h => exact ⟨fun h => ⟨_, h, .refl _⟩, fun h => ⟨_, h, .same⟩, List.suffix_refl _, h⟩

theorem Change.steady (h : Change A s t) : s.Steady t := by
  cases h with
  | poll h => exact h.steady
  | advance _ => exact ⟨rfl, rfl, rfl, rfl, rfl, rfl⟩

theorem Changes.grows (h : Changes A s t) : s.Grows t := by
  induction h with
  | refl => exact .refl s
  | tail _ h ih => exact ih.trans h.grows

theorem Changes.steady (h : Changes A s t) : s.Steady t := by
  induction h with
  | refl => exact .refl s
  | tail _ h ih => exact ih.trans h.steady

theorem Polls.clock (h : Polls A s t) : t.clock = s.clock := by
  induction h with
  | refl => rfl
  | tail _ h ih => exact h.clock.trans ih

/-! ## Coherence -/

/-- The tables of a session fit together. -/
structure Coherent (s : Session) : Prop where
  distinct : (s.documents.map (·.address)).Nodup
  allowed : ∀ {a d}, s.document? a = some d → s.Allows d d.imports
  fetched : ∀ {a}, s.fetched? a = some (.ok ()) → s.holds a = true
  /-- Every document is requested once at most, and only by its fetch. -/
  requested : ∀ a, s.extractor.log.count (.document a) ≤ if (s.fetches.lookup a).isSome then 1 else 0

theorem nodup_register (m : Structure) (hn : s.document? a = none)
    (h : (s.documents.map (·.address)).Nodup) : ((s.register a m).documents.map (·.address)).Nodup := by
  simp only [register, List.map_append, List.map_cons, List.map_nil]
  refine List.nodup_append.mpr ⟨h, List.nodup_singleton _, ?_⟩
  intro x hx y hy hxy
  obtain ⟨d, hd, rfl⟩ := List.mem_map.mp hx
  have hda : d.address = a := hxy.trans (List.mem_singleton.mp hy)
  have := holds_of_mem hd
  rw [hda, not_holds_iff.mpr hn] at this
  cases this

theorem Resolved.nodup {text : String} {r : Except AnalysisError Unit} (h : s.Resolved a text (r, t))
    (hn : (s.documents.map (·.address)).Nodup) : (t.documents.map (·.address)).Nodup := by
  cases h with
  | there _ => exact hn
  | unreadable _ _ => exact hn
  | read hd _ => exact nodup_register _ hd hn

/-- A document found at an address after reading a text was there before, or is new. -/
theorem Resolved.document?_eq {text : String} {r : Except AnalysisError Unit} (h : s.Resolved a text (r, t))
    (hd : t.document? b = some d) : s.document? b = some d ∨
      s.document? b = none ∧ b = a ∧ ∃ m, s.readMarkup text = .ok m ∧ d = Document.fresh b m := by
  cases h with
  | there _ => exact .inl hd
  | unreadable _ _ => exact .inl hd
  | @read m hn hm =>
      rw [document?_register m hn] at hd
      split at hd
      next hb => subst hb; cases hd; exact .inr ⟨hn, rfl, m, hm, rfl⟩
      next => exact .inl hd

theorem Fetching.nodup {r : Option (Except AnalysisError Unit)} (h : s.Fetching a (r, t))
    (hn : (s.documents.map (·.address)).Nodup) : (t.documents.map (·.address)).Nodup := by
  cases h with
  | known _ => exact hn
  | pending _ _ => exact hn
  | refused _ _ => exact hn
  | asked _ _ _ _ => exact hn
  | failed ht _ _ => cases ht <;> exact hn
  | late ht _ _ _ => cases ht <;> exact hn
  | answered ht _ _ _ hr => cases ht <;> exact hr.nodup hn

/-- A document found at an address after a poll of a fetch was there before, or is read from the response. -/
theorem Fetching.document?_eq {r : Option (Except AnalysisError Unit)} (h : s.Fetching a (r, t))
    (hd : t.document? b = some d) : s.document? b = some d ∨
      s.document? b = none ∧ b = a ∧ ∃ loader text m, s.extractor.loader? = some loader ∧
        loader.answer b = .ok text ∧ s.readMarkup text = .ok m ∧ d = Document.fresh b m := by
  cases h with
  | known _ => exact .inl hd
  | pending _ _ => exact .inl hd
  | refused _ _ => exact .inl hd
  | asked _ _ _ _ => exact .inl hd
  | failed ht _ _ => cases ht <;> exact .inl hd
  | late ht _ _ _ => cases ht <;> exact .inl hd
  | answered ht hl ha _ hr =>
      have key := hr.document?_eq hd
      cases ht <;> exact key.imp_right fun ⟨hn, hb, m, hm, he⟩ => ⟨hn, hb, _, _, m, hl, hb ▸ ha, hm, he⟩

/-- A document that is there is untouched by polls of fetches. -/
theorem Fetching.document?_some {r : Option (Except AnalysisError Unit)} (h : s.Fetching a (r, t))
    (hd : s.document? b = some d) : t.document? b = some d := by
  obtain ⟨e, he, _⟩ := h.grows.documents hd
  rcases h.document?_eq he with hs | ⟨hn, _⟩
  · rw [he, ← hs, hd]
  · rw [hd] at hn; cases hn

theorem Fetching.fetched {r : Option (Except AnalysisError Unit)} (h : s.Fetching a (r, t)) (hb : b ≠ a) :
    t.fetches.lookup b = s.fetches.lookup b := by
  cases h with
  | known _ => rfl
  | pending _ _ => rfl
  | refused _ _ => simp [lookup_cons, hb]
  | asked _ _ _ _ => simp [lookup_cons, hb]
  | failed ht _ _ => simp [lookup_cons, hb, ht.fetches]
  | late ht _ _ _ => simp [lookup_cons, hb, ht.fetches]
  | answered ht _ _ _ hr => simp [lookup_cons, hb, hr.fetches, ht.fetches]

/-- A fetch that has ended well has given a document. -/
theorem Fetching.holds (h : s.Fetching a (some (.ok ()), t)) (hs : s.fetched? a = some (.ok ()) → s.holds a = true) :
    t.holds a = true := by
  generalize hr : some (Except.ok ()) = r at h
  cases h with
  | known hf => cases hr; exact hs (fetched?_eq_some.mpr hf)
  | pending _ _ => cases hr
  | refused _ _ => cases hr
  | asked _ _ _ _ => cases hr
  | failed _ _ _ => cases hr
  | late _ _ _ _ => cases hr
  | answered _ _ _ _ hres => cases hr; exact hres.holds

/-- A poll of a fetch requests its document when it begins, and nothing else. -/
theorem Fetching.log {r : Option (Except AnalysisError Unit)} (h : s.Fetching a (r, t)) :
    t.extractor.log = s.extractor.log ∨
      s.fetches.lookup a = none ∧ t.extractor.log = .document a :: s.extractor.log := by
  have resolved {t u text r} (h : Resolved t a text (r, u)) : u.extractor.log = t.extractor.log := by
    cases h <;> rfl
  have listening {t} (h : s.Listening a t) : t.extractor.log = s.extractor.log ∨
      s.fetches.lookup a = none ∧ t.extractor.log = .document a :: s.extractor.log := by
    cases h with
    | waiting _ _ => exact .inl rfl
    | asking hf _ => exact .inr ⟨hf, rfl⟩
  cases h with
  | known _ => exact .inl rfl
  | pending _ _ => exact .inl rfl
  | refused _ _ => exact .inl rfl
  | asked hf _ _ _ => exact .inr ⟨hf, rfl⟩
  | failed ht _ _ => have := listening ht; exact this
  | late ht _ _ _ => have := listening ht; exact this
  | answered ht _ _ _ hr =>
      have := resolved hr
      exact (listening ht).imp (this.trans ·) fun h => ⟨h.1, this.trans h.2⟩

theorem Coherent.fetch (h : s.Coherent) (a : String) : (s.pollFetch a).2.Coherent := by
  have hf := pollFetch_fetching s a
  refine ⟨hf.nodup h.distinct, fun {b d} hd => ?_, fun {b} hb => ?_, fun b => ?_⟩
  · rcases hf.document?_eq hd with hs | ⟨_, _, _, _, _, _, _, _, rfl⟩
    · exact (h.allowed hs).grows hf.grows hf.steady.keeps (.refl d)
    · trivial
  · by_cases hba : b = a
    · subst hba
      have hr := hf.result
      rw [hb] at hr
      rw [hr] at hf
      exact hf.holds h.fetched
    · rw [fetched?, hf.fetched hba] at hb
      exact hf.grows.holds (h.fetched hb)
  · have hr := h.requested b
    by_cases hba : b = a
    · subst hba
      rcases hf.log with hl | ⟨hn, hl⟩
      · rw [hl, if_pos hf.begun]
        exact Nat.le_trans hr (by split <;> omega)
      · rw [hn] at hr
        rw [hl, if_pos hf.begun, List.count_cons_self]
        simpa using hr
    · rw [hf.fetched hba]
      rcases hf.log with hl | ⟨_, hl⟩
      · rwa [hl]
      · rwa [hl, List.count_cons_of_ne (by simpa using Ne.symm hba)]

@[simp] theorem addresses_pollMetadata (s : Session) (a : String) :
    (s.pollMetadata a).2.documents.map (·.address) = s.documents.map (·.address) := by
  cases h : s.document? a with
  | none => rw [pollMetadata_none h]
  | some d =>
      have hd : d.address = a := document?_address h
      rw [pollMetadata_some h]
      exact addresses_update (d := { d with extraction := (d.extraction.poll s.extractor a).1 }) hd

@[simp] theorem holds_pollMetadata : (s.pollMetadata a).2.holds b = s.holds b := by
  rw [holds, holds, document?_pollMetadata]
  split <;> simp

@[simp] theorem holds_setImports (w : ImportWalk) : (s.setImports a w).holds b = s.holds b := by
  rw [holds, holds, document?_setImports]
  split <;> simp

theorem Coherent.extract (h : s.Coherent) (a : String) : (s.pollMetadata a).2.Coherent := by
  obtain ⟨he, hx⟩ := pollMetadata_frame s a
  have hf : (s.pollMetadata a).2.fetches = s.fetches := by rw [he]
  refine ⟨by rw [addresses_pollMetadata]; exact h.distinct, fun {b d} hd => ?_, fun {b} hb => ?_, fun b => ?_⟩
  · have hg := grows_pollMetadata s a
    have hs := (steady_pollMetadata s a).keeps
    rw [document?_pollMetadata] at hd
    split at hd
    next =>
      obtain ⟨d', hd', rfl⟩ := Option.map_eq_some_iff.mp hd
      exact (h.allowed hd').grows hg hs (before_poll d' ..)
    next => exact (h.allowed hd).grows hg hs (.refl d)
  · rw [holds_pollMetadata]
    rw [fetched?, hf] at hb
    exact h.fetched hb
  · obtain ⟨l, hl⟩ := hx.log
    have hz : (l.map Request.script).count (.document b) = 0 := by simp [List.count_eq_zero]
    rw [hl, hf, List.count_append, hz, Nat.zero_add]
    exact h.requested b

theorem Coherent.note {w : ImportWalk} (h : s.Coherent) (hd : s.document? a = some d) (hb : d.imports.Before w)
    (hw : s.Allows d w) : (s.setImports a w).Coherent := by
  have hg : s.Grows (s.setImports a w) := grows_setImports fun e he => by rw [hd] at he; cases he; exact hb
  have hs := (steady_setImports (s := s) (a := a) w).keeps
  have hf : (s.setImports a w).fetches = s.fetches := by rw [setImports_eq]
  refine ⟨by rw [addresses_setImports]; exact h.distinct, fun {b e} he => ?_, fun {b} hb => ?_, fun b => ?_⟩
  · rw [document?_setImports] at he
    split at he
    next hba =>
      subst hba
      rw [hd] at he
      cases he
      exact hw.grows hg hs ⟨rfl, rfl, fun _ h => h, fun _ h => h, id, hb⟩
    next => exact (h.allowed he).grows hg hs (.refl e)
  · rw [holds_setImports]
    rw [fetched?, hf] at hb
    exact h.fetched hb
  · rw [setImports_eq]
    exact h.requested b

theorem Coherent.change (h : s.Coherent) (hc : Change A s t) : t.Coherent := by
  cases hc with
  | poll hp =>
      cases hp with
      | fetch _ => exact h.fetch _
      | extract => exact h.extract _
      | note hd hb hw => exact h.note hd hb hw
      | queue => exact ⟨h.distinct, fun hd => (h.allowed hd).grows (Poll.queue (A := A)).grows
          (Poll.queue (A := A)).steady.keeps (.refl _), h.fetched, h.requested⟩
  | advance ht => exact ⟨h.distinct, fun hd => (h.allowed hd).grows (Change.advance (A := A) ht).grows
      (Change.advance (A := A) ht).steady.keeps (.refl _), h.fetched, h.requested⟩

theorem Coherent.changes (h : s.Coherent) (hc : Changes A s t) : t.Coherent := by
  induction hc with
  | refl => exact h
  | tail _ hc ih => exact ih.change hc

theorem Coherent.polls (h : s.Coherent) (hp : Polls A s t) : t.Coherent :=
  h.changes hp.changes

end ImportTree.Session
