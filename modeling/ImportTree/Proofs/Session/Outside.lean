import ImportTree.Proofs.Session.Walks

/-!
# Interference from outside

A text may be given for an address, the loader may change its answers, and an analysis may be given up. The tables
of the session stay coherent, and nothing that is known is lost.
-/

namespace ImportTree.Session

variable {s t : Session} {a text : String} {d : Document}

/-- A session with the same tables that has a loader exactly if the other one has one. -/
structure Retains (s t : Session) : Prop extends Keeps s t where
  documents : t.documents = s.documents
  fetches : t.fetches = s.fetches
  log : t.extractor.log = s.extractor.log
  clock : s.clock ≤ t.clock

theorem Retains.document? (h : s.Retains t) (a : String) : t.document? a = s.document? a := by
  rw [Session.document?, Session.document?, h.documents]

theorem Retains.grows (h : s.Retains t) : s.Grows t where
  documents {a d} hd := ⟨d, (h.document? a).trans hd, .refl d⟩
  fetches {a f} hf := ⟨f, by rw [h.fetches]; exact hf, .same⟩
  log := h.log ▸ List.suffix_refl _
  clock := h.clock

theorem Coherent.retains (hs : s.Coherent) (h : s.Retains t) : t.Coherent where
  distinct := h.documents ▸ hs.distinct
  allowed {a d} hd := by
    rw [h.document?] at hd
    exact (hs.allowed hd).grows h.grows h.toKeeps (.refl d)
  fetched {a} ha := by
    rw [fetched?, h.fetches] at ha
    rw [holds, h.document?]
    exact hs.fetched ha
  requested a := by
    rw [h.log, h.fetches]
    exact hs.requested a

/-! ## A text for an address -/

theorem resolve_resolved (s : Session) (a text : String) :
    Resolved s a text ((s.resolve a text).1, (s.resolve a text).2) :=
  resolve_cases s a text

theorem Resolved.log {r : Except AnalysisError Unit} (h : s.Resolved a text (r, t)) :
    t.extractor.log = s.extractor.log := by
  cases h <;> rfl

theorem Resolved.coherent {r : Except AnalysisError Unit} (h : s.Resolved a text (r, t)) (hs : s.Coherent) :
    t.Coherent where
  distinct := h.nodup hs.distinct
  allowed {b d} hd := by
    rcases h.document?_eq hd with hd | ⟨_, _, m, _, rfl⟩
    · exact (hs.allowed hd).grows h.grows h.steady.keeps (.refl d)
    · trivial
  fetched {b} hb := by
    rw [fetched?, h.fetches] at hb
    exact h.grows.holds (hs.fetched hb)
  requested b := by
    rw [h.log, h.fetches]
    exact hs.requested b

/-! ## The loader, and the end -/

/-- A session whose loader has changed. -/
def serve (s : Session) (change : Loader → Loader) : Session :=
  { s with extractor := { s.extractor with loader? := s.extractor.loader?.map change } }

theorem retains_serve (s : Session) (change : Loader → Loader) : s.Retains (s.serve change) where
  loader := by simp [serve]
  dropped h := h
  documents := rfl
  fetches := rfl
  log := rfl
  clock := Nat.le_refl _

theorem retains_drop (s : Session) : s.Retains s.drop where
  loader := rfl
  dropped _ := rfl
  documents := rfl
  fetches := rfl
  log := rfl
  clock := Nat.le_refl _

/-- A session in which nothing has happened. -/
structure Blank (s : Session) : Prop where
  documents : s.documents = []
  fetches : s.fetches = []
  log : s.extractor.log = []

theorem Blank.document? (h : s.Blank) (a : String) : s.document? a = none := by
  simp [Session.document?, h.documents]

theorem Blank.coherent (h : s.Blank) : s.Coherent where
  distinct := by simp [h.documents]
  allowed {a d} hd := by rw [h.document?] at hd; cases hd
  fetched {a} ha := by simp [fetched?, h.fetches] at ha
  requested a := by simp [h.log]

end ImportTree.Session
