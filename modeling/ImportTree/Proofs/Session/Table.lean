import ImportTree.Session.State
import Mathlib.Data.List.Nodup

/-!
# The tables of a session

What each change of a session does to the document at an address and to the fetch of an address.
-/

namespace ImportTree

theorem lookup_cons {α : Type} (a b : String) (v : α) (l : List (String × α)) :
    ((a, v) :: l).lookup b = if b = a then some v else l.lookup b := by
  by_cases h : b = a
  · simp [h]
  · simp [h, List.lookup_cons, beq_eq_false_iff_ne.mpr h]

namespace Session

variable {s : Session} {a b : String} {d : Document}

/-! ## The document at an address -/

theorem document?_mem (h : s.document? a = some d) : d ∈ s.documents :=
  List.mem_of_find?_eq_some h

theorem document?_address (h : s.document? a = some d) : d.address = a := by
  simpa using List.find?_some h

theorem holds_iff : s.holds a = true ↔ ∃ d, s.document? a = some d := by
  rw [holds, Option.isSome_iff_exists]

theorem not_holds_iff : s.holds a = false ↔ s.document? a = none := by
  rw [holds, Option.isSome_eq_false_iff, Option.isNone_iff_eq_none]

theorem holds_of_mem (h : d ∈ s.documents) : s.holds d.address = true := by
  rw [holds, document?, List.find?_isSome]
  exact ⟨d, h, by simp⟩

/-- Where addresses are distinct, a document of the table is the one at its address. -/
theorem document?_of_mem (hn : (s.documents.map (·.address)).Nodup) (h : d ∈ s.documents) :
    s.document? d.address = some d := by
  obtain ⟨e, he⟩ := holds_iff.mp (holds_of_mem h)
  rw [he, List.inj_on_of_nodup_map hn (document?_mem he) h (document?_address he)]

/-! ## The addresses of all documents -/

@[simp] theorem mem_addresses : a ∈ s.addresses ↔ s.holds a = true := by
  rw [addresses, List.mem_mergeSort, List.mem_map]
  constructor
  · rintro ⟨d, hd, rfl⟩
    exact holds_of_mem hd
  · intro h
    obtain ⟨d, hd⟩ := holds_iff.mp h
    exact ⟨d, document?_mem hd, document?_address hd⟩

theorem addresses_sorted (hn : (s.documents.map (·.address)).Nodup) : s.addresses.Pairwise (· < ·) := by
  have hle : s.addresses.Pairwise fun a b => (!decide (b < a)) = true := by
    refine List.pairwise_mergeSort (fun a b c hab hbc => ?_) (fun a b => ?_) _
    · simp only [Bool.not_eq_true', decide_eq_false_iff_not, String.not_lt] at hab hbc ⊢
      exact String.le_trans hab hbc
    · simp only [Bool.or_eq_true, Bool.not_eq_true', decide_eq_false_iff_not, String.not_lt]
      exact String.le_total a b
  have hne : s.addresses.Pairwise (· ≠ ·) := (List.mergeSort_perm ..).nodup_iff.mpr hn
  refine hle.imp₂ (fun a b hab hne => ?_) hne
  have hab : a ≤ b := by simpa only [Bool.not_eq_true', decide_eq_false_iff_not, String.not_lt] using hab
  exact String.not_le.mp fun hba => hne (String.le_antisymm hab hba)

/-! ## Changes of the table -/

theorem find?_map_replace (l : List Document) (hd : d.address = a) :
    (l.map fun old => if old.address = a then d else old).find? (·.address == b) =
      if b = a then (l.find? (·.address == b)).map fun _ => d else l.find? (·.address == b) := by
  induction l with
  | nil => simp
  | cons e l ih =>
      by_cases he : e.address = a
      · by_cases hb : b = a
        · simp [he, hd, hb]
        · have hne : ¬a = b := fun h => hb h.symm
          simp only [hb, ↓reduceIte] at ih
          simp [he, hd, hb, hne, ih]
      · by_cases heb : e.address = b
        · have hb : ¬b = a := by rw [← heb]; exact he
          simp [heb, hb]
        · simp [he, heb, ih]

theorem document?_update (hd : d.address = a) :
    (s.update a d).document? b = if b = a then (s.document? b).map fun _ => d else s.document? b :=
  find?_map_replace s.documents hd

@[simp] theorem document?_setImports (w : ImportWalk) :
    (s.setImports a w).document? b =
      if b = a then (s.document? b).map fun d => { d with imports := w } else s.document? b := by
  cases h : s.document? a with
  | none =>
      simp only [setImports, h]
      split
      next hb => simp [hb, h]
      next => rfl
  | some d =>
      have hd : d.address = a := document?_address h
      simp only [setImports, h]
      rw [document?_update (d := { d with imports := w }) hd]
      split
      next hb => simp [hb, h]
      next => rfl

theorem addresses_update (hd : d.address = a) :
    (s.update a d).documents.map (·.address) = s.documents.map (·.address) := by
  rw [update, List.map_map]
  refine List.map_congr_left fun e _ => ?_
  by_cases he : e.address = a <;> simp [he, hd]

@[simp] theorem addresses_setImports (w : ImportWalk) :
    (s.setImports a w).documents.map (·.address) = s.documents.map (·.address) := by
  cases h : s.document? a with
  | none => simp [setImports, h]
  | some d =>
      have hd : d.address = a := document?_address h
      simp only [setImports, h]
      exact addresses_update (d := { d with imports := w }) hd

theorem setImports_eq (w : ImportWalk) :
    s.setImports a w = { s with documents := (s.setImports a w).documents } := by
  simp only [setImports]
  split <;> rfl

/-! ## A new document -/

/-- A session with a document more. -/
def register (s : Session) (a : String) (m : Structure) : Session :=
  { s with
    documents := s.documents ++ [Document.fresh a m]
    queue := if s.eager then s.queue ++ [a] else s.queue }

theorem document?_register (m : Structure) (h : s.document? a = none) :
    (s.register a m).document? b = if b = a then some (Document.fresh a m) else s.document? b := by
  by_cases hb : b = a
  · subst hb
    rw [document?] at h
    simp [register, document?, List.find?_append, h, Document.fresh]
  · have hne : ¬a = b := fun h => hb h.symm
    simp [register, document?, List.find?_append, Document.fresh, hb, hne]

/-- What reading a text at an address does. -/
inductive Resolved (s : Session) (a text : String) : Except AnalysisError Unit × Session → Prop where
  | there {d : Document} : s.document? a = some d → Resolved s a text (.ok (), s)
  | unreadable {fault} : s.document? a = none → s.readMarkup text = .error fault →
      Resolved s a text (.error (.unreadable a fault.message), s)
  | read {m} : s.document? a = none → s.readMarkup text = .ok m →
      Resolved s a text (.ok (), s.register a m)

theorem resolve_cases (s : Session) (a text : String) : Resolved s a text (s.resolve a text) := by
  unfold resolve
  cases h : s.document? a with
  | some d => simpa [holds, h] using Resolved.there h
  | none =>
      simp only [holds, h, Option.isSome_none, Bool.false_eq_true, ↓reduceIte]
      cases hm : s.readMarkup text with
      | error fault => exact .unreadable h hm
      | ok m => exact .read h hm

/-! ## The fetch of an address -/

/-- The result of the fetch of an address, once there is one. -/
def fetched? (s : Session) (a : String) : Option (Except AnalysisError Unit) :=
  match s.fetches.lookup a with
  | some (.done r) => some r
  | _ => none

/-- A session in which the fetch of an address has ended. -/
abbrev closeFetch (s : Session) (a : String) (r : Except AnalysisError Unit) : Session :=
  { s with fetches := (a, .done r) :: s.fetches }

/-- A session in which the document at an address has been requested. -/
abbrev asking (s : Session) (a : String) : Session :=
  { s with extractor := s.extractor.request (.document a) }

/-- The session that takes a response: either the document was requested before, or it is now. -/
inductive Listening (s : Session) (a : String) : Session → Prop where
  | waiting {due} : s.fetches.lookup a = some (.waiting due) → due ≤ s.extractor.clock → Listening s a s
  | asking : s.fetches.lookup a = none → s.dropped = false → Listening s a (s.asking a)

/-- What a poll of a fetch does. -/
inductive Fetching (s : Session) (a : String) : Option (Except AnalysisError Unit) × Session → Prop where
  | known {r} : s.fetches.lookup a = some (.done r) → Fetching s a (some r, s)
  | pending {due} : s.fetches.lookup a = some (.waiting due) →
      (s.extractor.loader? = none ∨ s.extractor.clock < due) → Fetching s a (none, s)
  | refused : s.fetches.lookup a = none → (s.dropped = true ∨ s.extractor.loader? = none) →
      Fetching s a (s.endFetch a (.error (if s.dropped then .detached a else noLoader a)))
  | asked {loader : Loader} : s.fetches.lookup a = none → s.extractor.loader? = some loader →
      s.dropped = false → 0 < loader.delay a →
      Fetching s a (none, { s.asking a with
        fetches := (a, .waiting (s.extractor.clock + loader.delay a)) :: s.fetches })
  | failed {t} {loader : Loader} {failure} : Listening s a t → s.extractor.loader? = some loader →
      loader.answer a = .error failure → Fetching s a (t.endFetch a (.error (.notLoaded a failure)))
  | late {t} {loader : Loader} {text} : Listening s a t → s.extractor.loader? = some loader →
      loader.answer a = .ok text → s.dropped = true → Fetching s a (t.endFetch a (.error (.detached a)))
  | answered {t u} {loader : Loader} {text r} : Listening s a t → s.extractor.loader? = some loader →
      loader.answer a = .ok text → s.dropped = false → Resolved t a text (r, u) →
      Fetching s a (u.endFetch a r)

theorem receive_cases {t : Session} {loader : Loader} (ht : Listening s a t)
    (hl : s.extractor.loader? = some loader) : Fetching s a (t.receive a loader) := by
  have hd : t.dropped = s.dropped := by cases ht <;> rfl
  unfold receive
  cases hr : loader.answer a with
  | error failure => exact .failed ht hl hr
  | ok text =>
      simp only [hd]
      cases hs : s.dropped with
      | true => exact .late ht hl hr hs
      | false => exact .answered ht hl hr hs (resolve_cases t a text)

theorem pollFetch_cases (s : Session) (a : String) : Fetching s a (s.pollFetch a) := by
  unfold pollFetch
  cases hf : s.fetches.lookup a with
  | some f =>
      cases f with
      | done r => exact .known hf
      | waiting due =>
          cases hl : s.extractor.loader? with
          | none => exact .pending hf (.inl hl)
          | some loader =>
              by_cases hdue : due ≤ s.extractor.clock
              · simp only [hdue, ↓reduceIte]
                exact receive_cases (.waiting hf hdue) hl
              · simp only [hdue, ↓reduceIte]
                exact .pending hf (.inr (by omega))
  | none =>
      cases hl : s.extractor.loader? with
      | none => exact .refused hf (.inr hl)
      | some loader =>
          cases hs : s.dropped with
          | true => simpa [hs] using Fetching.refused hf (.inl hs)
          | false =>
              simp only [Bool.false_eq_true, ↓reduceIte, beginFetch]
              by_cases hz : loader.delay a = 0
              · simp only [hz, ↓reduceIte]
                exact receive_cases (.asking hf hs) hl
              · simp only [hz, ↓reduceIte]
                exact .asked hf hl hs (by omega)

end Session

end ImportTree
