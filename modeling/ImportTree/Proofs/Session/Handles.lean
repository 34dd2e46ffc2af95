import ImportTree.Proofs.Session.Outside

/-!
# Documents that are handed out

A document is registered once, with the first text that can be read at its address, and keeps its place. It is
requested once at most, and never when it is there already.
-/

namespace ImportTree

/-- A document as it is handed out: its place in the table, its address and its markup. -/
structure Handle where
  place : Nat
  address : String
  markup : Structure
deriving DecidableEq, Repr

namespace Session

variable {A : String → Prop} {s t : Session} {a b text : String} {d : Document}

/-- All documents in their places. -/
def handles (s : Session) : List Handle :=
  s.documents.zipIdx.map fun (d, place) => { place, address := d.address, markup := d.markup }

/-- The document at an address, as it is handed out. -/
def handle? (s : Session) (a : String) : Option Handle :=
  s.handles.find? (·.address == a)

/-! ## Places -/

/-- What of the table never changes. -/
def entries (s : Session) : List (String × Structure) :=
  s.documents.map fun d => (d.address, d.markup)

theorem handles_eq (s : Session) :
    s.handles = s.entries.zipIdx.map fun (e, place) => { place, address := e.1, markup := e.2 } := by
  simp [handles, entries, List.zipIdx_map, Function.comp_def]

theorem handles_prefix (h : s.entries <+: t.entries) : s.handles <+: t.handles := by
  obtain ⟨l, hl⟩ := h
  rw [handles_eq, handles_eq, ← hl, List.zipIdx_append, List.map_append]
  exact List.prefix_append ..

theorem handle?_prefix {h : Handle} (hp : s.handles <+: t.handles) (hh : s.handle? a = some h) :
    t.handle? a = some h :=
  hp.find?_eq_some hh

theorem handle?_address {h : Handle} (hh : s.handle? a = some h) : h.address = a := by
  simpa using List.find?_some hh

theorem find?_places (l : List Document) (n : Nat) (a : String) :
    (((l.zipIdx n).map fun (d, place) => (⟨place, d.address, d.markup⟩ : Handle)).find? (·.address == a)).map
      (fun h => (h.address, h.markup)) = (l.find? (·.address == a)).map fun d => (d.address, d.markup) := by
  induction l generalizing n with
  | nil => rfl
  | cons d l ih =>
      rw [List.zipIdx_cons, List.map_cons, List.find?_cons, List.find?_cons]
      cases d.address == a with
      | true => rfl
      | false => exact ih (n + 1)

theorem handle?_document? (s : Session) (a : String) :
    (s.handle? a).map (fun h => (h.address, h.markup)) = (s.document? a).map fun d => (d.address, d.markup) :=
  find?_places s.documents 0 a

theorem handle?_isSome (s : Session) (a : String) : (s.handle? a).isSome = s.holds a := by
  simpa [holds] using congrArg Option.isSome (handle?_document? s a)

/-- What is handed out for an address is its document. -/
theorem handle?_markup {h : Handle} (hh : s.handle? a = some h) :
    ∃ d, s.document? a = some d ∧ d.markup = h.markup := by
  have hd := handle?_document? s a
  rw [hh] at hd
  obtain ⟨d, hd, he⟩ := Option.map_eq_some_iff.mp hd.symm
  exact ⟨d, hd, congrArg Prod.snd he⟩

/-! ## The table only gets longer -/

theorem entries_update (hs : s.Coherent) {e : Document} (hd : s.document? a = some d) (he : e.address = d.address)
    (hm : e.markup = d.markup) : (s.update a e).entries = s.entries := by
  rw [entries, entries, update, List.map_map]
  refine List.map_congr_left fun old hold => ?_
  by_cases ha : old.address = a
  · have hself := document?_of_mem hs.distinct hold
    rw [ha, hd] at hself
    cases hself
    simp [ha, he, hm]
  · simp [ha]

theorem entries_pollMetadata (hs : s.Coherent) (a : String) : (s.pollMetadata a).2.entries = s.entries := by
  cases h : s.document? a with
  | none => rw [pollMetadata_none h]
  | some d =>
      rw [pollMetadata_some h]
      exact entries_update (hs.retains ⟨⟨rfl, id⟩, rfl, rfl, rfl, Nat.le_refl _⟩) h rfl rfl

theorem entries_setImports (hs : s.Coherent) (w : ImportWalk) : (s.setImports a w).entries = s.entries := by
  cases h : s.document? a with
  | none => simp [setImports, h]
  | some d =>
      simp only [setImports, h]
      exact entries_update hs h rfl rfl

theorem Resolved.entries {r : Except AnalysisError Unit} (h : s.Resolved a text (r, t)) :
    s.entries <+: t.entries := by
  cases h with
  | there _ => exact List.prefix_refl _
  | unreadable _ _ => exact List.prefix_refl _
  | read _ _ => simp [Session.entries, register]

theorem Fetching.entries {r : Option (Except AnalysisError Unit)} (h : s.Fetching a (r, t)) :
    s.entries <+: t.entries := by
  cases h with
  | known _ | pending _ _ | refused _ _ | asked _ _ _ _ => exact List.prefix_refl _
  | failed ht _ _ => cases ht <;> exact List.prefix_refl _
  | late ht _ _ _ => cases ht <;> exact List.prefix_refl _
  | answered ht _ _ _ hr =>
      have := hr.entries
      cases ht <;> exact this

theorem Change.entries (hs : s.Coherent) (h : Change A s t) : s.entries <+: t.entries := by
  cases h with
  | advance _ => exact List.prefix_refl _
  | poll h =>
      cases h with
      | fetch _ => exact (pollFetch_fetching ..).entries
      | extract => rw [entries_pollMetadata hs]
      | note _ _ _ => rw [entries_setImports hs]
      | queue => exact List.prefix_refl _

theorem Changes.entries (hs : s.Coherent) (h : Changes A s t) : s.entries <+: t.entries := by
  induction h with
  | refl => exact List.prefix_refl _
  | tail hc h ih => exact ih.trans (h.entries (hs.changes hc))

/-! ## Where a document comes from -/

/-- Whether a text is what the loader answers for an address. -/
def Answers (s : Session) (a text : String) : Prop :=
  ∃ loader, s.extractor.loader? = some loader ∧ loader.answer a = .ok text

theorem Steady.answers (h : s.Steady t) (ha : t.Answers a text) : s.Answers a text := by
  obtain ⟨loader, hl, ha⟩ := ha
  exact ⟨loader, h.loader ▸ hl, ha⟩

/-- A document that was not there before is read from an answer of the loader. -/
theorem Change.registered (h : Change A s t) (hn : s.document? a = none) (hd : t.document? a = some d) :
    ∃ text, s.Answers a text ∧ s.readMarkup text = .ok d.markup := by
  cases h with
  | advance _ => cases hn.symm.trans hd
  | poll h =>
      cases h with
      | @fetch b _ =>
          rcases (pollFetch_fetching s b).document?_eq hd with hs | ⟨_, _, loader, text, m, hl, ha, hm, rfl⟩
          · cases hn.symm.trans hs
          · exact ⟨text, ⟨loader, hl, ha⟩, hm⟩
      | extract =>
          rw [document?_pollMetadata, hn] at hd
          split at hd <;> cases hd
      | note _ _ _ =>
          rw [document?_setImports, hn] at hd
          split at hd <;> cases hd
      | queue => cases hn.symm.trans hd

theorem Changes.registered (h : Changes A s t) (hn : s.document? a = none) (hd : t.document? a = some d) :
    ∃ text, s.Answers a text ∧ s.readMarkup text = .ok d.markup := by
  induction h generalizing d with
  | refl => cases hn.symm.trans hd
  | @tail u v hu hv ih =>
      cases hm : u.document? a with
      | some e =>
          obtain ⟨e', he', hb⟩ := hv.grows.documents hm
          cases hd.symm.trans he'
          obtain ⟨text, ha, hr⟩ := ih hm
          exact ⟨text, ha, by rw [hr, hb.markup]⟩
      | none =>
          obtain ⟨text, ha, hr⟩ := hv.registered hm hd
          exact ⟨text, (Changes.steady hu).answers ha, (Changes.steady hu).readMarkup ▸ hr⟩

/-! ## Late responses -/

/-- A fetch that takes an answer for a document that is there ends well, whatever the answer is. -/
theorem Fetching.overtaken {r : Option (Except AnalysisError Unit)} {r' : Except AnalysisError Unit}
    (h : s.Fetching a (r, t)) (hd : s.dropped = false) (hs : s.holds a = true) (ha : s.Answers a text)
    (hn : s.fetched? a = none) (hr : t.fetched? a = some r') : r' = .ok () := by
  obtain ⟨loader, hl, ha⟩ := ha
  obtain ⟨d, hdoc⟩ := holds_iff.mp hs
  cases h with
  | known _ => cases hn.symm.trans hr
  | pending _ _ => cases hn.symm.trans hr
  | refused _ hw =>
      rcases hw with hw | hw
      · rw [hd] at hw; cases hw
      · rw [hl] at hw; cases hw
  | asked _ _ _ _ => simp [fetched?] at hr
  | failed _ hl' hf => cases hl.symm.trans hl'; cases ha.symm.trans hf
  | late _ _ _ hw => rw [hd] at hw; cases hw
  | @answered u _ _ _ r'' hu _ _ _ hres =>
      have hdoc' : u.document? a = some d := by cases hu <;> exact hdoc
      simp only [fetched?, lookup_cons, if_pos, Option.some.injEq] at hr
      subst hr
      cases hres with
      | there _ => rfl
      | unreadable hnone _ => cases hdoc'.symm.trans hnone
      | read hnone _ => cases hdoc'.symm.trans hnone

theorem Change.overtaken {r : Except AnalysisError Unit} (h : Change A s t) (hd : s.dropped = false)
    (hs : s.holds a = true) (ha : s.Answers a text) (hn : s.fetched? a = none) (hr : t.fetched? a = some r) :
    r = .ok () := by
  cases h with
  | advance _ => cases hn.symm.trans hr
  | poll h =>
      cases h with
      | @fetch b _ =>
          have hf := pollFetch_fetching s b
          by_cases hb : a = b
          · subst hb
            exact hf.overtaken hd hs ha hn hr
          · rw [fetched?, hf.fetched hb] at hr
            cases hn.symm.trans hr
      | extract =>
          rw [(pollMetadata_frame s _).1] at hr
          cases hn.symm.trans hr
      | note _ _ _ =>
          rw [setImports_eq] at hr
          cases hn.symm.trans hr
      | queue => cases hn.symm.trans hr

theorem Changes.overtaken {r : Except AnalysisError Unit} (h : Changes A s t) (hd : s.dropped = false)
    (hs : s.holds a = true) (ha : s.Answers a text) (hn : s.fetched? a = none) (hr : t.fetched? a = some r) :
    r = .ok () := by
  induction h generalizing r with
  | refl => cases hn.symm.trans hr
  | @tail u v hu hv ih =>
      have hsteady := Changes.steady hu
      cases hm : u.fetched? a with
      | some r' =>
          rw [Grows.fetched hv.grows hm] at hr
          cases hr
          exact ih hm
      | none =>
          obtain ⟨loader, hl, ha⟩ := ha
          exact hv.overtaken (hsteady.dropped.trans hd) ((Changes.grows hu).holds hs)
            ⟨loader, hsteady.loader.trans hl, ha⟩ hm hr

/-! ## Requests -/

/-- A document that is there is not requested. -/
theorem Change.log_count (h : Change A s t) (ha : s.holds a = true) :
    t.extractor.log.count (.document a) = s.extractor.log.count (.document a) := by
  cases h with
  | advance _ => rfl
  | poll h =>
      cases h with
      | @fetch b hb =>
          rcases (pollFetch_fetching s b).log with hl | ⟨hn, hl⟩
          · rw [hl]
          · rw [hl]
            by_cases hab : b = a
            · subst hab
              rcases hb.absent with h | h
              · rw [ha] at h; cases h
              · rw [hn] at h; cases h
            · exact List.count_cons_of_ne (by simpa using hab)
      | extract =>
          obtain ⟨l, hl⟩ := (pollMetadata_frame s _).2.log
          have hz : (l.map Request.script).count (.document a) = 0 := by simp [List.count_eq_zero]
          rw [hl, List.count_append, hz, Nat.zero_add]
      | note _ _ _ => rw [setImports_eq]
      | queue => rfl

theorem Changes.log_count (h : Changes A s t) (ha : s.holds a = true) :
    t.extractor.log.count (.document a) = s.extractor.log.count (.document a) := by
  induction h with
  | refl => rfl
  | tail hu hv ih => rw [hv.log_count ((Changes.grows hu).holds ha), ih]

end Session

end ImportTree
