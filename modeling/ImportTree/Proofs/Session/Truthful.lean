import ImportTree.Session.Analysis
import ImportTree.Proofs.Session.Booking
import ImportTree.Proofs.Session.Outside

/-!
# Truthful registries

Whatever happens to a session, its registries hold each name once, for the document that has declared it. What is left
there by a document whose scripts have failed is entered for that document, and takes no name from the others.
-/

namespace ImportTree.Session

open Analysis (declared?)

variable {A : String → Prop} {s t : Session} {a : String} {d : Document} {m : Metadata}

/-! ## What the registries hold -/

/-- Whether the registries hold what the documents have declared, besides what failed ones have left. -/
structure Registered (s : Session) : Prop where
  distinct : s.extractor.registries.Distinct
  absent : ∀ {a}, s.document? a = none → ∀ k n, s.extractor.registries.count k n a = 0
  entered : ∀ {a d}, s.document? a = some d → d.extraction.Entered a s.extractor.registries
  located : ∀ {a d}, s.document? a = some d → d.extraction.Located a

theorem Blank.registered (h : s.Blank) (hr : s.extractor.registries = {}) : s.Registered where
  distinct k := by rw [hr]; cases k <;> exact List.nodup_nil
  absent _ k n := by rw [hr]; cases k <;> rfl
  entered hd := by rw [h.document?] at hd; cases hd
  located hd := by rw [h.document?] at hd; cases hd

/-- Nothing is to be entered for documents that come anew, or when nothing is extracted. -/
theorem Registered.grows (h : s.Registered) (hg : s.Grows t) (hr : t.extractor.registries = s.extractor.registries)
    (hdocs : ∀ {b d}, t.document? b = some d → (∃ e, s.document? b = some e ∧ d.extraction = e.extraction) ∨
      s.document? b = none ∧ ∃ m, d = .fresh b m) : t.Registered where
  distinct := hr ▸ h.distinct
  absent {b} hb k n := by
    rw [hr]
    refine h.absent ?_ k n
    cases hs : s.document? b with
    | none => rfl
    | some d =>
        obtain ⟨e, he, _⟩ := hg.documents hs
        cases hb.symm.trans he
  entered {b d} hd := by
    rw [hr]
    rcases hdocs hd with ⟨e, he, hx⟩ | ⟨hn, m, rfl⟩
    · exact hx ▸ h.entered he
    · exact Extraction.entered_start m.scripts (h.absent hn)
  located {b d} hd := by
    rcases hdocs hd with ⟨e, he, hx⟩ | ⟨_, m, rfl⟩
    · exact hx ▸ h.located he
    · exact Extraction.located_start m.scripts

theorem Registered.resolved {text : String} {r : Except AnalysisError Unit} (h : s.Registered)
    (hr : s.Resolved a text (r, t)) : t.Registered := by
  refine h.grows hr.grows (by cases hr <;> rfl) fun hd => ?_
  rcases hr.document?_eq hd with hd | ⟨hn, _, m, _, rfl⟩
  · exact .inl ⟨_, hd, rfl⟩
  · exact .inr ⟨hn, m, rfl⟩

theorem Registered.retains (h : s.Registered) (ht : s.Retains t)
    (hr : t.extractor.registries = s.extractor.registries) : t.Registered :=
  h.grows ht.grows hr fun {b _} hd => .inl ⟨_, (ht.document? b).symm.trans hd, rfl⟩

theorem Registered.fetch (h : s.Registered) (a : String) : (s.pollFetch a).2.Registered := by
  have hf := pollFetch_fetching s a
  refine h.grows hf.grows hf.registries fun hd => ?_
  rcases hf.document?_eq hd with hd | ⟨hn, _, _, _, m, _, _, _, rfl⟩
  · exact .inl ⟨_, hd, rfl⟩
  · exact .inr ⟨hn, m, rfl⟩

theorem Registered.extract (h : s.Registered) (a : String) : (s.pollMetadata a).2.Registered := by
  cases hd : s.document? a with
  | none => rw [pollMetadata_none hd]; exact h
  | some d =>
      have hp : d.extraction.Polled s.extractor a
          ((d.extraction.poll s.extractor a).1, (d.extraction.poll s.extractor a).2) := Extraction.poll_cases ..
      have hx : (s.pollMetadata a).2.extractor = (d.extraction.poll s.extractor a).2 := by
        rw [pollMetadata_some hd]; rfl
      have hentered := hp.entered (h.entered hd)
      refine ⟨hx ▸ hp.distinct h.distinct, fun {b} hb k n => ?_, fun {b e} he => ?_, fun {b e} he => ?_⟩
      · have hs : s.document? b = none := not_holds_iff.mp (holds_pollMetadata ▸ not_holds_iff.mpr hb)
        have hne : b ≠ a := by rintro rfl; cases hs.symm.trans hd
        rw [hx, hp.other k n b hne]
        exact h.absent hs k n
      · rw [document?_pollMetadata] at he
        rw [hx]
        split at he
        next hb => subst hb; rw [hd] at he; cases he; exact hentered
        next hb => exact (h.entered he).congr fun k n => hp.other k n b hb
      · rw [document?_pollMetadata] at he
        split at he
        next hb => subst hb; rw [hd] at he; cases he; exact hp.located (h.located hd)
        next => exact h.located he

theorem Registered.change (h : s.Registered) (hc : Change A s t) : t.Registered := by
  have hg := hc.grows
  cases hc with
  | poll hp =>
      cases hp with
      | fetch _ => exact h.fetch _
      | extract => exact h.extract _
      | queue => exact h.grows hg rfl fun hd => .inl ⟨_, hd, rfl⟩
      | note _ _ _ =>
          refine h.grows hg (by rw [setImports_eq]) fun hd => ?_
          rw [document?_setImports] at hd
          split at hd
          next =>
            obtain ⟨e, he, rfl⟩ := Option.map_eq_some_iff.mp hd
            exact .inl ⟨e, he, rfl⟩
          next => exact .inl ⟨_, hd, rfl⟩
  | advance _ => exact h.grows hg rfl fun hd => .inl ⟨_, hd, rfl⟩

theorem Registered.changes (h : s.Registered) (hc : Changes A s t) : t.Registered := by
  induction hc with
  | refl => exact h
  | tail _ hc ih => exact ih.change hc

/-! ## Names of all documents -/

theorem declared?_eq_some : declared? d = some m ↔ d.extraction = .done (.ok m) := by
  unfold declared?
  cases d.extraction with
  | running tasks => simp [Extraction.result?]
  | done r => cases r <;> simp [Extraction.result?]

/-- The names that a document has declared, once all of its scripts are done. -/
def declaredNames (kind : Kind) (d : Document) : List String :=
  ((declared? d).map (·.names kind)).getD []

theorem Registered.count (h : s.Registered) (hd : s.document? a = some d) (hm : declared? d = some m) (k : Kind)
    (n : String) : s.extractor.registries.count k n a = (m.names k).count n := by
  have he := h.entered hd
  rw [declared?_eq_some.mp hm] at he
  exact he k n

theorem Registered.mem_entries (h : s.Registered) (hd : s.document? a = some d) (hm : declared? d = some m) {k : Kind}
    {n : String} : (n, a) ∈ (s.extractor.registries.get k).entries ↔ n ∈ m.names k := by
  rw [← List.one_le_count_iff, ← List.one_le_count_iff, ← h.count hd hm]
  rfl

theorem Registered.nodup_names (h : s.Registered) (hd : s.document? a = some d) (hm : declared? d = some m) (k : Kind) :
    (m.names k).Nodup := by
  refine List.nodup_iff_count_le_one.mpr fun n => ?_
  rw [← h.count hd hm]
  exact List.nodup_iff_count_le_one.mp (List.Nodup.of_map _ (h.distinct k)) (n, a)

/-- A name is entered for one address only. -/
theorem Registered.unique (h : s.Registered) {k : Kind} {n a b : String}
    (ha : (n, a) ∈ (s.extractor.registries.get k).entries) (hb : (n, b) ∈ (s.extractor.registries.get k).entries) :
    a = b :=
  congrArg Prod.snd (List.inj_on_of_nodup_map (h.distinct k) ha hb rfl)

theorem Registered.declaredIn? (h : s.Registered) {k : Kind} {n a : String}
    (ha : (n, a) ∈ (s.extractor.registries.get k).entries) :
    (s.extractor.registries.get k).declaredIn? n = some a := by
  cases hl : (s.extractor.registries.get k).entries.lookup n with
  | none => simpa using List.lookup_eq_none_iff.mp hl _ ha
  | some b =>
      obtain ⟨l₁, l₂, hlist, _⟩ := List.lookup_eq_some_iff.mp hl
      rw [h.unique ha (by simp [hlist] : (n, b) ∈ _)]
      exact hl

theorem mem_names {p : Kind × Declaration} (hp : p ∈ m.declarations) : p.2.name ∈ m.names p.1 := by
  rcases List.mem_append.mp hp with hp | hp
  · obtain ⟨e, he, rfl⟩ := List.mem_map.mp hp
    exact List.mem_map.mpr ⟨e, he, rfl⟩
  · obtain ⟨e, he, rfl⟩ := List.mem_map.mp hp
    exact List.mem_map.mpr ⟨e, he, rfl⟩

/-- Whether no two documents have declared one name, every declaration names its document, and the registry of its kind
knows it from there. -/
structure Truthful (s : Session) : Prop where
  once : ∀ kind, (s.documents.flatMap (declaredNames kind)).Nodup
  located : ∀ {d m p}, d ∈ s.documents → declared? d = some m → p ∈ m.declarations → p.2.address = d.address
  registered : ∀ {d m p}, d ∈ s.documents → declared? d = some m → p ∈ m.declarations →
    (s.extractor.registries.get p.1).declaredIn? p.2.name = some d.address

theorem Registered.truthful (h : s.Registered) (hs : s.Coherent) : s.Truthful where
  once kind := by
    have hnames {d n} (hd : d ∈ s.documents) (hn : n ∈ declaredNames kind d) :
        (n, d.address) ∈ (s.extractor.registries.get kind).entries := by
      unfold declaredNames at hn
      cases hm : declared? d with
      | none => simp [hm] at hn
      | some m =>
          rw [hm] at hn
          exact (h.mem_entries (document?_of_mem hs.distinct hd) hm).mpr hn
    refine List.nodup_flatMap.mpr ⟨fun d hd => ?_, ?_⟩
    · unfold declaredNames
      cases hm : declared? d with
      | none => exact List.nodup_nil
      | some m => exact h.nodup_names (document?_of_mem hs.distinct hd) hm kind
    · refine (List.pairwise_map.mp hs.distinct).imp_of_mem fun hd he hne n hn hn' => hne ?_
      exact h.unique (hnames hd hn) (hnames he hn')
  located hd hm hp := by
    have hl := h.located (document?_of_mem hs.distinct hd)
    rw [declared?_eq_some.mp hm] at hl
    exact hl _ hp
  registered hd hm hp :=
    h.declaredIn? ((h.mem_entries (document?_of_mem hs.distinct hd) hm).mpr (mem_names hp))

end ImportTree.Session
