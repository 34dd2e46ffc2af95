import ImportTree.Proofs.Session.Outside

/-!
# What holds of extractions

What is true of the extraction of every new document, and kept by each poll of an extraction, is true of all documents
at every moment of a session.
-/

namespace ImportTree.Session

variable {A : String → Prop} {s t : Session} {a : String} {X : Extractor → Prop}
  {Q : String → Structure → Extraction → Prop}

/-- Whether a property holds of the extractions of new documents, and is kept by polls, given one of the extractor that
depends on nothing but the way in which scripts are read. -/
structure Persists (X : Extractor → Prop) (Q : String → Structure → Extraction → Prop) : Prop where
  reads : ∀ {x y : Extractor}, y.readScript = x.readScript → y.attach = x.attach → X x → X y
  fresh : ∀ (a : String) (m : Structure), Q a m (.start m.scripts)
  polled : ∀ {x y : Extractor} {a : String} {m : Structure} {e e' : Extraction}, X x → e.Polled x a (e', y) →
    Q a m e → Q a m e'

/-- Whether a property holds of the extractor, and another one of the extractions of all documents. -/
structure Extracts (X : Extractor → Prop) (Q : String → Structure → Extraction → Prop) (s : Session) : Prop where
  extractor : X s.extractor
  extraction : ∀ {a d}, s.document? a = some d → Q a d.markup d.extraction

/-- Documents that are there have kept their extractions, and others come anew. -/
theorem Extracts.follows (hQ : Persists X Q) (h : s.Extracts X Q) (hx : X t.extractor)
    (hdocs : ∀ {b d}, t.document? b = some d →
      (∃ e, s.document? b = some e ∧ d.extraction = e.extraction ∧ d.markup = e.markup) ∨ ∃ m, d = .fresh b m) :
    t.Extracts X Q where
  extractor := hx
  extraction {b d} hd := by
    rcases hdocs hd with ⟨e, he, hextraction, hmarkup⟩ | ⟨m, rfl⟩
    · rw [hextraction, hmarkup]
      exact h.extraction he
    · exact hQ.fresh b m

theorem Steady.reads (hQ : Persists X Q) (h : s.Steady t) (hx : X s.extractor) : X t.extractor :=
  hQ.reads h.readScript h.attach hx

theorem Blank.extracts (h : s.Blank) (hx : X s.extractor) : s.Extracts X Q :=
  ⟨hx, fun hd => by cases (h.document? _).symm.trans hd⟩

theorem Extracts.resolved (hQ : Persists X Q) {text : String} {r : Except AnalysisError Unit}
    (hr : s.Resolved a text (r, t)) (h : s.Extracts X Q) : t.Extracts X Q := by
  refine h.follows hQ (hr.steady.reads hQ h.extractor) fun hd => ?_
  rcases hr.document?_eq hd with hd | ⟨_, _, m, _, rfl⟩
  · exact .inl ⟨_, hd, rfl, rfl⟩
  · exact .inr ⟨m, rfl⟩

theorem Extracts.retains (hQ : Persists X Q) (ht : s.Retains t) (hr : t.extractor.readScript = s.extractor.readScript)
    (ha : t.extractor.attach = s.extractor.attach) (h : s.Extracts X Q) : t.Extracts X Q :=
  h.follows hQ (hQ.reads hr ha h.extractor) fun {b _} hd => .inl ⟨_, (ht.document? b).symm.trans hd, rfl, rfl⟩

theorem Extracts.fetch (hQ : Persists X Q) (h : s.Extracts X Q) (a : String) : (s.pollFetch a).2.Extracts X Q := by
  have hf := pollFetch_fetching s a
  refine h.follows hQ (hf.steady.reads hQ h.extractor) fun hd => ?_
  rcases hf.document?_eq hd with hd | ⟨_, _, _, _, m, _, _, _, rfl⟩
  · exact .inl ⟨_, hd, rfl, rfl⟩
  · exact .inr ⟨m, rfl⟩

theorem Extracts.extract (hQ : Persists X Q) (h : s.Extracts X Q) (a : String) : (s.pollMetadata a).2.Extracts X Q where
  extractor := (steady_pollMetadata s a).reads hQ h.extractor
  extraction {b d} hd := by
    rw [document?_pollMetadata] at hd
    split at hd
    next hb =>
      subst hb
      obtain ⟨e, he, rfl⟩ := Option.map_eq_some_iff.mp hd
      have hp : e.extraction.Polled s.extractor b
          ((e.extraction.poll s.extractor b).1, (e.extraction.poll s.extractor b).2) := Extraction.poll_cases ..
      exact hQ.polled h.extractor hp (h.extraction he)
    next => exact h.extraction hd

theorem Extracts.change (hQ : Persists X Q) (hc : Change A s t) (h : s.Extracts X Q) : t.Extracts X Q := by
  have hx := hc.steady.reads hQ h.extractor
  cases hc with
  | poll hp =>
      cases hp with
      | fetch _ => exact h.fetch hQ _
      | extract => exact h.extract hQ _
      | queue => exact h.follows hQ hx fun hd => .inl ⟨_, hd, rfl, rfl⟩
      | note _ _ _ =>
          refine h.follows hQ hx fun hd => ?_
          rw [document?_setImports] at hd
          split at hd
          next =>
            obtain ⟨e, he, rfl⟩ := Option.map_eq_some_iff.mp hd
            exact .inl ⟨e, he, rfl, rfl⟩
          next => exact .inl ⟨_, hd, rfl, rfl⟩
  | advance _ => exact h.follows hQ hx fun hd => .inl ⟨_, hd, rfl, rfl⟩

theorem Extracts.changes (hQ : Persists X Q) (hc : Changes A s t) (h : s.Extracts X Q) : t.Extracts X Q := by
  induction hc with
  | refl => exact h
  | tail _ hc ih => exact ih.change hQ hc

end ImportTree.Session
