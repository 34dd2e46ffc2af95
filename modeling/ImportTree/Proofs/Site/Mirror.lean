import ImportTree.Proofs.Session.Bounds
import ImportTree.Proofs.Site.Basic

/-!
# Sessions on a site

A session that reads what a site has holds the documents of the site, whatever it is asked for.
-/

namespace ImportTree

theorem mapM_ok {α β : Type} {f : α → Except AnalysisError β} {l : List α} {l' : List β} (h : l.mapM f = .ok l') :
    (∀ v ∈ l, ∃ v' ∈ l', f v = .ok v') ∧ ∀ v' ∈ l', ∃ v ∈ l, f v = .ok v' := by
  have hmap := mapM_eq_ok.mp h
  refine ⟨fun v hv => ?_, fun v' hv' => ?_⟩
  · obtain ⟨v', hv', hf⟩ := List.mem_map.mp (hmap ▸ List.mem_map_of_mem hv)
    exact ⟨v', hv', hf.symm⟩
  · obtain ⟨v, hv, hf⟩ := List.mem_map.mp (hmap.symm ▸ List.mem_map_of_mem hv')
    exact ⟨v, hv, hf⟩

namespace Site

variable {w : Site} {A : String → Prop} {a : String} {s t : Session} {d : Document} {x y : Extractor}

/-- Whether an extractor reads what a site has. -/
structure Serves (w : Site) (x : Extractor) : Prop where
  loader : ∃ delay, x.loader? = some (w.loader delay)
  readScript : x.readScript = w.readers.script
  attach : x.attach = w.attach

theorem Serves.before (h : w.Serves x) (hb : x.Before y) : w.Serves y := by
  obtain ⟨delay, hl⟩ := h.loader
  exact ⟨⟨delay, hb.loader.trans hl⟩, hb.readScript.trans h.readScript, hb.attach.trans h.attach⟩

theorem Serves.isSome (h : w.Serves x) : x.loader?.isSome = true := by
  obtain ⟨delay, hl⟩ := h.loader
  rw [hl]; rfl

theorem Serves.steady (h : w.Serves s.extractor) (hs : s.Steady t) : w.Serves t.extractor := by
  obtain ⟨delay, hl⟩ := h.loader
  exact ⟨⟨delay, hs.loader.trans hl⟩, hs.readScript.trans h.readScript, hs.attach.trans h.attach⟩

/-- A session on a site: its root is there, and its documents are those of the site. -/
structure Mirrors (w : Site) (s : Session) : Prop where
  serves : w.Serves s.extractor
  readMarkup : s.readMarkup = w.readers.markup
  root : s.holds w.root = true
  markup : ∀ {a d}, s.document? a = some d → w.markup? a = some d.markup

theorem markup?_of_answer {text : String} {m : Structure} (h : w.Serves s.extractor) (ha : s.Answers a text)
    (hr : a ≠ w.root) (hm : w.readers.markup text = .ok m) : w.markup? a = some m := by
  obtain ⟨delay, hloader⟩ := h.loader
  obtain ⟨loader, hl, htext⟩ := ha
  cases hloader.symm.trans hl
  simp [markup?, text?, hr, loader_answer.mp htext, hm, Except.toOption]

theorem Mirrors.changes (h : w.Mirrors s) (hc : Session.Changes A s t) : w.Mirrors t where
  serves := h.serves.steady hc.steady
  readMarkup := hc.steady.readMarkup.trans h.readMarkup
  root := hc.grows.holds h.root
  markup {a d} hd := by
    cases hs : s.document? a with
    | some e =>
        obtain ⟨e', he', hb⟩ := hc.grows.documents hs
        cases hd.symm.trans he'
        rw [hb.markup]
        exact h.markup hs
    | none =>
        obtain ⟨text, htext, hm⟩ := hc.registered hs hd
        refine markup?_of_answer h.serves htext ?_ (h.readMarkup ▸ hm)
        rintro rfl
        cases (Session.not_holds_iff.mpr hs).symm.trans h.root

/-- The import targets of a document of the site are links of the site. -/
theorem links_of_targets {targets : List String} (hd : s.document? a = some d) (hm : w.markup? a = some d.markup)
    (ht : d.targets = .ok targets) : ∀ b ∈ targets, w.Links a b := by
  intro b hb
  rw [Document.targets, Session.document?_address hd] at ht
  obtain ⟨target, hmem, hr⟩ := (mapM_ok ht).2 b hb
  exact ⟨d.markup, target, hm, hmem, hr⟩

end Site

end ImportTree
