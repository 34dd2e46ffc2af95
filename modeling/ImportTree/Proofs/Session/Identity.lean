import ImportTree.Proofs.Session.Resolver

/-!
# One document for each address

However tasks take turns, all of them are handed out the same document for an address: the one that was read from the
first text that could be read there. No entry of the table is replaced or removed, and no document is requested twice.
-/

namespace ImportTree.Resolver

variable {k : Resolver} {action : Action} {actions before after : List Action} {a text : String} {h : Handle}

/-! ## What is handed out -/

theorem handle?_none {s : Session} : s.handle? a = none ↔ s.document? a = none := by
  rw [← Option.isSome_eq_false_iff.trans (Option.isNone_iff_eq_none), Session.handle?_isSome, Session.not_holds_iff]

theorem handOut_eq_some {s : Session} {r : Option (Except AnalysisError Unit)}
    (hh : handOut s a r = some (.ok h)) : r = some (.ok ()) ∧ s.handle? a = some h := by
  match r with
  | some (.ok ()) =>
      obtain ⟨h', hs, he⟩ := Option.map_eq_some_iff.mp hh
      cases he
      exact ⟨rfl, hs⟩
  | some (.error e) => cases hh
  | none => cases hh

/-- What an action hands out is in the table afterwards. -/
theorem act_handle? (ha : action.address? = some a) (hr : (k.act action).1 = some (.ok h)) :
    (k.act action).2.session.handle? a = some h := by
  cases action with
  | resolve b text =>
      cases ha
      exact (handOut_eq_some hr).2
  | load b =>
      cases ha
      unfold act at hr ⊢
      dsimp only at hr ⊢
      split at hr
      next h' hs => cases hr; exact hs
      next => cases hr
  | poll b =>
      cases ha
      unfold act at hr ⊢
      dsimp only at hr ⊢
      split at hr
      next hmem => rw [if_pos hmem]; exact (handOut_eq_some hr).2
      next => cases hr
  | node b =>
      cases ha
      obtain ⟨h', hs, he⟩ := Option.map_eq_some_iff.mp hr
      cases he
      exact hs
  | metadata b | imports b | work | wait time | serve loader => cases ha

/-- A text is answered with a document if it can be read or need not be. -/
theorem act_resolve (h : k.session.handle? a ≠ none ∨ ∃ m, k.session.readMarkup text = .ok m) :
    ∃ h, (k.act (.resolve a text)).1 = some (.ok h) := by
  have hr := Session.resolve_resolved k.session a text
  unfold act
  dsimp only
  cases hp : k.session.resolve a text with
  | mk r t =>
      rw [hp] at hr
      obtain rfl : r = .ok () := by
        cases hr with
        | there _ | read _ _ => rfl
        | unreadable hn he =>
            rcases h with hh | ⟨m, hm⟩
            · exact absurd (handle?_none.mpr hn) hh
            · cases he.symm.trans hm
      obtain ⟨h', hh⟩ := Option.isSome_iff_exists.mp ((Session.handle?_isSome t a).trans hr.holds)
      exact ⟨h', congrArg (Option.map Except.ok) hh⟩

/-! ## Where loads come from -/

theorem act_tickets (k : Resolver) (action : Action) : (k.act action).2.tickets = k.tickets ∨
    ∃ a, action = .load a ∧ k.session.handle? a = none ∧ (k.act action).2.tickets = a :: k.tickets := by
  cases action with
  | load a =>
      unfold act
      dsimp only
      split
      next => exact .inl rfl
      next hn => exact .inr ⟨a, rfl, hn, rfl⟩
  | poll a =>
      unfold act
      dsimp only
      split <;> exact .inl rfl
  | resolve a text | node a | metadata a | imports a | work | wait time | serve loader => exact .inl rfl

/-- A load that can be polled was asked for when its document was not there. -/
theorem run_tickets (h : a ∈ (k.run actions).tickets) : a ∈ k.tickets ∨
    ∃ before after, actions = before ++ .load a :: after ∧ (k.run before).session.handle? a = none := by
  induction actions generalizing k with
  | nil => exact .inl h
  | cons action actions ih =>
      rcases ih h with ht | ⟨before, after, rfl, hn⟩
      · rcases act_tickets k action with he | ⟨b, rfl, hn, he⟩
        · exact .inl (he ▸ ht)
        · rw [he] at ht
          rcases List.mem_cons.mp ht with rfl | ht
          · exact .inr ⟨[], actions, rfl, hn⟩
          · exact .inl ht
      · exact .inr ⟨action :: before, after, rfl, hn⟩

/-! ## The first text -/

/-- Somewhere in a run, a document that is there at the end but not at the beginning is registered. -/
theorem run_registered (hs : k.session.Coherent) (hn : k.session.handle? a = none)
    (hh : (k.run actions).session.handle? a = some h) : ∃ before action after, actions = before ++ action :: after ∧
      (k.run before).session.handle? a = none ∧ (k.run (before ++ [action])).session.handle? a = some h := by
  induction actions generalizing k with
  | nil => cases hn.symm.trans hh
  | cons action actions ih =>
      have hc := ((act_acted action hs).evolves hs).coherent
      cases hact : (k.act action).2.session.handle? a with
      | none =>
          obtain ⟨before, action', after, rfl, hb, ha⟩ := ih hc hact hh
          exact ⟨action :: before, action', after, rfl, hb, ha⟩
      | some h' =>
          cases (Session.handle?_prefix (run_handles hc actions) hact).symm.trans hh
          exact ⟨[], action, actions, rfl, hn, hact⟩

/-! ## One document -/

/-- Whether the response to the fetch of an address is there. -/
def Arrives (s : Session) (a text : String) : Prop :=
  ∃ loader, s.extractor.loader? = some loader ∧ loader.answer a = .ok text ∧
    ((∃ due, s.fetches.lookup a = some (.waiting due) ∧ due ≤ s.clock) ∨
      s.fetches.lookup a = none ∧ loader.delay a = 0)

/-- The actions of a run deal with one document for each address. -/
structure OneDocument (k : Resolver) (actions : List Action) : Prop where
  /-- Whatever is handed out for an address is at that address, and the same at any time. -/
  same : ∀ {before action after a h}, actions = before ++ action :: after → action.address? = some a →
    ((k.run before).act action).1 = some (.ok h) → h.address = a ∧ (k.run actions).session.handle? a = some h
  /-- A text that can be read is answered with the document of its address, and so is any text once that is there. -/
  given : ∀ {before after a text}, actions = before ++ .resolve a text :: after →
    ((k.run before).session.handle? a ≠ none ∨ ∃ m, k.session.readMarkup text = .ok m) →
    ∃ h, ((k.run before).act (.resolve a text)).1 = some (.ok h) ∧ (k.run actions).session.handle? a = some h
  /-- It is read from the first text for its address that can be read. -/
  first : ∀ {a h}, (k.run actions).session.handle? a = some h → ∃ before action after text,
    actions = before ++ action :: after ∧ (k.run before).session.handle? a = none ∧
    Offers (k.run before).session a text action ∧ k.session.readMarkup text = .ok h.markup ∧
    (k.run (before ++ [action])).session.handle? a = some h ∧
    (∀ l₁ given l₂, before = l₁ ++ .resolve a given :: l₂ → ∃ fault, k.session.readMarkup given = .error fault) ∧
    (k.run before).session.fetched? a ≠ some (.ok ())
  /-- No entry of the table is replaced or removed. -/
  kept : ∀ {before after}, actions = before ++ after →
    (k.run before).session.handles <+: (k.run actions).session.handles
  /-- A response that comes when the document is there ends the fetch well, whatever its text is. -/
  late : ∀ {before action after a h text r}, actions = before ++ action :: after →
    (k.run before).session.handle? a = some h → (k.run before).session.Answers a text →
    (k.run before).session.fetched? a = none → ((k.run before).act action).2.session.fetched? a = some r → r = .ok ()
  /-- The task that takes it is handed out the document that is there. -/
  taken : ∀ {before after a h text}, actions = before ++ .poll a :: after →
    (k.run before).session.handle? a = some h → a ∈ (k.run before).tickets → Arrives (k.run before).session a text →
    ((k.run before).act (.poll a)).1 = some (.ok h)
  /-- A document is requested once at most. -/
  once : ∀ a, (k.run actions).session.extractor.log.count (.document a) ≤ 1
  /-- It is requested only while it is not there, or for a load that was asked for while it was not there. -/
  absent : ∀ {before action after a}, actions = before ++ action :: after →
    (k.run before).session.extractor.log.count (.document a) <
      ((k.run before).act action).2.session.extractor.log.count (.document a) →
    (k.run before).session.handle? a = none ∨
      action = .poll a ∧ ∃ l₁ l₂, before = l₁ ++ .load a :: l₂ ∧ (k.run l₁).session.handle? a = none

theorem pollFetch_arrives {s : Session} (hd : s.dropped = false) (hs : s.holds a = true) (ha : Arrives s a text) :
    (s.pollFetch a).1 = some (.ok ()) := by
  obtain ⟨loader, hl, htext, hready⟩ := ha
  have hf := Session.pollFetch_fetching s a
  have hn : s.fetched? a = none := by
    rcases hready with ⟨due, hw, _⟩ | ⟨hw, _⟩ <;> simp [Session.fetched?, hw]
  have hresult := hf.result
  cases hr : (s.pollFetch a).1 with
  | some r => rw [hf.overtaken hd hs ⟨loader, hl, htext⟩ hn (hresult.symm.trans hr)]
  | none =>
      rw [hr] at hf
      generalize hp : (none, (s.pollFetch a).2) = p at hf
      cases hf with
      | known _ => cases hp
      | refused _ _ => cases hp
      | failed _ _ _ => cases hp
      | late _ _ _ _ => cases hp
      | answered _ _ _ _ _ => cases hp
      | pending hw hlate =>
          rcases hready with ⟨due, hw', hdue⟩ | ⟨hw', _⟩
          · cases hw.symm.trans hw'
            rcases hlate with h | h
            · cases hl.symm.trans h
            · exact absurd hdue (Nat.not_le.mpr h)
          · cases hw.symm.trans hw'
      | asked hw hl' _ hdelay =>
          rcases hready with ⟨due, hw', _⟩ | ⟨_, hz⟩
          · cases hw.symm.trans hw'
          · cases hl.symm.trans hl'
            exact absurd hz (Nat.pos_iff_ne_zero.mp hdelay)

section

variable (hs : k.session.Coherent)
include hs

theorem run_same (ha : action.address? = some a) (hr : ((k.run before).act action).1 = some (.ok h)) :
    h.address = a ∧ (k.run (before ++ action :: after)).session.handle? a = some h := by
  have hb := run_coherent hs before
  have hh := act_handle? ha hr
  refine ⟨Session.handle?_address hh, ?_⟩
  rw [run_append, run_cons]
  exact Session.handle?_prefix (run_handles ((act_acted action hb).evolves hb).coherent after) hh

theorem run_given (h : (k.run before).session.handle? a ≠ none ∨ ∃ m, k.session.readMarkup text = .ok m) :
    ∃ h, ((k.run before).act (.resolve a text)).1 = some (.ok h) ∧
      (k.run (before ++ .resolve a text :: after)).session.handle? a = some h := by
  rw [← (run_readers hs before).1] at h
  obtain ⟨h', hr⟩ := act_resolve h
  exact ⟨h', hr, (run_same hs rfl hr).2⟩

/-- Texts that were given while nothing was there could not be read. -/
theorem run_refused {l₁ l₂ : List Action} {given : String}
    (hn : (k.run (l₁ ++ .resolve a given :: l₂)).session.handle? a = none) :
    ∃ fault, k.session.readMarkup given = .error fault := by
  have hb := run_coherent hs l₁
  have hact := act_acted (.resolve a given) hb
  rw [run_append, run_cons] at hn
  have hnone : ((k.run l₁).act (.resolve a given)).2.session.handle? a = none := by
    cases hh : ((k.run l₁).act (.resolve a given)).2.session.handle? a with
    | none => rfl
    | some h => cases hn.symm.trans (Session.handle?_prefix (run_handles (hact.evolves hb).coherent l₂) hh)
  rw [← (run_readers hs l₁).1]
  exact hact.resolve_refused (handle?_none.mp hnone)

theorem run_first (hn : k.session.handle? a = none) (hh : (k.run actions).session.handle? a = some h) :
    ∃ before action after text, actions = before ++ action :: after ∧ (k.run before).session.handle? a = none ∧
      Offers (k.run before).session a text action ∧ k.session.readMarkup text = .ok h.markup ∧
      (k.run (before ++ [action])).session.handle? a = some h ∧
      (∀ l₁ given l₂, before = l₁ ++ .resolve a given :: l₂ → ∃ fault, k.session.readMarkup given = .error fault) ∧
      (k.run before).session.fetched? a ≠ some (.ok ()) := by
  obtain ⟨before, action, after, hsplit, hnone, hreg⟩ := run_registered hs hn hh
  have hb := run_coherent hs before
  obtain ⟨d, hd, hm⟩ := Session.handle?_markup hreg
  rw [run_append] at hd
  obtain ⟨text, ho, ht⟩ := (act_acted action hb).registered (handle?_none.mp hnone) hd
  rw [(run_readers hs before).1, hm] at ht
  refine ⟨before, action, after, text, hsplit, hnone, ho, ht, hreg, ?_, fun hf => ?_⟩
  · rintro l₁ given l₂ rfl
    exact run_refused hs hnone
  · have hholds := hb.fetched hf
    rw [← Session.handle?_isSome, hnone] at hholds
    cases hholds

theorem run_taken (hd : k.session.dropped = false) (hh : (k.run before).session.handle? a = some h)
    (ht : a ∈ (k.run before).tickets) (ha : Arrives (k.run before).session a text) :
    ((k.run before).act (.poll a)).1 = some (.ok h) := by
  have hholds : (k.run before).session.holds a = true := by rw [← Session.handle?_isSome, hh]; rfl
  have hr := pollFetch_arrives ((run_readers hs before).2.trans hd) hholds ha
  have hp := Session.handles_prefix (Session.pollFetch_fetching (k.run before).session a).entries
  have hh' := Session.handle?_prefix hp hh
  unfold act
  dsimp only
  rw [if_pos ht]
  cases hc : (k.run before).session.pollFetch a with
  | mk r t =>
      rw [hc] at hr hh'
      cases hr
      exact congrArg (Option.map Except.ok) hh'

theorem run_absent (ht : k.tickets = []) (hl : (k.run before).session.extractor.log.count (.document a) <
      ((k.run before).act action).2.session.extractor.log.count (.document a)) :
    (k.run before).session.handle? a = none ∨
      action = .poll a ∧ ∃ l₁ l₂, before = l₁ ++ .load a :: l₂ ∧ (k.run l₁).session.handle? a = none := by
  by_cases hholds : (k.run before).session.holds a = true
  · rcases (act_acted action (run_coherent hs before)).log_count hholds with he | ⟨hact, hmem⟩
    · exact absurd hl (he ▸ Nat.lt_irrefl _)
    · refine .inr ⟨hact, ?_⟩
      rcases run_tickets hmem with hmem | hmem
      · rw [ht] at hmem; cases hmem
      · exact hmem
  · exact .inl (handle?_none.mpr (Session.not_holds_iff.mp (by simpa using hholds)))

end

/-- Tasks that take turns in any order deal with one document for each address. -/
theorem run_oneDocument (readers : Readers) (loader? : Option Loader) (attach eager : Bool) (actions : List Action) :
    OneDocument (fresh readers loader? attach eager) actions where
  same := by
    rintro before action after a h rfl
    exact run_same (fresh_coherent ..)
  given := by
    rintro before after a text rfl
    exact run_given (fresh_coherent ..)
  first := run_first (fresh_coherent ..) (handle?_none.mpr ((Analysis.blank_blank ..).document? _))
  kept := by
    rintro before after rfl
    rw [run_append]
    exact run_handles (run_coherent (fresh_coherent ..) before) after
  late := by
    rintro before action after a h text r rfl hh
    have hb := run_coherent (fresh_coherent readers loader? attach eager) before
    have hd := (run_readers (fresh_coherent readers loader? attach eager) before).2
    exact (act_acted action hb).overtaken hd (by rw [← Session.handle?_isSome, hh]; rfl)
  taken := by
    rintro before after a h text rfl
    exact run_taken (fresh_coherent ..) rfl
  once a := by
    have h := (run_coherent (fresh_coherent readers loader? attach eager) actions).requested a
    split at h <;> omega
  absent := by
    rintro before action after a rfl
    exact run_absent (fresh_coherent ..) rfl

-- The response that comes too late cannot be read, and the task that waited for it is handed out what is there.
example : (((fresh {} (some (.shelf [("a", "<script>")] [("a", 1)])) false true).run
    [.load "a", .poll "a", .resolve "a" "", .wait 1]).act (.poll "a")).1 = some (.ok ⟨0, "a", {}⟩) := by
  decide +kernel

end ImportTree.Resolver
