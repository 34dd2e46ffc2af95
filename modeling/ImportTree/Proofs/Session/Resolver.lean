import ImportTree.Proofs.Analysis.Steps
import ImportTree.Proofs.Session.Handles

/-!
# Resolvers

A resolver is a session that many tasks use at once. Between two polls of one task others may be polled, texts may be
given, time may pass, and the loader may come to answer differently.
-/

namespace ImportTree

/-- A session, with the addresses of loads that were asked for before their document was there. -/
structure Resolver where
  session : Session
  tickets : List String := []

namespace Resolver

/-- What a task can do with a resolver at one moment. -/
inductive Action where
  /-- Gives a text for an address. -/
  | resolve (address text : String)
  /-- Asks for a load; what is there is answered at once. -/
  | load (address : String)
  /-- Polls a load that was asked for. -/
  | poll (address : String)
  /-- Looks at the document at an address. -/
  | node (address : String)
  | metadata (address : String)
  | imports (address : String)
  /-- Does the background work. -/
  | work
  | wait (time : Nat)
  /-- Makes the loader answer, and take its time, in any other way. -/
  | serve (loader : Loader)

/-- The address about which an action answers. -/
def Action.address? : Action → Option String
  | .resolve address _ | .load address | .poll address | .node address => some address
  | _ => none

/-- What a task is handed out at the end of a load. -/
def handOut (s : Session) (a : String) : Option (Except AnalysisError Unit) → Option (Except AnalysisError Handle)
  | some (.ok ()) => (s.handle? a).map .ok
  | some (.error e) => some (.error e)
  | none => none

/-- Performs an action; the answer is a document or an error, once there is one. -/
def act (k : Resolver) : Action → Option (Except AnalysisError Handle) × Resolver
  | .resolve a text =>
    match k.session.resolve a text with
    | (r, session) => (handOut session a (some r), { k with session })
  | .load a =>
    match k.session.handle? a with
    | some h => (some (.ok h), k)
    | none => (none, { k with tickets := a :: k.tickets })
  | .poll a =>
    if a ∈ k.tickets then
      match k.session.pollFetch a with
      | (r, session) => (handOut session a r, { k with session })
    else (none, k)
  | .node a => ((k.session.handle? a).map .ok, k)
  | .metadata a => (none, { k with session := (k.session.pollMetadata a).2 })
  | .imports a => (none, { k with session := (k.session.pollImports a).2 })
  | .work => (none, { k with session := k.session.work })
  | .wait time => (none, { k with session := k.session.advance (k.session.clock + time) })
  | .serve loader => (none, { k with session := k.session.serve fun _ => loader })

/-- Performs actions one after another. -/
def run (k : Resolver) (actions : List Action) : Resolver :=
  actions.foldl (fun k action => (k.act action).2) k

/-- A resolver that has not been used. -/
def fresh (readers : Readers) (loader? : Option Loader) (attach eager : Bool) : Resolver where
  session := Analysis.blank readers loader? attach eager

variable {k : Resolver} {action : Action} {actions : List Action} {a : String}

theorem run_append (k : Resolver) (l₁ l₂ : List Action) : k.run (l₁ ++ l₂) = (k.run l₁).run l₂ :=
  List.foldl_append ..

theorem run_cons (k : Resolver) (action : Action) (l : List Action) :
    k.run (action :: l) = (k.act action).2.run l := rfl

/-! ## What actions do -/

/-- The session after an action: a text has been read, a fetch has been polled, the loader has changed, or nothing has
happened but changes. -/
inductive Acted (k : Resolver) : Action → Session → Prop where
  | resolved {a text : String} {r t} : k.session.Resolved a text (r, t) → Acted k (.resolve a text) t
  | polled {a : String} : a ∈ k.tickets → Acted k (.poll a) (k.session.pollFetch a).2
  | served {loader : Loader} : Acted k (.serve loader) (k.session.serve fun _ => loader)
  | changed {action : Action} {t} : (∀ a text, action ≠ .resolve a text) →
      Session.Changes (fun _ => False) k.session t → Acted k action t

theorem act_acted (action : Action) (hs : k.session.Coherent) : Acted k action (k.act action).2.session := by
  cases action with
  | resolve a text => exact .resolved (Session.resolve_resolved k.session a text)
  | poll a =>
      unfold act
      dsimp only
      split
      next hmem => exact .polled hmem
      next => exact .changed nofun .refl
  | serve loader => exact .served
  | load a =>
      unfold act
      dsimp only
      split <;> exact .changed nofun .refl
  | node a => exact .changed nofun .refl
  | metadata a => exact .changed nofun (.single (.poll .extract))
  | imports a => exact .changed nofun (Session.pollImports_imported _ hs a).polls.changes
  | work => exact .changed nofun (Session.work_polls _ hs).changes
  | wait time => exact .changed nofun (.single (.advance (Nat.le_add_right ..)))

variable {t : Session} {text : String} {d : Document}

theorem Acted.evolves (h : Acted k action t) (hs : k.session.Coherent) : k.session.Evolves t := by
  cases h with
  | resolved h => exact ⟨h.steady.keeps, h.coherent hs, h.grows⟩
  | @polled b _ =>
      have hf := Session.pollFetch_fetching k.session b
      exact ⟨hf.steady.keeps, hs.fetch b, hf.grows⟩
  | served => exact .of_retains hs (Session.retains_serve _ _)
  | changed _ h => exact .of_changes hs h

theorem Acted.entries (h : Acted k action t) (hs : k.session.Coherent) : k.session.entries <+: t.entries := by
  cases h with
  | resolved h => exact h.entries
  | polled _ => exact (Session.pollFetch_fetching ..).entries
  | served => exact List.prefix_refl _
  | changed _ h => exact h.entries hs

theorem Acted.readers (h : Acted k action t) : t.readMarkup = k.session.readMarkup ∧ t.dropped = k.session.dropped := by
  cases h with
  | resolved h => exact ⟨h.steady.readMarkup, h.steady.dropped⟩
  | @polled b _ =>
      have hf := (Session.pollFetch_fetching k.session b).steady
      exact ⟨hf.readMarkup, hf.dropped⟩
  | served => exact ⟨rfl, rfl⟩
  | changed _ h => exact ⟨h.steady.readMarkup, h.steady.dropped⟩

/-- Whether an action brings a text for an address: the text it gives, or an answer of the loader. -/
def Offers (s : Session) (a text : String) : Action → Prop
  | .resolve b given => b = a ∧ given = text
  | _ => s.Answers a text

theorem Acted.registered (h : Acted k action t) (hn : k.session.document? a = none) (hd : t.document? a = some d) :
    ∃ text, Offers k.session a text action ∧ k.session.readMarkup text = .ok d.markup := by
  cases h with
  | @resolved b given _ _ h =>
      rcases h.document?_eq hd with hs | ⟨_, hb, m, hm, rfl⟩
      · cases hn.symm.trans hs
      · exact ⟨given, ⟨hb.symm, rfl⟩, hm⟩
  | polled _ =>
      rcases (Session.pollFetch_fetching ..).document?_eq hd with hs | ⟨_, _, loader, text, m, hl, ha, hm, rfl⟩
      · cases hn.symm.trans hs
      · exact ⟨text, ⟨loader, hl, ha⟩, hm⟩
  | served => cases hn.symm.trans hd
  | changed hne h =>
      obtain ⟨text, ha, hm⟩ := h.registered hn hd
      refine ⟨text, ?_, hm⟩
      cases action with
      | resolve b given => exact absurd rfl (hne b given)
      | _ => exact ha

/-- A text given for an address at which nothing is there yet is refused, or registers the document. -/
theorem Acted.resolve_refused (h : Acted k (.resolve a text) t) (ht : t.document? a = none) :
    ∃ fault, k.session.readMarkup text = .error fault := by
  cases h with
  | resolved h =>
      cases h with
      | there hd => cases hd.symm.trans ht
      | unreadable _ hf => exact ⟨_, hf⟩
      | read hn _ => rw [Session.document?_register _ hn, if_pos rfl] at ht; cases ht
  | changed hne _ => exact absurd rfl (hne a text)

theorem Acted.log_count (h : Acted k action t) (ha : k.session.holds a = true) :
    t.extractor.log.count (.document a) = k.session.extractor.log.count (.document a) ∨
      action = .poll a ∧ a ∈ k.tickets := by
  cases h with
  | resolved h => exact .inl (by rw [h.log])
  | @polled b hb =>
      rcases (Session.pollFetch_fetching k.session b).log with hl | ⟨_, hl⟩
      · exact .inl (by rw [hl])
      · by_cases hab : b = a
        · exact .inr ⟨hab ▸ rfl, hab ▸ hb⟩
        · exact .inl (by rw [hl]; exact List.count_cons_of_ne (by simpa using hab))
  | served => exact .inl rfl
  | changed _ h => exact .inl (h.log_count ha)

theorem Acted.overtaken {r : Except AnalysisError Unit} (h : Acted k action t) (hd : k.session.dropped = false)
    (hs : k.session.holds a = true) (ha : k.session.Answers a text) (hn : k.session.fetched? a = none)
    (hr : t.fetched? a = some r) : r = .ok () := by
  cases h with
  | resolved h =>
      rw [Session.fetched?, h.fetches] at hr
      cases hn.symm.trans hr
  | @polled b _ =>
      by_cases hb : a = b
      · subst hb
        exact (Session.pollFetch_fetching ..).overtaken hd hs ha hn hr
      · rw [Session.fetched?, (Session.pollFetch_fetching ..).fetched hb] at hr
        cases hn.symm.trans hr
  | served => cases hn.symm.trans hr
  | changed _ h => exact h.overtaken hd hs ha hn hr

/-! ## Runs -/

theorem fresh_coherent (readers : Readers) (loader? : Option Loader) (attach eager : Bool) :
    (fresh readers loader? attach eager).session.Coherent :=
  (Analysis.blank_blank ..).coherent

theorem run_evolves (hs : k.session.Coherent) (actions : List Action) : k.session.Evolves (k.run actions).session := by
  induction actions generalizing k with
  | nil => exact .refl hs
  | cons action actions ih =>
      have ha := (act_acted action hs).evolves hs
      exact ha.trans (ih ha.coherent)

theorem run_coherent (hs : k.session.Coherent) (actions : List Action) : (k.run actions).session.Coherent :=
  (run_evolves hs actions).coherent

theorem run_handles (hs : k.session.Coherent) (actions : List Action) :
    k.session.handles <+: (k.run actions).session.handles := by
  induction actions generalizing k with
  | nil => exact List.prefix_refl _
  | cons action actions ih =>
      have ha := act_acted action hs
      exact (Session.handles_prefix (ha.entries hs)).trans (ih (ha.evolves hs).coherent)

/-- What changes, fetches, given texts and other loaders keep is kept by all actions. -/
theorem run_keeps {P : Session → Prop}
    (changes : ∀ {s t : Session}, s.Coherent → Session.Changes (fun _ => False) s t → P s → P t)
    (fetched : ∀ {s : Session} (a : String), P s → P (s.pollFetch a).2)
    (resolved : ∀ {s t : Session} {a text : String} {r}, s.Resolved a text (r, t) → P s → P t)
    (served : ∀ {s : Session} (change : Loader → Loader), P s → P (s.serve change)) (actions : List Action)
    (hs : k.session.Coherent) (h : P k.session) : P (k.run actions).session := by
  induction actions generalizing k with
  | nil => exact h
  | cons action actions ih =>
      have ha := act_acted action hs
      refine ih (ha.evolves hs).coherent ?_
      generalize (k.act action).2.session = t at ha ⊢
      cases ha with
      | resolved hr => exact resolved hr h
      | polled _ => exact fetched _ h
      | served => exact served _ h
      | changed _ hc => exact changes hs hc h

theorem run_extracts {X : Extractor → Prop} {Q : String → Structure → Extraction → Prop} (hQ : Session.Persists X Q)
    (actions : List Action) (hs : k.session.Coherent) (h : k.session.Extracts X Q) :
    (k.run actions).session.Extracts X Q :=
  run_keeps (fun _ hc h => h.changes hQ hc) (fun a h => h.fetch hQ a) (fun hr h => h.resolved hQ hr)
    (fun _ h => h.retains hQ (Session.retains_serve _ _) rfl rfl) actions hs h

theorem run_readers (hs : k.session.Coherent) (actions : List Action) :
    (k.run actions).session.readMarkup = k.session.readMarkup ∧
      (k.run actions).session.dropped = k.session.dropped := by
  induction actions generalizing k with
  | nil => exact ⟨rfl, rfl⟩
  | cons action actions ih =>
      have ha := act_acted action hs
      have hrest := ih (ha.evolves hs).coherent
      exact ⟨hrest.1.trans ha.readers.1, hrest.2.trans ha.readers.2⟩

end Resolver

end ImportTree
