import ImportTree.Proofs.Analysis.Steps
import ImportTree.Proofs.Session.Repeats

/-!
# Stable answers

Once an analysis without delays has built the tree of its root, or has failed to, it answers the same for ever. What
the first answer was built from is still known, and what the first failure came from is met again at the same place.
-/

namespace ImportTree

/-! ## Going on -/

/-- A loader that has a text for as many addresses as it says at most, and answers at once. -/
structure Loader.Prompt (l : Loader) : Prop where
  bounded : l.Bounded
  delay : ∀ a, l.delay a = 0

theorem Loader.Prompt.insert {l : Loader} (h : l.Prompt) (a text : String) : (l.insert a text).Prompt :=
  ⟨h.bounded.insert a text, h.delay⟩

namespace Session

variable {A : String → Prop} {s t u : Session} {a : String}

/-- A session in which nothing is waited for, and which has not been given up. -/
structure Lively (s : Session) : Prop where
  coherent : s.Coherent
  prompt : s.Prompt
  loader : ∀ loader ∈ s.extractor.loader?, loader.Prompt
  live : s.dropped = false

/-- A session to which another one has gone on. -/
structure Continues (s t : Session) : Prop where
  lively : t.Lively
  grows : s.Grows t
  extent : s.extent ≤ t.extent

theorem Continues.trans (h₁ : s.Continues t) (h₂ : t.Continues u) : s.Continues u :=
  ⟨h₂.lively, h₁.grows.trans h₂.grows, Nat.le_trans h₁.extent h₂.extent⟩

theorem Lively.refl (hs : s.Lively) : s.Continues s :=
  ⟨hs, .refl s, Nat.le_refl _⟩

theorem Lively.steady (hs : s.Lively) (h : s.Steady t) (hc : t.Coherent) (hp : t.Prompt) (hg : s.Grows t) :
    s.Continues t where
  lively := ⟨hc, hp, h.loader ▸ hs.loader, h.dropped.trans hs.live⟩
  grows := hg
  extent := Nat.le_of_eq h.extent.symm

theorem Lively.changes (hs : s.Lively) (h : Changes A s t) : s.Continues t :=
  hs.steady h.steady (hs.coherent.changes h) (hs.prompt.changes h) h.grows

theorem Lively.resolved {text : String} {r : Except AnalysisError Unit} (hs : s.Lively)
    (h : s.Resolved a text (r, t)) : s.Continues t :=
  hs.steady h.steady (h.coherent hs.coherent) (h.prompt hs.prompt) h.grows

theorem Lively.insert (hs : s.Lively) (a text : String) : s.Continues (s.insert a text) where
  lively := by
    refine ⟨hs.coherent.retains (retains_serve s _), hs.prompt.insert a text, fun loader hl => ?_, hs.live⟩
    obtain ⟨loader', hl', rfl⟩ := Option.map_eq_some_iff.mp hl
    exact (hs.loader loader' hl').insert a text
  grows := (retains_serve s _).grows
  extent := by
    cases hl : s.extractor.loader? with
    | none => simp [Session.extent, hl]
    | some loader => simp [Session.extent, Session.insert, Loader.insert, hl]

/-- There is as much room for a walk as there was before. -/
theorem Continues.walkBound (h : s.Continues t) (hs : s.Coherent) : s.walkBound ≤ t.walkBound := by
  have hsub : s.documents.map (·.address) ⊆ t.documents.map (·.address) := by
    intro a ha
    obtain ⟨d, hd, rfl⟩ := List.mem_map.mp ha
    obtain ⟨e, he, _⟩ := h.grows.documents (document?_of_mem hs.distinct hd)
    exact List.mem_map.mpr ⟨e, document?_mem he, document?_address he⟩
  have hlen := length_le_of_subset hs.distinct hsub
  simp only [List.length_map] at hlen
  have := h.extent
  rw [Session.walkBound, Session.walkBound]
  omega

end Session

namespace Analysis

open Session (Continues)

variable {a : Analysis} {step : Step} {steps : List Step}

/-- Every step but giving up goes on. -/
theorem perform_continues (hs : a.session.Lively) (hstep : step ≠ .drop) :
    a.session.Continues (a.perform step).2.session := by
  rw [perform_of_live hs.live]
  have asks (h : step.Asks fun _ => True) : a.session.Continues (a.performAnyway step).2.session :=
    hs.changes (performAnyway_changes hs.coherent trivial h)
  cases step with
  | tree | dependencies | dependenciesOf _ | rootMetadata | rootImports | metadata _ | imports _ | load _ | idle
  | sleep _ =>
      exact asks trivial
  | resolve address text =>
      rw [performAnyway_resolve]
      exact hs.resolved (Session.resolve_resolved ..)
  | insert address text => exact hs.insert address text
  | drop => exact absurd rfl hstep

theorem run_continues (hs : a.session.Lively) (hsteps : .drop ∉ steps) :
    a.session.Continues (a.run steps).2.session := by
  induction steps generalizing a with
  | nil => exact hs.refl
  | cons step steps ih =>
      obtain ⟨hne, hrest⟩ := List.ne_and_not_mem_of_not_mem_cons hsteps
      have hstep := perform_continues hs hne.symm
      exact hstep.trans (ih hstep.lively hrest)

theorem start_lively {readers : Readers} {loader? : Option Loader} {attach eager : Bool} {root text : String}
    (hstart : start readers loader? attach eager root text = .ok a) (hloader : ∀ loader ∈ loader?, loader.Prompt) :
    a.session.Lively := by
  have hblank := blank_blank readers loader? attach eager
  have hprompt : (blank readers loader? attach eager).Prompt :=
    ⟨fun hl b => (hloader _ hl).delay b, fun hd => by rw [hblank.document?] at hd; cases hd⟩
  exact (Session.Lively.resolved ⟨hblank.coherent, hprompt, hloader, rfl⟩ (start_resolved hstart).2).lively

/-! ## Asking again -/

/-- Whether a step asks for all that the root imports, directly or not. -/
def Step.IsWalk : Step → Prop
  | .tree | .dependencies => True
  | _ => False

variable {b : Analysis}

theorem answer_again {α : Type} {success : α → Answer} {p q : Session.Walk α} (hp : ∃ r, p.1 = some r)
    (hsuccess : ∀ value, success value ≠ .unfinished) (hq : ∀ r, p.1 = some r → q = (some r, b.session)) :
    (a.answer success p).1 ≠ .unfinished ∧ b.answer success q = ((a.answer success p).1, b) := by
  obtain ⟨r, hr⟩ := hp
  cases hq r hr
  obtain ⟨_, s⟩ := p
  cases hr
  cases r with
  | error e => exact ⟨nofun, rfl⟩
  | ok value => exact ⟨hsuccess value, rfl⟩

/-- A walk from the root ends, and any later one gives the same answer and leaves the analysis as it is. -/
theorem perform_again (hs : a.session.Lively) (hh : a.session.holds a.root = true) (hstep : step.IsWalk)
    (hb : Continues (a.perform step).2.session b.session) (hroot : b.root = a.root) :
    (a.perform step).1 ≠ .unfinished ∧ b.perform step = ((a.perform step).1, b) := by
  have hne : step ≠ .drop := by rintro rfl; exact hstep
  have hroom := ((perform_continues hs hne).trans hb).walkBound hs.coherent
  obtain ⟨d, hd⟩ := Session.holds_iff.mp hh
  have hwithin {loader} (hl : a.session.extractor.loader? = some loader) :=
    Session.within_of_bounded hs.coherent hl (hs.loader loader hl).bounded
  rw [perform_of_live hs.live] at hb ⊢
  rw [perform_of_live hb.lively.live]
  cases step with
  | tree =>
      simp only [performAnyway, answer_session, hroot] at hb ⊢
      refine answer_again ?_ (fun _ heq => by cases heq) fun r hr =>
        Session.tree_lasts hs.coherent hs.prompt hh hr hb.grows hb.lively.coherent hroom
      cases hl : a.session.extractor.loader? with
      | none => exact hs.prompt.tree_isSome hs.coherent hl hd
      | some loader =>
          obtain ⟨V, hV, hlen⟩ := hwithin hl
          exact Session.tree_isSome hV hh hlen
  | dependencies =>
      simp only [performAnyway, answer_session, hroot] at hb ⊢
      refine answer_again ?_ (fun _ heq => by cases heq) fun r hr =>
        Session.dependencies_lasts hs.coherent hs.prompt hh hr hb.grows hb.lively.coherent hroom
      cases hl : a.session.extractor.loader? with
      | none => exact hs.prompt.dependencies_isSome hs.coherent hl hd
      | some loader =>
          obtain ⟨V, hV, hlen⟩ := hwithin hl
          exact Session.dependencies_isSome a.root hV hlen
  | _ => exact hstep.elim

/-- Take an analysis whose loader answers at once, or that has none. Asked for the tree of the root, or for what the
root imports, it answers, be it with an error. Whatever it does next short of being given up, it then gives the same
answer again, and is left as it is: nothing more is requested of the loader. -/
theorem answer_stable {readers : Readers} {loader? : Option Loader} {attach eager : Bool} {root text : String}
    (hstart : start readers loader? attach eager root text = .ok a) (hloader : ∀ loader ∈ loader?, loader.Prompt)
    (hstep : step.IsWalk) {before between : List Step} (hbefore : .drop ∉ before) (hbetween : .drop ∉ between) :
    let first := (a.run before).2.perform step
    let later := (first.2.run between).2
    first.1 ≠ .unfinished ∧ later.perform step = (first.1, later) := by
  intro first later
  have hs := start_lively hstart hloader
  have hbefore := run_continues hs hbefore
  have hne : step ≠ .drop := by rintro rfl; exact hstep
  have hfirst : Continues (a.run before).2.session first.2.session := perform_continues hbefore.lively hne
  have hlater : Continues first.2.session later.session := run_continues hfirst.lively hbetween
  have hroot : (a.run before).2.root = a.root := (run_evolves before hs.coherent).2
  have hroot' : later.root = (a.run before).2.root :=
    (run_evolves between hfirst.lively.coherent).2.trans (perform_root _ step)
  refine perform_again hbefore.lively ?_ hstep hlater hroot'
  rw [hroot]
  exact hbefore.grows.holds ((start_resolved hstart).1 ▸ (start_resolved hstart).2.holds)

/-- The import that could not be loaded is there by now, and the loader has a text for it. -/
theorem answer_stable_of_missing :
    ∃ a e, start {} (some (Loader.shelf [] [])) true true "a" "<link rel=import href=b>" = .ok a ∧
      let first := a.perform .tree
      let later := (first.2.run [.resolve "b" "", .insert "b" "", .load "b", .idle]).2
      first.1 = .failed e ∧ later.session.holds "b" = true ∧ later.perform .tree = (.failed e, later) := by
  let steps : List Step := [.resolve "b" "", .insert "b" "", .load "b", .idle]
  have hrun : (start {} (some (Loader.shelf [] [])) true true "a" "<link rel=import href=b>").toOption.map
      (fun a => ((a.perform .tree).1, ((a.perform .tree).2.run steps).2.session.holds "b")) =
      some (.failed (.notLoaded "b" { message := "No document registered for 'b'" }), true) := by
    decide +kernel
  cases ha : start {} (some (Loader.shelf [] [])) true true "a" "<link rel=import href=b>" with
  | error e => simp [ha, Except.toOption] at hrun
  | ok a =>
      simp only [ha, Except.toOption, Option.map_some, Option.some.injEq, Prod.mk.injEq] at hrun
      have hprompt : ∀ loader ∈ some (Loader.shelf [] []), loader.Prompt := by
        rintro _ ⟨⟩
        exact ⟨Loader.bounded_shelf [] [], fun _ => rfl⟩
      have hwalk : Step.IsWalk .tree := trivial
      have hbefore : Step.drop ∉ ([] : List Step) := List.not_mem_nil
      have hsteps : Step.drop ∉ steps := by simp [steps]
      have h := answer_stable ha hprompt hwalk hbefore hsteps
      exact ⟨a, _, rfl, hrun.1, hrun.2, hrun.1 ▸ h.2⟩

end Analysis

end ImportTree
