import ImportTree.Session.Analysis
import ImportTree.Proofs.Session.Extracts

/-!
# Steps of an analysis

Every step keeps the tables of the session coherent and loses nothing that is known. A step that does not interfere
is made of changes of the session.
-/

namespace ImportTree

open Session (Changes Walk)

/-! ## What every step keeps -/

/-- A coherent session with everything another one has. -/
structure Session.Evolves (s t : Session) : Prop extends Session.Keeps s t where
  coherent : t.Coherent
  grows : s.Grows t

theorem Session.Evolves.refl {s : Session} (hs : s.Coherent) : s.Evolves s :=
  ⟨⟨rfl, id⟩, hs, .refl s⟩

theorem Session.Evolves.trans {s t u : Session} (h₁ : s.Evolves t) (h₂ : t.Evolves u) : s.Evolves u :=
  ⟨⟨h₂.loader.trans h₁.loader, fun h => h₂.dropped (h₁.dropped h)⟩, h₂.coherent, h₁.grows.trans h₂.grows⟩

theorem Session.Evolves.of_changes {A : String → Prop} {s t : Session} (hs : s.Coherent) (h : Changes A s t) :
    s.Evolves t :=
  ⟨h.steady.keeps, hs.changes h, h.grows⟩

theorem Session.Evolves.of_retains {s t : Session} (hs : s.Coherent) (h : s.Retains t) : s.Evolves t :=
  ⟨h.toKeeps, hs.retains h, h.grows⟩

namespace Analysis

variable {A : String → Prop} {a : Analysis} {goal : Session.Goal}

@[simp] theorem answer_session {α : Type} (a : Analysis) (success : α → Answer) (w : Walk α) :
    (a.answer success w).2 = { a with session := w.2 } := by
  obtain ⟨r, s⟩ := w
  match r with
  | some (.ok _) | some (.error _) | none => rfl

theorem answer_ok {α : Type} {success : α → Answer} {w : Walk α} {value : α} (h : w.1 = some (.ok value)) :
    (a.answer success w).1 = success value := by
  obtain ⟨r, s⟩ := w
  cases h
  rfl

theorem answer_error {α : Type} {success : α → Answer} {w : Walk α} {e : AnalysisError}
    (h : w.1 = some (.error e)) : (a.answer success w).1 = .failed e := by
  obtain ⟨r, s⟩ := w
  cases h
  rfl

theorem answer_tree {w : Walk Tree} {tree : Tree} (h : (a.answer .tree w).1 = .tree tree) : w.1 = some (.ok tree) := by
  rcases w with ⟨_ | (e | tree'), s⟩ <;> cases h
  rfl

theorem answer_addresses {w : Walk (List String)} {found : List String}
    (h : (a.answer .addresses w).1 = .addresses found) : w.1 = some (.ok found) := by
  rcases w with ⟨_ | (e | found'), s⟩ <;> cases h
  rfl

theorem answer_failed {α : Type} {success : α → Answer} {w : Walk α} {e : AnalysisError}
    (h : (a.answer success w).1 = .failed e) (hsuccess : ∀ value, success value ≠ .failed e) :
    w.1 = some (.error e) := by
  rcases w with ⟨_ | (e' | value), s⟩
  · cases h
  · cases h; rfl
  · exact absurd h (hsuccess value)

@[simp] theorem ask_session {α : Type} (a : Analysis) (goal : Session.Goal) (address : String)
    (value? : Document → Option α) (success : α → Answer) :
    (a.ask goal address value? success).2 = { a with session := (a.session.await goal).2 } := by
  unfold ask
  cases a.session.await goal with
  | mk r s =>
      match r with
      | some (.error _) | none => rfl
      | some (.ok ()) =>
          dsimp only
          split <;> rfl

theorem ask_failed {α : Type} {address : String} {value? : Document → Option α} {success : α → Answer}
    {e : AnalysisError} (h : (a.ask goal address value? success).1 = .failed e)
    (hsuccess : ∀ value, success value ≠ .failed e) : (a.session.await goal).1 = some (.error e) := by
  unfold ask at h
  cases hw : a.session.await goal with
  | mk r s =>
      rw [hw] at h
      match r with
      | some (.error _) => cases h; rfl
      | none => cases h
      | some (.ok ()) =>
          dsimp only at h
          split at h
          next value _ => exact absurd h (hsuccess value)
          next => cases h

theorem perform_of_live (h : a.session.dropped = false) (step : Step) : a.perform step = a.performAnyway step := by
  rw [perform, h]
  rfl

/-! ## Steps that do not interfere -/

/-- Whether a step only asks, and only for addresses of a set. -/
def Step.Asks (A : String → Prop) : Step → Prop
  | .tree | .dependencies | .rootMetadata | .rootImports | .idle | .sleep _ => True
  | .dependenciesOf address | .metadata address | .imports address | .load address => A address
  | .resolve _ _ | .insert _ _ | .drop => False

theorem ask_changes {α : Type} (hs : a.session.Coherent) (hg : a.session.Permits A goal) (address : String)
    (value? : Document → Option α) (success : α → Answer) :
    Changes A a.session (a.ask goal address value? success).2.session := by
  rw [ask_session]
  exact (Session.await_awaited hs hg).changes

theorem performAnyway_changes {step : Step} (hs : a.session.Coherent) (hr : A a.root) (h : step.Asks A) :
    Changes A a.session (a.performAnyway step).2.session := by
  cases step with
  | tree =>
      simp only [performAnyway, answer_session]
      exact (Session.tree_does A a.root hs).changes
  | dependencies =>
      simp only [performAnyway, answer_session]
      exact (Session.dependencies_does hs (.inl hr)).changes
  | dependenciesOf address =>
      simp only [performAnyway, answer_session]
      exact (Session.dependencies_does hs (.inl h)).changes
  | rootMetadata => exact ask_changes hs (by intro b hb; cases hb) ..
  | rootImports => exact ask_changes hs (by intro b hb; cases hb) ..
  | metadata address =>
      simp only [performAnyway]
      split
      next => exact ask_changes hs (by intro b hb; cases hb) ..
      next => exact .refl
  | imports address =>
      simp only [performAnyway]
      split
      next => exact ask_changes hs (by intro b hb; cases hb) ..
      next => exact .refl
  | load address => exact ask_changes hs (by intro b hb; cases hb; exact .inl h) ..
  | idle => exact Session.idle_changes A hs
  | sleep time => exact Session.sleep_changes A hs time
  | resolve address text => exact h.elim
  | insert address text => exact h.elim
  | drop => exact h.elim

theorem perform_changes {step : Step} (hs : a.session.Coherent) (hr : A a.root) (h : step.Asks A) :
    Changes A a.session (a.perform step).2.session := by
  unfold perform
  split
  next => exact .refl
  next => exact performAnyway_changes hs hr h

theorem ask_knows {α : Type} {address : String} {value? : Document → Option α} {success : α → Answer}
    {e : AnalysisError} (hs : a.session.Coherent) (hg : a.session.Permits A goal)
    (h : (a.ask goal address value? success).1 = .failed e) (hsuccess : ∀ value, success value ≠ .failed e) :
    (a.ask goal address value? success).2.session.Knows e := by
  rw [ask_session]
  exact ((Session.await_awaited hs hg).reached (ask_failed h hsuccess)).knows

/-- An error that such a step answers is known to the session that it leaves. -/
theorem performAnyway_knows {step : Step} {e : AnalysisError} (hs : a.session.Coherent) (hr : A a.root)
    (h : step.Asks A) (he : (a.performAnyway step).1 = .failed e) : (a.performAnyway step).2.session.Knows e := by
  cases step with
  | tree =>
      simp only [performAnyway, answer_session] at he ⊢
      exact (Session.tree_does A a.root hs).failed (answer_failed he (by simp))
  | dependencies =>
      simp only [performAnyway, answer_session] at he ⊢
      exact (Session.dependencies_does hs (.inl hr)).failed (answer_failed he (by simp))
  | dependenciesOf address =>
      simp only [performAnyway, answer_session] at he ⊢
      exact (Session.dependencies_does hs (.inl h)).failed (answer_failed he (by simp))
  | rootMetadata => exact ask_knows hs (A := A) (by intro b hb; cases hb) he (by simp)
  | rootImports => exact ask_knows hs (A := A) (by intro b hb; cases hb) he (by simp)
  | metadata address =>
      simp only [performAnyway] at he ⊢
      split at he
      next hh => rw [if_pos hh]; exact ask_knows hs (A := A) (by intro b hb; cases hb) he (by simp)
      next => cases he
  | imports address =>
      simp only [performAnyway] at he ⊢
      split at he
      next hh => rw [if_pos hh]; exact ask_knows hs (A := A) (by intro b hb; cases hb) he (by simp)
      next => cases he
  | load address => exact ask_knows hs (A := A) (by intro b hb; cases hb; exact .inl h) he (by simp)
  | idle | sleep _ => cases he
  | resolve address text => exact h.elim
  | insert address text => exact h.elim
  | drop => exact h.elim

theorem performAnyway_root (a : Analysis) (step : Step) : (a.performAnyway step).2.root = a.root := by
  cases step with
  | tree | dependencies | dependenciesOf _ => simp only [performAnyway, answer_session]
  | rootMetadata | rootImports | load _ => simp only [performAnyway, ask_session]
  | metadata _ | imports _ =>
      simp only [performAnyway]
      split
      next => rw [ask_session]
      next => rfl
  | resolve address text =>
      simp only [performAnyway]
      split
      next => split <;> rfl
      next => rfl
  | idle | sleep _ | insert _ _ | drop => rfl

theorem perform_root (a : Analysis) (step : Step) : (a.perform step).2.root = a.root := by
  unfold perform
  split
  next => rfl
  next => exact performAnyway_root a step

theorem run_cons (a : Analysis) (step : Step) (steps : List Step) :
    (a.run (step :: steps)).2 = ((a.perform step).2.run steps).2 := rfl

theorem run_changes {steps : List Step} (hs : a.session.Coherent) (hr : A a.root) (h : ∀ step ∈ steps, step.Asks A) :
    Changes A a.session (a.run steps).2.session ∧ (a.run steps).2.root = a.root := by
  induction steps generalizing a with
  | nil => exact ⟨.refl, rfl⟩
  | cons step steps ih =>
      have hroot := perform_root a step
      have hc := perform_changes hs hr (h step (List.mem_cons_self ..))
      have hrest := ih (hs.changes hc) (hroot ▸ hr) fun step' hmem => h step' (List.mem_cons_of_mem _ hmem)
      rw [run_cons]
      exact ⟨hc.trans hrest.1, hrest.2.trans hroot⟩

/-! ## All steps -/

@[simp] theorem performAnyway_resolve (a : Analysis) (address text : String) :
    (a.performAnyway (.resolve address text)).2 = { a with session := (a.session.resolve address text).2 } := by
  simp only [performAnyway]
  cases a.session.resolve address text with
  | mk r t =>
      match r with
      | .error _ => rfl
      | .ok () =>
          dsimp only
          split <;> rfl

theorem performAnyway_evolves (step : Step) (hs : a.session.Coherent) :
    a.session.Evolves (a.performAnyway step).2.session := by
  have asks (h : step.Asks fun _ => True) : a.session.Evolves (a.performAnyway step).2.session :=
    .of_changes hs (performAnyway_changes hs trivial h)
  cases step with
  | tree | dependencies | dependenciesOf _ | rootMetadata | rootImports | metadata _ | imports _ | load _ | idle
  | sleep _ =>
      exact asks trivial
  | resolve address text =>
      have hr := Session.resolve_resolved a.session address text
      rw [performAnyway_resolve]
      exact ⟨hr.steady.keeps, hr.coherent hs, hr.grows⟩
  | insert address text => exact .of_retains hs (Session.retains_serve _ _)
  | drop => exact .of_retains hs (Session.retains_drop _)

theorem perform_evolves (step : Step) (hs : a.session.Coherent) : a.session.Evolves (a.perform step).2.session := by
  unfold perform
  split
  next => exact .refl hs
  next => exact performAnyway_evolves step hs

theorem run_evolves (steps : List Step) (hs : a.session.Coherent) :
    a.session.Evolves (a.run steps).2.session ∧ (a.run steps).2.root = a.root := by
  induction steps generalizing a with
  | nil => exact ⟨.refl hs, rfl⟩
  | cons step steps ih =>
      have hstep := perform_evolves step hs
      have hrest := ih hstep.coherent
      rw [run_cons]
      exact ⟨hstep.trans hrest.1, hrest.2.trans (perform_root a step)⟩

/-- What waiting, the passing of time, new texts and the end of an analysis keep. -/
structure Invariant (P : Session → Prop) : Prop where
  awaited : ∀ {s : Session} (goal : Session.Goal), P s → P (s.await goal).2
  idled : ∀ {s : Session}, P s → P s.idle
  slept : ∀ {s : Session} (time : Nat), P s → P (s.sleep time)
  resolved : ∀ {s t : Session} {address text : String} {r}, s.Resolved address text (r, t) → P s → P t
  inserted : ∀ {s : Session} (address text : String), P s → P (s.insert address text)
  dropped : ∀ {s : Session}, P s → P s.drop

variable {P : Session → Prop}

theorem perform_of_anyway {step : Step} (h : P a.session) (hstep : P (a.performAnyway step).2.session) :
    P (a.perform step).2.session := by
  unfold perform
  split
  next => exact h
  next => exact hstep

theorem performAnyway_keeps (awaited : ∀ {s : Session} (goal : Session.Goal), P s → P (s.await goal).2)
    (idled : ∀ {s : Session}, P s → P s.idle) (slept : ∀ {s : Session} (time : Nat), P s → P (s.sleep time))
    {step : Step} (hstep : step.Asks A) (h : P a.session) : P (a.performAnyway step).2.session := by
  cases step with
  | tree => simpa only [performAnyway, answer_session] using Session.tree_keeps awaited _ h
  | dependencies | dependenciesOf _ =>
      simpa only [performAnyway, answer_session] using Session.dependencies_keeps awaited _ h
  | rootMetadata | rootImports | load _ => simpa only [performAnyway, ask_session] using awaited _ h
  | metadata _ | imports _ =>
      simp only [performAnyway]
      split
      next => simpa only [ask_session] using awaited _ h
      next => exact h
  | idle => exact idled h
  | sleep time => exact slept time h
  | resolve _ _ | insert _ _ | drop => exact hstep.elim

/-- What upkeep and polls of goals keep is kept by steps that only ask. -/
theorem run_asks_keeps (hP : Session.Upkeep P)
    (polled : ∀ {s : Session} (goal : Session.Goal), P s → P (s.pollGoal goal).2)
    {steps : List Step} (hsteps : ∀ step ∈ steps, step.Asks A) (h : P a.session) : P (a.run steps).2.session := by
  induction steps generalizing a with
  | nil => exact h
  | cons step steps ih =>
      have hstep := performAnyway_keeps (P := P) (fun goal h => hP.await_keeps (polled goal) h) hP.idle hP.sleep
        (hsteps step (List.mem_cons_self ..)) h
      exact ih (fun step' hmem => hsteps step' (List.mem_cons_of_mem _ hmem)) (perform_of_anyway h hstep)

theorem Invariant.performAnyway (hP : Invariant P) (step : Step) (h : P a.session) :
    P (a.performAnyway step).2.session := by
  have asks (hstep : step.Asks fun _ => True) : P (a.performAnyway step).2.session :=
    performAnyway_keeps (P := P) hP.awaited hP.idled hP.slept hstep h
  cases step with
  | tree | dependencies | dependenciesOf _ | rootMetadata | rootImports | metadata _ | imports _ | load _ | idle
  | sleep _ =>
      exact asks trivial
  | resolve address text =>
      rw [performAnyway_resolve]
      exact hP.resolved (Session.resolve_resolved a.session address text) h
  | insert address text => exact hP.inserted address text h
  | drop => exact hP.dropped h

/-- An invariant holds after all steps. -/
theorem Invariant.run (hP : Invariant P) (steps : List Step) (h : P a.session) : P (a.run steps).2.session := by
  induction steps generalizing a with
  | nil => exact h
  | cons step steps ih => exact ih (perform_of_anyway h (hP.performAnyway step h))

/-- What changes, new texts, other loaders and the end of an analysis keep is kept by all steps. -/
theorem run_keeps {P : Session → Prop}
    (changes : ∀ {s t : Session}, s.Coherent → Changes (fun _ => True) s t → P s → P t)
    (resolved : ∀ {s t : Session} {address text : String} {r}, s.Resolved address text (r, t) → P s → P t)
    (served : ∀ {s : Session} (change : Loader → Loader), P s → P (s.serve change))
    (dropped : ∀ {s : Session}, P s → P s.drop) (steps : List Step) (hs : a.session.Coherent) (h : P a.session) :
    P (a.run steps).2.session := by
  have changed {s t : Session} (hc : Changes (fun _ => True) s t) (h : s.Coherent ∧ P s) : t.Coherent ∧ P t :=
    ⟨h.1.changes hc, changes h.1 hc h.2⟩
  have hP : Invariant fun s => s.Coherent ∧ P s := {
    awaited _ h := changed (Session.await_awaited h.1 fun _ _ => .inl trivial).changes h
    idled h := changed (Session.idle_changes _ h.1) h
    slept time h := changed (Session.sleep_changes _ h.1 time) h
    resolved hr h := ⟨hr.coherent h.1, resolved hr h.2⟩
    inserted address text h := ⟨h.1.retains (Session.retains_serve _ (·.insert address text)), served _ h.2⟩
    dropped h := ⟨h.1.retains (Session.retains_drop _), dropped h.2⟩ }
  exact (hP.run steps ⟨hs, h⟩).2

theorem run_extracts {X : Extractor → Prop} {Q : String → Structure → Extraction → Prop} (hQ : Session.Persists X Q)
    (steps : List Step) (hs : a.session.Coherent) (h : a.session.Extracts X Q) : (a.run steps).2.session.Extracts X Q :=
  run_keeps (fun _ hc h => h.changes hQ hc) (fun hr h => h.resolved hQ hr)
    (fun _ h => h.retains hQ (Session.retains_serve _ _) rfl rfl)
    (fun h => h.retains hQ (Session.retains_drop _) rfl rfl) steps hs h

/-! ## The start -/

/-- The session in which an analysis begins. -/
def blank (readers : Readers) (loader? : Option Loader) (attach eager : Bool) : Session where
  extractor := { loader?, readScript := readers.script, attach }
  readMarkup := readers.markup
  eager := eager

theorem blank_blank (readers : Readers) (loader? : Option Loader) (attach eager : Bool) :
    (blank readers loader? attach eager).Blank :=
  ⟨rfl, rfl, rfl⟩

section

variable {readers : Readers} {loader? : Option Loader} {attach eager : Bool} {root text : String}

theorem start_eq : start readers loader? attach eager root text =
    match (blank readers loader? attach eager).resolve root text with
    | (.ok (), session) => .ok ({ session, root } : Analysis)
    | (.error e, _) => .error e := rfl

/-- An analysis starts by reading its root. -/
theorem start_resolved (h : start readers loader? attach eager root text = .ok a) :
    a.root = root ∧ Session.Resolved (blank readers loader? attach eager) root text (.ok (), a.session) := by
  have hr := Session.resolve_cases (blank readers loader? attach eager) root text
  rw [start_eq] at h
  cases hc : (blank readers loader? attach eager).resolve root text with
  | mk r t =>
      rw [hc] at h hr
      match r with
      | .error e => cases h
      | .ok () => cases h; exact ⟨rfl, hr⟩

/-- An analysis that starts has its root and nothing else. -/
theorem start_read (h : start readers loader? attach eager root text = .ok a) : a.root = root ∧
    ∃ markup, readers.markup text = .ok markup ∧
      a.session = (blank readers loader? attach eager).register root markup := by
  obtain ⟨hroot, hr⟩ := start_resolved h
  refine ⟨hroot, ?_⟩
  have hblank := (blank_blank readers loader? attach eager).document? root
  generalize hs : a.session = s at hr
  cases hr with
  | there hd => cases hblank.symm.trans hd
  | read _ hm => exact ⟨_, hm, rfl⟩

theorem start_ok (readers : Readers) {m : Structure} (h : readers.markup text = .ok m) (loader? : Option Loader)
    (attach eager : Bool) (root : String) : ∃ a, start readers loader? attach eager root text = .ok a := by
  have hr := Session.resolve_cases (blank readers loader? attach eager) root text
  rw [start_eq]
  generalize (blank readers loader? attach eager).resolve root text = p at hr ⊢
  cases hr with
  | there _ => exact ⟨_, rfl⟩
  | read _ _ => exact ⟨_, rfl⟩
  | unreadable _ hf => cases h.symm.trans hf

theorem start_extracts {X : Extractor → Prop} {Q : String → Structure → Extraction → Prop} (hQ : Session.Persists X Q)
    (h : start readers loader? attach eager root text = .ok a) (hx : X (blank readers loader? attach eager).extractor) :
    a.session.Extracts X Q :=
  ((blank_blank ..).extracts hx).resolved hQ (start_resolved h).2

theorem start_coherent (h : start readers loader? attach eager root text = .ok a) : a.session.Coherent :=
  (start_resolved h).2.coherent (blank_blank ..).coherent

end

end Analysis

end ImportTree
