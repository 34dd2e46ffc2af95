import ImportTree.Proofs.Session.Polls

/-!
# Time as changes

Background work, the passing of time and waiting for a goal are made of changes of the session, and keep what these
keep. What a goal answers is known to the session that it leaves.
-/

namespace ImportTree.Session

variable {A : String → Prop} {s t : Session} {goal : Goal}

/-! ## Background -/

/-- What polls of imports and new queues keep is kept by background work. -/
theorem drain_keeps {P : Session → Prop} (imported : ∀ {s : Session} (a : String), P s → P (s.pollImports a).2)
    (queued : ∀ {s : Session} (queue : List String), P s → P { s with queue := queue }) (n : Nat)
    (parked : List String) (h : P s) : P (drain n parked s) := by
  induction n generalizing parked s with
  | zero => exact queued _ h
  | succ n ih =>
      unfold drain
      cases hq : s.queue with
      | nil => exact queued _ h
      | cons a rest =>
          have hi := imported a (queued rest h)
          dsimp only
          cases hc : ({ s with queue := rest } : Session).pollImports a with
          | mk r t =>
              rw [hc] at hi
              cases r with
              | some _ => exact ih parked hi
              | none => exact ih (parked ++ [a]) hi

theorem drain_polls (A : String → Prop) (n : Nat) (parked : List String) (hs : s.Coherent) :
    Polls A s (drain n parked s) := by
  refine (drain_keeps (P := fun t => t.Coherent ∧ Polls A s t) ?_ ?_ n parked ⟨hs, .refl⟩).2
  · intro t a ⟨ht, hp⟩
    have hi := (pollImports_imported A ht a).polls
    exact ⟨ht.polls hi, hp.trans hi⟩
  · intro t queue ⟨ht, hp⟩
    have hq : Poll A t { t with queue := queue } := .queue
    exact ⟨ht.polls (.single hq), hp.tail hq⟩

theorem work_polls (A : String → Prop) (hs : s.Coherent) : Polls A s s.work :=
  drain_polls A _ [] hs

theorem work_coherent (hs : s.Coherent) : s.work.Coherent :=
  hs.polls (work_polls (fun _ => True) hs)

theorem clock_work (hs : s.Coherent) : s.work.clock = s.clock :=
  (work_polls (fun _ => True) hs).clock

theorem clock_lt_dues {due : Nat} (h : due ∈ s.dues) : s.clock < due := by
  simpa using (List.mem_filter.mp h).2

/-! ## Upkeep -/

/-- Whether background work and the passing of time keep a property. -/
structure Upkeep (P : Session → Prop) : Prop where
  coherent : ∀ {s : Session}, P s → s.Coherent
  worked : ∀ {s : Session}, P s → P s.work
  advanced : ∀ {s : Session} {time : Nat}, s.clock ≤ time → P s → P (s.advance time)

section

variable {P : Session → Prop}

theorem Upkeep.workTo (hP : Upkeep P) (h : P s) {time : Nat} (ht : s.clock ≤ time) : P (s.work.advance time) :=
  hP.advanced (by rwa [clock_work (hP.coherent h)]) (hP.worked h)

theorem Upkeep.workToDue (hP : Upkeep P) (h : P s) {due : Nat} (hdue : s.work.dues.min? = some due) :
    P (s.work.advance due) :=
  hP.advanced (Nat.le_of_lt (clock_lt_dues (List.min?_eq_some_iff.mp hdue).1)) (hP.worked h)

theorem Upkeep.pass (hP : Upkeep P) (h : P s) : P s.pass := by
  unfold Session.pass
  split
  next due hdue => exact hP.workToDue h hdue
  next => exact hP.worked h

theorem Upkeep.runTo (hP : Upkeep P) {deadline : Nat} (n : Nat) (h : P s) (hd : s.clock ≤ deadline) :
    P (runTo deadline n s) := by
  induction n generalizing s with
  | zero => exact hP.workTo h hd
  | succ n ih =>
      unfold Session.runTo
      split
      next due hdue =>
        split
        next hle => exact ih (hP.workToDue h hdue) hle
        next => exact hP.workTo h hd
      next => exact hP.workTo h hd

theorem Upkeep.sleep (hP : Upkeep P) (time : Nat) (h : P s) : P (s.sleep time) :=
  hP.runTo _ h (Nat.le_add_right ..)

theorem Upkeep.idleFor (hP : Upkeep P) (n : Nat) (h : P s) : P (idleFor n s) := by
  induction n generalizing s with
  | zero => exact hP.worked h
  | succ n ih =>
      simp only [Session.idleFor]
      split
      next => exact hP.worked h
      next => exact ih (hP.sleep _ (hP.worked h))

theorem Upkeep.idle (hP : Upkeep P) (h : P s) : P s.idle :=
  hP.idleFor _ h

section

variable {Q : Except AnalysisError Unit → Session → Prop} (polled : ∀ {s : Session}, P s →
  P (s.pollGoal goal).2 ∧ ∀ {r}, (s.pollGoal goal).1 = some r → Q r (s.pollGoal goal).2)

include polled

/-- What the first poll of a goal brings about, and every further one keeps, holds once the goal is reached. -/
theorem Upkeep.await_polled (hP : Upkeep P)
    (h : P (s.pollGoal goal).2 ∧ ∀ {r}, (s.pollGoal goal).1 = some r → Q r (s.pollGoal goal).2) :
    P (s.await goal).2 ∧ ∀ {r}, (s.await goal).1 = some r → Q r (s.await goal).2 := by
  have awaited (n : Nat) {s : Session} (h : P s) :
      P (awaitFor goal n s).2 ∧ ∀ {r}, (awaitFor goal n s).1 = some r → Q r (awaitFor goal n s).2 := by
    induction n generalizing s with
    | zero => exact polled h
    | succ n ih =>
        have hp := polled h
        unfold awaitFor
        generalize s.pollGoal goal = p at hp
        obtain ⟨_ | _, t⟩ := p
        · exact ih (hP.pass hp.1)
        · exact hp
  unfold Session.await
  generalize s.pollGoal goal = p at h
  obtain ⟨_ | _, t⟩ := p
  · exact awaited _ (hP.pass h.1)
  · exact h

theorem Upkeep.await (hP : Upkeep P) (h : P s) :
    P (s.await goal).2 ∧ ∀ {r}, (s.await goal).1 = some r → Q r (s.await goal).2 :=
  hP.await_polled polled (polled h)

end

theorem Upkeep.await_polled_keeps (hP : Upkeep P) (polled : ∀ {s : Session}, P s → P (s.pollGoal goal).2)
    (h : P (s.pollGoal goal).2) : P (s.await goal).2 :=
  (hP.await_polled (Q := fun _ _ => True) (fun h => ⟨polled h, fun _ => trivial⟩) ⟨h, fun _ => trivial⟩).1

theorem Upkeep.await_keeps (hP : Upkeep P) (polled : ∀ {s : Session}, P s → P (s.pollGoal goal).2) (h : P s) :
    P (s.await goal).2 :=
  hP.await_polled_keeps polled (polled h)

end

/-! ## Upkeep as changes -/

theorem changes_upkeep (A : String → Prop) (s : Session) : Upkeep fun t => t.Coherent ∧ Changes A s t where
  coherent h := h.1
  worked h := ⟨work_coherent h.1, h.2.trans (work_polls A h.1).changes⟩
  advanced ht h := ⟨h.1.change (A := A) (.advance ht), h.2.tail (.advance ht)⟩

/-- What is known is kept besides. -/
theorem Upkeep.knowing {P R : Session → Prop} (hP : Upkeep P) (grows : ∀ {s t : Session}, s.Grows t → R s → R t) :
    Upkeep fun s => P s ∧ R s where
  coherent h := hP.coherent h.1
  worked h := ⟨hP.worked h.1, grows (work_polls (fun _ => True) (hP.coherent h.1)).changes.grows h.2⟩
  advanced ht h := ⟨hP.advanced ht h.1, grows (Change.advance (A := fun _ => True) ht).grows h.2⟩

theorem pass_changes (A : String → Prop) (hs : s.Coherent) : Changes A s s.pass :=
  ((changes_upkeep A s).pass ⟨hs, .refl⟩).2

theorem sleep_changes (A : String → Prop) (hs : s.Coherent) (time : Nat) : Changes A s (s.sleep time) :=
  ((changes_upkeep A s).sleep time ⟨hs, .refl⟩).2

theorem idle_changes (A : String → Prop) (hs : s.Coherent) : Changes A s s.idle :=
  ((changes_upkeep A s).idle ⟨hs, .refl⟩).2

/-! ## Foreground -/

/-- Whether whatever a goal loads is wanted. -/
def Permits (A : String → Prop) (s : Session) (goal : Goal) : Prop :=
  ∀ a, goal = .load a → s.Wanted A a

theorem Permits.grows (h : s.Permits A goal) (hg : s.Grows t) : t.Permits A goal :=
  fun a ha => (h a ha).grows hg

/-- What waiting for a goal does. -/
structure Awaited (A : String → Prop) (s : Session) (goal : Goal) (p : Option (Except AnalysisError Unit) × Session) :
    Prop where
  changes : Changes A s p.2
  reached : ∀ {r}, p.1 = some r → p.2.Reached goal r

theorem await_awaited (hs : s.Coherent) (hg : s.Permits A goal) : Awaited A s goal (s.await goal) := by
  have polled {t : Session} (ht : t.Coherent ∧ Changes A s t) : (t.pollGoal goal).2.Coherent ∧
      Changes A s (t.pollGoal goal).2 ∧ ∀ {r}, (t.pollGoal goal).1 = some r → (t.pollGoal goal).2.Reached goal r := by
    have hp := pollGoal_advanced ht.1 (hg.grows ht.2.grows)
    exact ⟨ht.1.polls hp.polls, ht.2.trans hp.polls.changes, hp.reached⟩
  have hw := (changes_upkeep A s).await (Q := fun r t => t.Reached goal r)
    (fun ht => ⟨⟨(polled ht).1, (polled ht).2.1⟩, (polled ht).2.2⟩) ⟨hs, .refl⟩
  exact ⟨hw.1.2, hw.2⟩

end ImportTree.Session
