import ImportTree.Session.Extraction

/-!
# Polls of an extraction

What a poll of a script or of an extraction can do, what it leaves alone, and when it gives a result.
-/

namespace ImportTree

/-! ## Extractors before and after -/

/-- Nothing of an extractor changes but its registries and its log, to which only scripts are added. -/
structure Extractor.Before (x y : Extractor) : Prop where
  loader : y.loader? = x.loader?
  readScript : y.readScript = x.readScript
  attach : y.attach = x.attach
  clock : y.clock = x.clock
  log : ∃ l : List String, y.log = l.map Request.script ++ x.log

theorem Extractor.Before.refl (x : Extractor) : x.Before x :=
  ⟨rfl, rfl, rfl, rfl, [], rfl⟩

theorem Extractor.Before.trans {x y z : Extractor} (h₁ : x.Before y) (h₂ : y.Before z) : x.Before z := by
  obtain ⟨l₁, hl₁⟩ := h₁.log
  obtain ⟨l₂, hl₂⟩ := h₂.log
  refine ⟨h₂.loader.trans h₁.loader, h₂.readScript.trans h₁.readScript, h₂.attach.trans h₁.attach,
    h₂.clock.trans h₁.clock, l₂ ++ l₁, ?_⟩
  rw [hl₂, hl₁, List.map_append, List.append_assoc]

theorem Extractor.Before.request (x : Extractor) (a : String) : x.Before (x.request (.script a)) :=
  ⟨rfl, rfl, rfl, rfl, [a], rfl⟩

theorem Extractor.Before.declare (x : Extractor) (base : String) (script? : Option String) (text : String) :
    x.Before (x.declare base script? text).2 := by
  unfold Extractor.declare
  cases x.readScript text x.attach with
  | error fault => exact .refl x
  | ok m =>
      dsimp only
      split <;> exact ⟨rfl, rfl, rfl, rfl, [], rfl⟩

theorem Extractor.Before.of_declare {x y : Extractor} {base : String} {script? : Option String} {text : String}
    {r : Except AnalysisError Metadata} (h : x.declare base script? text = (r, y)) : x.Before y := by
  have := Extractor.Before.declare x base script? text
  rwa [h] at this

/-! ## One script -/

/-- A script whose text has to be requested from the loader. -/
structure Node.External (node : Node) (base a : String) : Prop where
  readable : node.isReadableScript = true
  text : node.text? = none
  source : ∃ target, node.attribute? "src" = some target ∧ Address.resolve base target = .ok a

namespace ScriptTask

variable {x y : Extractor} {base : String}

/-- The extractor that takes the response for a script: either the script was requested before, or it is now. -/
inductive Listening (x : Extractor) (base : String) : ScriptTask → String → Extractor → Prop where
  | waiting {a due} : due ≤ x.clock → Listening x base (.waiting a due) a x
  | asking {node a} : node.External base a → Listening x base (.fresh node) a (x.request (.script a))

/-- What a poll of a script does. -/
inductive Polled (x : Extractor) (base : String) :
    ScriptTask → Except AnalysisError ScriptTask × Extractor → Prop where
  | known {m} : Polled x base (.done m) (.ok (.done m), x)
  | pending {a due} : (x.loader? = none ∨ x.clock < due) → Polled x base (.waiting a due) (.ok (.waiting a due), x)
  | silent {node} : (node.isReadableScript = true → node.text? = none ∧
        (node.attribute? "src" = none ∨ x.loader? = none)) →
      Polled x base (.fresh node) (.ok (.done {}), x)
  | inline {node text r y} : node.isReadableScript = true → node.text? = some text →
      x.declare base none text = (r, y) → Polled x base (.fresh node) (r.map .done, y)
  | unresolved {node target e} {loader : Loader} : node.isReadableScript = true → node.text? = none →
      node.attribute? "src" = some target → x.loader? = some loader → Address.resolve base target = .error e →
      Polled x base (.fresh node) (.error e, x)
  | asked {node a} {loader : Loader} : node.External base a → x.loader? = some loader → 0 < loader.delay a →
      Polled x base (.fresh node) (.ok (.waiting a (x.clock + loader.delay a)), x.request (.script a))
  | failed {task a y failure} {loader : Loader} : Listening x base task a y → x.loader? = some loader →
      loader.answer a = .error failure → Polled x base task (.error (.notLoaded a failure), y)
  | answered {task a y text r z} {loader : Loader} : Listening x base task a y → x.loader? = some loader →
      loader.answer a = .ok text → y.declare base (some a) text = (r, z) → Polled x base task (r.map .done, z)
  | stuck {e} : Polled x base (.failed e) (.error e, x)

theorem receive_cases {task : ScriptTask} {a : String} {loader : Loader} (h : Listening x base task a y)
    (hl : x.loader? = some loader) : Polled x base task (receive y base a loader) := by
  unfold receive Extractor.receive
  cases hr : loader.answer a with
  | error failure => exact .failed h hl hr
  | ok text =>
      cases hd : y.declare base (some a) text with
      | mk r z =>
          have := Polled.answered h hl hr hd
          simp only [hd]
          cases r <;> exact this

theorem begin_cases (x : Extractor) (base : String) (node : Node) :
    Polled x base (.fresh node) (begin x base node) := by
  unfold begin
  cases hr : node.isReadableScript with
  | false => exact .silent (by simp [hr])
  | true =>
      cases ht : node.text? with
      | some text =>
          cases hd : x.declare base none text with
          | mk r y =>
              have := Polled.inline hr ht hd
              simp only [hd]
              cases r <;> exact this
      | none =>
          cases hs : node.attribute? "src" with
          | none => exact .silent fun _ => ⟨ht, .inl hs⟩
          | some target =>
              cases hl : x.loader? with
              | none => exact .silent fun _ => ⟨ht, .inr hl⟩
              | some loader =>
                  cases ha : Address.resolve base target with
                  | error e => simpa [ha] using Polled.unresolved hr ht hs hl ha
                  | ok a =>
                      have hx : node.External base a := ⟨hr, ht, target, hs, ha⟩
                      simp only [ha, request]
                      by_cases hz : loader.delay a = 0
                      · simp only [hz, ↓reduceIte]
                        exact receive_cases (.asking hx) hl
                      · simp only [hz, ↓reduceIte]
                        exact .asked hx hl (by omega)

theorem poll_cases (x : Extractor) (base : String) (task : ScriptTask) :
    Polled x base task (task.poll x base) := by
  cases task with
  | fresh node => exact begin_cases x base node
  | done m => exact .known
  | failed e => exact .stuck
  | waiting a due =>
      unfold poll
      cases hl : x.loader? with
      | none => exact .pending (.inl hl)
      | some loader =>
          by_cases hdue : due ≤ x.clock
          · simp only [hdue, ↓reduceIte]
            exact receive_cases (.waiting hdue) hl
          · simp only [hdue, ↓reduceIte]
            exact .pending (.inr (by omega))

theorem Listening.before {task : ScriptTask} {a : String} (h : Listening x base task a y) : x.Before y := by
  cases h with
  | waiting _ => exact .refl x
  | asking _ => exact .request x a

theorem Polled.before {task : ScriptTask} {r : Except AnalysisError ScriptTask} (h : Polled x base task (r, y)) :
    x.Before y := by
  cases h with
  | known => exact .refl x
  | pending _ => exact .refl x
  | silent _ => exact .refl x
  | inline _ _ hd => exact .of_declare hd
  | unresolved _ _ _ _ _ => exact .refl x
  | asked _ _ _ => exact .request x _
  | failed h _ _ => exact h.before
  | answered h _ _ hd => exact h.before.trans (.of_declare hd)
  | stuck => exact .refl x

/-- Nothing becomes of a script that has failed. -/
theorem Polled.failed_eq {e : AnalysisError} {r : Except AnalysisError ScriptTask}
    (h : Polled x base (.failed e) (r, y)) : r = .error e := by
  generalize hp : (r, y) = p at h
  cases h with
  | stuck => cases hp; rfl
  | failed hl _ _ | answered hl _ _ _ => cases hl

/-- What becomes of a script behind so many that are not done. -/
inductive Advanced (x : Extractor) (base : String) (pending : Nat) (task : ScriptTask) :
    ScriptTask × Extractor → Prop where
  | polled {task' y} : task.Polled x base (.ok task', y) → Advanced x base pending task (task', y)
  | held {e y} : 0 < pending → task.Polled x base (.error e, y) → Advanced x base pending task (.failed e, y)

theorem Advanced.before {task task' : ScriptTask} {pending : Nat} (h : task.Advanced x base pending (task', y)) :
    x.Before y := by
  cases h with
  | polled h | held _ h => exact h.before

theorem Advanced.failed {e : AnalysisError} {task' : ScriptTask} {pending : Nat}
    (h : Advanced x base pending (.failed e) (task', y)) : task' = .failed e := by
  cases h with
  | polled h => cases h.failed_eq
  | held _ h => cases h.failed_eq; rfl

/-- A failure that is not held back is that of a poll. -/
theorem advance_cases (x : Extractor) (base : String) (count pending : Nat) (task : ScriptTask) :
    (∃ e y, task.advance x base count pending = (.error e, y) ∧ task.Polled x base (.error e, y)) ∨
      ∃ task' y, task.advance x base count pending = (.ok task', y) ∧ task.Advanced x base pending (task', y) := by
  have hp := poll_cases x base task
  unfold advance
  rcases hc : task.poll x base with ⟨e | task', y⟩ <;> rw [hc] at hp
  · simp only
    split
    next => exact .inl ⟨e, y, rfl, hp⟩
    next hn =>
      refine .inr ⟨.failed e, y, rfl, .held (Nat.pos_of_ne_zero ?_) hp⟩
      rintro rfl
      exact hn (y.joining.prompt count)
  · exact .inr ⟨task', y, rfl, .polled hp⟩

/-! ## Ripeness of a script -/

/-- A script that has begun, and waits for nothing later than a time. -/
def Ripe (time : Nat) : ScriptTask → Prop
  | .fresh _ => False
  | .waiting _ due => due ≤ time
  | .done _ | .failed _ => True

theorem Ripe.mono {task : ScriptTask} {time time' : Nat} (h : task.Ripe time) (ht : time ≤ time') :
    task.Ripe time' := by
  cases task with
  | fresh node => exact h
  | waiting a due => exact Nat.le_trans h ht
  | done m | failed e => trivial

theorem Polled.ripe {task task' : ScriptTask} {time : Nat} (h : Polled x base task (.ok task', y))
    (ht : task.Ripe time) : task'.Ripe time := by
  generalize hr : (Except.ok task', y) = r at h
  cases h with
  | known => cases hr; exact ht
  | pending _ => cases hr; exact ht
  | silent _ => cases ht
  | inline _ _ _ => cases ht
  | unresolved _ _ _ _ _ => cases ht
  | asked _ _ _ => cases ht
  | failed _ _ _ | stuck => cases hr
  | @answered _ _ _ _ r _ _ _ _ _ _ => cases r <;> cases hr; trivial

/-- Once nothing is awaited any more, a poll ends a script. -/
theorem Polled.done {task task' : ScriptTask} {loader : Loader} (h : Polled x base task (.ok task', y))
    (hl : x.loader? = some loader) (ht : task.Ripe x.clock) : ∃ m, task' = .done m := by
  generalize hr : (Except.ok task', y) = r at h
  cases h with
  | @known m => cases hr; exact ⟨m, rfl⟩
  | pending hp =>
      rcases hp with hp | hp
      · rw [hl] at hp; cases hp
      · exact absurd hp (Nat.not_lt.mpr ht)
  | silent _ => cases ht
  | inline _ _ _ => cases ht
  | unresolved _ _ _ _ _ => cases ht
  | asked _ _ _ => cases ht
  | failed _ _ _ | stuck => cases hr
  | @answered _ _ _ _ r _ _ _ _ _ _ => cases r <;> cases hr; exact ⟨_, rfl⟩

/-- A script that has been polled has begun. -/
theorem Polled.begun {task : ScriptTask} {node : Node} (h : Polled x base task (.ok (.fresh node), y)) : False := by
  generalize hr : (Except.ok (ScriptTask.fresh node), y) = r at h
  cases h with
  | known => cases hr
  | pending _ => cases hr
  | silent _ => cases hr
  | @inline _ _ r _ _ _ _ => cases r <;> cases hr
  | unresolved _ _ _ _ _ => cases hr
  | asked _ _ _ => cases hr
  | failed _ _ _ | stuck => cases hr
  | @answered _ _ _ _ r _ _ _ _ _ _ => cases r <;> cases hr

end ScriptTask

/-! ## All scripts of a document -/

namespace Extraction

/-- What a poll of scripts in order does, behind so many that are not done. -/
inductive TasksPolled (base : String) :
    Nat → Extractor → List ScriptTask → Except AnalysisError (List ScriptTask) × Extractor → Prop where
  | nil {pending x} : TasksPolled base pending x [] (.ok [], x)
  | failed {pending x y e} {task : ScriptTask} {tasks} : task.Polled x base (.error e, y) →
      TasksPolled base pending x (task :: tasks) (.error e, y)
  | cons {pending x y z r} {task task' : ScriptTask} {tasks} : task.Advanced x base pending (task', y) →
      TasksPolled base (if task'.isDone then pending else pending + 1) y tasks (r, z) →
      TasksPolled base pending x (task :: tasks) (r.map (task' :: ·), z)

theorem pollTasks_cases (base : String) (count pending : Nat) (tasks : List ScriptTask) (x : Extractor) :
    TasksPolled base pending x tasks (pollTasks x base count pending tasks) := by
  induction tasks generalizing x pending with
  | nil => exact .nil
  | cons task tasks ih =>
      unfold pollTasks
      rcases ScriptTask.advance_cases x base count pending task with ⟨e, y, hc, hp⟩ | ⟨task', y, hc, hp⟩ <;> rw [hc]
      · exact .failed hp
      · have ht := ih (if task'.isDone then pending else pending + 1) y
        cases hs : pollTasks y base count (if task'.isDone then pending else pending + 1) tasks with
        | mk r z =>
            rw [hs] at ht
            have := TasksPolled.cons hp ht
            simp only [hs]
            cases r <;> exact this

variable {x y : Extractor} {base : String} {pending : Nat}

theorem TasksPolled.before {tasks : List ScriptTask} {r : Except AnalysisError (List ScriptTask)}
    (h : TasksPolled base pending x tasks (r, y)) : x.Before y := by
  generalize hr : (r, y) = p at h
  induction h generalizing r with
  | nil => cases hr; exact .refl _
  | failed hp => cases hr; exact hp.before
  | cons hp _ ih => cases hr; exact hp.before.trans (ih rfl)

/-- What a poll of an extraction does. -/
inductive Polled (x : Extractor) (base : String) : Extraction → Extraction × Extractor → Prop where
  | known {r} : Polled x base (.done r) (.done r, x)
  | failed {tasks e y} : TasksPolled base 0 x tasks (.error e, y) →
      Polled x base (.running tasks) (.done (.error e), y)
  | finished {tasks tasks' m y} : TasksPolled base 0 x tasks (.ok tasks', y) → gather? tasks' = some m →
      Polled x base (.running tasks) (.done (.ok m), y)
  | running {tasks tasks' y} : TasksPolled base 0 x tasks (.ok tasks', y) → gather? tasks' = none →
      Polled x base (.running tasks) (.running tasks', y)

theorem poll_cases (x : Extractor) (base : String) (extraction : Extraction) :
    Polled x base extraction (extraction.poll x base) := by
  cases extraction with
  | done r => exact .known
  | running tasks =>
      have h := pollTasks_cases base tasks.length 0 tasks x
      unfold poll
      cases hp : pollTasks x base tasks.length 0 tasks with
      | mk r y =>
          rw [hp] at h
          cases r with
          | error e => simpa only [hp] using Polled.failed h
          | ok tasks' =>
              cases hg : gather? tasks' with
              | some m => simpa only [hp, hg] using Polled.finished h hg
              | none => simpa only [hp, hg] using Polled.running h hg

theorem Polled.before {e e' : Extraction} (h : Polled x base e (e', y)) : x.Before y := by
  cases h with
  | known => exact .refl x
  | failed h => exact h.before
  | finished h _ => exact h.before
  | running h _ => exact h.before

/-! ## Ripeness of an extraction -/

/-- An extraction that has begun, and waits for nothing later than a time. -/
def Ripe (time : Nat) : Extraction → Prop
  | .running tasks => ∀ task ∈ tasks, task.Ripe time
  | .done _ => True

theorem Ripe.mono {e : Extraction} {time time' : Nat} (h : e.Ripe time) (ht : time ≤ time') : e.Ripe time' := by
  cases e with
  | running tasks => exact fun task hmem => (h task hmem).mono ht
  | done r => trivial

theorem TasksPolled.forall_ok {P Q : ScriptTask → Prop} {tasks tasks' : List ScriptTask}
    (h : TasksPolled base pending x tasks (.ok tasks', y)) (hP : ∀ task ∈ tasks, P task)
    (hstep : ∀ {x' y' : Extractor} {task task' : ScriptTask}, x.Before x' → task.Polled x' base (.ok task', y') →
      P task → Q task') (hheld : ∀ e, Q (.failed e)) : ∀ task' ∈ tasks', Q task' := by
  generalize hr : (Except.ok tasks', y) = p at h
  induction h generalizing tasks' with
  | nil => cases hr; simp
  | failed _ => cases hr
  | @cons _ x y z r task task' tasks hp _ ih =>
      cases r with
      | error e => cases hr
      | ok rest =>
          cases hr
          refine List.forall_mem_cons.mpr ⟨?_, ih (fun t ht => hP t (List.mem_cons_of_mem _ ht))
            (fun hb => hstep (hp.before.trans hb)) rfl⟩
          cases hp with
          | polled hp => exact hstep (.refl _) hp (hP _ (List.mem_cons_self ..))
          | held _ _ => exact hheld _

/-- Where each script ends that does not fail, no failure is held back. -/
theorem TasksPolled.forall_done {P : ScriptTask → Prop} {tasks tasks' : List ScriptTask}
    (h : TasksPolled base 0 x tasks (.ok tasks', y)) (hP : ∀ task ∈ tasks, P task)
    (hstep : ∀ {x' y' : Extractor} {task task' : ScriptTask}, x.Before x' → task.Polled x' base (.ok task', y') →
      P task → ∃ m, task' = .done m) : ∀ task' ∈ tasks', ∃ m, task' = .done m := by
  generalize hr : (Except.ok tasks', y) = p at h
  generalize hpending : 0 = pending at h
  induction h generalizing tasks' with
  | nil => cases hr; simp
  | failed _ => cases hr
  | @cons _ x y z r task task' tasks hp _ ih =>
      cases r with
      | error e => cases hr
      | ok rest =>
          cases hr
          subst hpending
          cases hp with
          | held hpos _ => exact absurd hpos (Nat.lt_irrefl 0)
          | polled hp =>
              obtain ⟨m, rfl⟩ := hstep (.refl _) hp (hP _ (List.mem_cons_self ..))
              exact List.forall_mem_cons.mpr ⟨⟨m, rfl⟩, ih (fun t ht => hP t (List.mem_cons_of_mem _ ht))
                (fun hb => hstep (hp.before.trans hb)) rfl rfl⟩

theorem gather?_isSome {tasks : List ScriptTask} (h : ∀ task ∈ tasks, ∃ m, task = .done m) :
    ∃ m, gather? tasks = some m := by
  induction tasks with
  | nil => exact ⟨{}, rfl⟩
  | cons task tasks ih =>
      obtain ⟨m, rfl⟩ := h task (List.mem_cons_self ..)
      obtain ⟨m', hm'⟩ := ih fun t ht => h t (List.mem_cons_of_mem _ ht)
      exact ⟨m.append m', by simp [gather?, hm']⟩

theorem Polled.ripe {e e' : Extraction} {time : Nat} (h : Polled x base e (e', y)) (he : e.Ripe time) :
    e'.Ripe time := by
  cases h with
  | known => exact he
  | failed _ => trivial
  | finished _ _ => trivial
  | running h _ => exact h.forall_ok he (fun _ hp ht => hp.ripe ht) fun _ => trivial

/-- Once nothing is awaited any more, a poll ends an extraction. -/
theorem Polled.done {e e' : Extraction} {loader : Loader} (h : Polled x base e (e', y))
    (hl : x.loader? = some loader) (he : e.Ripe x.clock) : ∃ r, e' = .done r := by
  cases h with
  | @known r => exact ⟨r, rfl⟩
  | failed _ => exact ⟨_, rfl⟩
  | finished _ _ => exact ⟨_, rfl⟩
  | running h hg =>
      have hdone := h.forall_done he fun hb hp ht => hp.done (hb.loader.trans hl) (hb.clock ▸ ht)
      obtain ⟨m, hm⟩ := gather?_isSome hdone
      rw [hg] at hm; cases hm

/-- An extraction that has been polled has begun. -/
theorem Polled.begun {e e' : Extraction} (h : Polled x base e (e', y)) : ∃ time, e'.Ripe time := by
  cases h with
  | known => exact ⟨0, trivial⟩
  | failed _ => exact ⟨0, trivial⟩
  | finished _ _ => exact ⟨0, trivial⟩
  | @running _ tasks _ h _ =>
      have hbegun := h.forall_ok (P := fun _ => True) (Q := fun t => ∀ node, t ≠ .fresh node)
        (fun _ _ => trivial) (fun _ hp _ node he => (he ▸ hp).begun) nofun
      refine ⟨(tasks.filterMap ScriptTask.due?).max?.getD 0, fun task hmem => ?_⟩
      cases task with
      | fresh node => exact absurd rfl (hbegun _ hmem node)
      | done m | failed e => trivial
      | waiting a due => exact List.le_max?_getD_of_mem (List.mem_filterMap.mpr ⟨_, hmem, rfl⟩)

/-- An extraction that has begun waits at most for the last of the responses it still expects. -/
theorem Ripe.of_dues {e : Extraction} {time time' : Nat} (h : e.Ripe time) (ht : ∀ due ∈ e.dues, due ≤ time') :
    e.Ripe time' := by
  cases e with
  | done r => trivial
  | running tasks =>
      intro task hmem
      have hr := h task hmem
      cases task with
      | fresh node => cases hr
      | done m | failed e => trivial
      | waiting a due => exact ht due (List.mem_filterMap.mpr ⟨_, hmem, rfl⟩)

theorem Polled.result {e e' : Extraction} {r : Except AnalysisError Metadata} (h : Polled x base e (e', y))
    (he : e = .done r) : e' = .done r := by
  cases h with
  | known => exact he
  | failed _ => cases he
  | finished _ _ => cases he
  | running _ _ => cases he

/-! ## Failures -/

/-- Whether a script has failed, even if that is held back. -/
def Failing : Extraction → Prop
  | .running tasks => ∃ e, .failed e ∈ tasks
  | .done r => ∃ e, r = .error e

theorem TasksPolled.failing {tasks tasks' : List ScriptTask} {e : AnalysisError}
    (h : TasksPolled base pending x tasks (.ok tasks', y)) (he : .failed e ∈ tasks) : .failed e ∈ tasks' := by
  generalize hr : (Except.ok tasks', y) = p at h
  induction h generalizing tasks' with
  | nil => cases he
  | failed _ => cases hr
  | @cons _ _ _ _ r task task' _ hp _ ih =>
      cases r with
      | error e => cases hr
      | ok rest =>
          cases hr
          rcases List.mem_cons.mp he with rfl | he
          · exact hp.failed ▸ List.mem_cons_self ..
          · exact List.mem_cons_of_mem _ (ih he rfl)

theorem gather?_failed {tasks : List ScriptTask} {e : AnalysisError} (h : .failed e ∈ tasks) :
    gather? tasks = none := by
  induction tasks with
  | nil => cases h
  | cons task tasks ih =>
      cases task with
      | done m => simp [gather?, ih (by simpa using h)]
      | fresh _ | waiting _ _ | failed _ => rfl

theorem Polled.failing {e e' : Extraction} (h : e.Polled x base (e', y)) (he : e.Failing) : e'.Failing := by
  cases h with
  | known => exact he
  | failed _ => exact ⟨_, rfl⟩
  | finished h hg =>
      obtain ⟨error, herror⟩ := he
      rw [gather?_failed (h.failing herror)] at hg
      cases hg
  | running h _ => exact he.imp fun _ => h.failing

end Extraction

end ImportTree
