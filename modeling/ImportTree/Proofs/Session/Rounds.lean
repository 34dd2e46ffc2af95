import ImportTree.Proofs.Session.Arrival

/-!
# Rounds

An extraction polls its scripts each time a text comes. A round reads those that are ready, in script order, up to a
failure that is reported. A failure that is held back is reported in a later round, and scripts behind it are read in
the meantime.
-/

namespace ImportTree

/-! ## One script -/

namespace ScriptTask

open Extractor (Turn content_of_fault?_none enroll_resume exists_of_wait_pos taken_concat)

variable {x y : Extractor} {base : String} {node : Node} {read : List Node} {task task' : ScriptTask} {t t' clock : Nat}
  {ready : Node → Bool} {log : List Request}

/-- What a poll gives that leaves a script so. -/
def outcome : ScriptTask → Except AnalysisError ScriptTask
  | .failed e => .error e
  | task => .ok task

def error? : ScriptTask → Option AnalysisError
  | .failed e => some e
  | _ => none

/-- A failure is either reported or held back. -/
theorem advance_outcome (h : task.poll x base = (task'.outcome, y)) (count pending : Nat) :
    (∃ e, task' = .failed e ∧ y.joining.reports count pending = true ∧
      task.advance x base count pending = (.error e, y)) ∨
    (∀ e, task' = .failed e → y.joining.reports count pending = false) ∧
      task.advance x base count pending = (.ok task', y) := by
  cases task' with
  | fresh _ | waiting _ _ | done _ => exact .inr ⟨by simp, Extraction.advance_ok h count pending⟩
  | failed e =>
      rw [advance, h]
      cases hr : y.joining.reports count pending with
      | true => exact .inl ⟨e, rfl, rfl, by simp only [outcome, hr, if_true]⟩
      | false => exact .inr ⟨fun _ _ => rfl, by simp [outcome, hr]⟩

/-- How far a script has come once it has been polled at a time, counted from the beginning. -/
inductive At (x : Extractor) (base : String) (read : List Node) (time : Nat) (node : Node) : ScriptTask → Prop where
  | done {m : Metadata} : x.wait base node ≤ time → x.content base node = .ok m → x.Turn base read node none →
      At x base read time node (.done m)
  | waiting {a : String} : node.External base a → time < x.wait base node →
      At x base read time node (.waiting a (x.clock + x.wait base node))
  | failed {e : AnalysisError} : x.wait base node ≤ time → x.Turn base read node (some e) →
      At x base read time node (.failed e)

theorem At.append (h : At x base read t node task) (more : List Node) : At x base (read ++ more) t node task := by
  cases h with
  | done hw hm ht => exact .done hw hm (ht.append more)
  | waiting hx hw => exact .waiting hx hw
  | failed hw ht => exact .failed hw (ht.append more)

/-- What becomes of a script that is polled at a time behind others that were read. -/
structure Moved (x : Extractor) (base : String) (t : Nat) (ready : Node → Bool) (read : List Node) (node : Node)
    (task task' : ScriptTask) : Prop where
  reached : At x base (read ++ [node].filter ready) t node task'
  read : ready node = true → x.fault? base read node = task'.error?
  idle : ready node = false → task'.isDone = task.isDone ∧ ∀ e, task' = .failed e → task = .failed e

theorem Moved.clean (h : Moved x base t ready read node task task') (hne : ∀ e, task' ≠ .failed e)
    (hread : (x.taken base read).2 = none) : (x.taken base (read ++ [node].filter ready)).2 = none := by
  cases hr : ready node with
  | false => simpa [hr] using hread
  | true =>
      have hfault := h.read hr
      have hnone : task'.error? = none := by
        cases task' with
        | failed e => exact absurd rfl (hne e)
        | fresh _ | waiting _ _ | done _ => rfl
      rw [List.filter_cons_of_pos hr, List.filter_nil, taken_concat hread]
      exact hfault.trans hnone

/-- A script that is ready is read. -/
theorem moved_ready (log' : List Request) (hr : ready node = true) (hw : x.wait base node ≤ t)
    (hp : task.poll (x.resume clock (x.afterAll base read) log) base =
      ended ((x.resume clock (x.afterAll base read) log').enroll (x.content base node))) :
    ∃ task' log', task.poll (x.resume clock (x.afterAll base read) log) base =
        (task'.outcome, x.resume clock (x.afterAll base (read ++ [node].filter ready)) log') ∧
      Moved x base t ready read node task task' := by
  have hfilter : [node].filter ready = [node] := by simp [hr]
  rw [enroll_resume] at hp
  cases hf : x.fault? base read node with
  | none =>
      obtain ⟨m, hm⟩ := content_of_fault?_none hf
      rw [hf, hm] at hp
      refine ⟨.done m, log', by rw [hfilter]; exact hp, ?_, fun _ => hf, by simp [hr]⟩
      rw [hfilter]
      exact .done hw hm (hf ▸ Turn.last x base read node)
  | some e =>
      rw [hf] at hp
      refine ⟨.failed e, log', by rw [hfilter]; exact hp, ?_, fun _ => hf, by simp [hr]⟩
      rw [hfilter]
      exact .failed hw (hf ▸ Turn.last x base read node)

/-- A script that is not ready stays as it is. -/
theorem moved_idle (log' : List Request) (hr : ready node = false) (h : At x base read t node task')
    (hdone : task'.isDone = task.isDone) (hfailed : ∀ e, task' = .failed e → task = .failed e)
    (hp : task.poll (x.resume clock (x.afterAll base read) log) base =
      (task'.outcome, x.resume clock (x.afterAll base read) log')) :
    ∃ task' log', task.poll (x.resume clock (x.afterAll base read) log) base =
        (task'.outcome, x.resume clock (x.afterAll base (read ++ [node].filter ready)) log') ∧
      Moved x base t ready read node task task' := by
  have hfilter : read ++ [node].filter ready = read := by simp [hr]
  refine ⟨task', log', by rw [hfilter]; exact hp, ?_, by simp [hr], fun _ => ⟨hdone, hfailed⟩⟩
  rw [hfilter]
  exact h

/-- What a poll at a time does to scripts: those that are ready are read, and the others stay. -/
structure Round (x : Extractor) (base : String) (t : Nat) (ready : Node → Bool)
    (before : List Node → Node → ScriptTask → Prop) : Prop where
  polls : ∀ {read node task} (log : List Request), before read node task → ∃ task' log',
    task.poll (x.resume (x.clock + t) (x.afterAll base read) log) base =
        (task'.outcome, x.resume (x.clock + t) (x.afterAll base (read ++ [node].filter ready)) log') ∧
      Moved x base t ready read node task task'
  grows : ∀ {read node task} (more : List Node), before read node task → before (read ++ more) node task

/-- The first poll: scripts whose texts are there are read, and other texts are requested. -/
theorem round_begin (x : Extractor) (base : String) :
    Round x base 0 (fun node => x.wait base node ≤ 0) (fun _ node task => task = .fresh node) where
  polls {read node task} log := by
    rintro rfl
    by_cases hw : x.wait base node ≤ 0
    · exact moved_ready _ (decide_eq_true hw) hw (begin_eq (Nat.le_zero.mp hw))
    · obtain ⟨loader, a, hl, hx, hwait⟩ := exists_of_wait_pos (Nat.lt_of_not_le hw)
      have hp : begin (x.resume (x.clock + 0) (x.afterAll base read) log) base node = _ :=
        begin_waiting hx hl (hwait ▸ Nat.lt_of_not_le hw)
      rw [← hwait] at hp
      exact moved_idle _ (decide_eq_false hw) (.waiting hx (Nat.lt_of_not_le hw)) rfl (by simp) hp
  grows _ h := h

/-- A later poll: texts that have come since are read. -/
theorem round_resume (x : Extractor) (base : String) (ht : t ≤ t') :
    Round x base t' (fun node => t < x.wait base node ∧ x.wait base node ≤ t') (At x base · t) where
  polls {read node task} log := by
    rintro (⟨hle, hm, hturn⟩ | ⟨hx, hlt⟩ | ⟨hle, hturn⟩)
    · exact moved_idle log (decide_eq_false fun h => Nat.not_lt.mpr hle h.1) (.done (hle.trans ht) hm hturn) rfl
        (by simp) rfl
    · obtain ⟨loader, _, hl, _, _⟩ := exists_of_wait_pos (Nat.zero_lt_of_lt hlt)
      have hl' : (x.resume (x.clock + t') (x.afterAll base read) log).loader? = some loader := hl
      by_cases hle : x.wait base node ≤ t'
      · have hdue : x.clock + x.wait base node ≤ (x.resume (x.clock + t') (x.afterAll base read) log).clock :=
          Nat.add_le_add_left hle _
        refine moved_ready log (decide_eq_true ⟨hlt, hle⟩) hle ?_
        simp only [poll, hl', if_pos hdue]
        exact receive_eq hx hl'
      · have hdue : ¬x.clock + x.wait base node ≤ (x.resume (x.clock + t') (x.afterAll base read) log).clock :=
          fun h => hle (Nat.le_of_add_le_add_left h)
        refine moved_idle log (decide_eq_false fun h => hle h.2) (.waiting hx (Nat.lt_of_not_le hle)) rfl (by simp) ?_
        simp only [poll, hl', if_neg hdue]
        rfl
    · exact moved_idle log (decide_eq_false fun h => Nat.not_lt.mpr hle h.1) (.failed (hle.trans ht) hturn) rfl
        (fun _ h => h) rfl
  grows more h := h.append more

end ScriptTask

/-! ## All scripts of a document -/

namespace Extraction

open ScriptTask (At Moved Round round_begin round_resume)

variable {x : Extractor} {base : String} {scripts read : List Node} {node : Node} {tasks tasks' : List ScriptTask}
  {task task' : ScriptTask} {t t' count pending : Nat} {ready : Node → Bool}
  {before : List Node → Node → ScriptTask → Prop}

def undone (tasks : List ScriptTask) : Nat :=
  tasks.countP (!·.isDone)

theorem undone_cons (pending : Nat) (task : ScriptTask) (tasks : List ScriptTask) :
    (if task.isDone then pending else pending + 1) + undone tasks = pending + undone (task :: tasks) := by
  unfold undone
  rw [List.countP_cons]
  cases task.isDone
  · simp; omega
  · simp

/-- Whether every failure is held back among scripts behind so many that are not done. -/
def Held (x : Extractor) (count pending : Nat) (tasks : List ScriptTask) : Prop :=
  ∀ before e after, tasks = before ++ .failed e :: after →
    x.joining.reports count (pending + undone before) = false

theorem Held.cons (h : Held x count (if task.isDone then pending else pending + 1) tasks)
    (hheld : ∀ e, task = .failed e → x.joining.reports count pending = false) :
    Held x count pending (task :: tasks) := by
  rintro (_ | ⟨first, before⟩) e after hl
  · exact hheld e (List.cons.inj hl).1
  · obtain ⟨rfl, rfl⟩ := List.cons.inj hl
    rw [← undone_cons]
    exact h before e after rfl

/-- No failure is held back where all are reported at once, and where nothing is waited for. -/
theorem Held.unfailed (h : Held x count 0 tasks) (ha : List.Forall₂ (At x base read t) scripts tasks)
    (hj : (∀ pending, x.joining.reports count pending = true) ∨ ∀ node ∈ scripts, x.wait base node ≤ t) :
    ∀ e, .failed e ∉ tasks := by
  rcases hj with hj | hj
  · intro e he
    obtain ⟨before, after, rfl⟩ := List.append_of_mem he
    have := (hj _).symm.trans (h before e after rfl)
    cases this
  · induction ha with
    | nil => simp
    | @cons node task scripts tasks hn _ ih =>
        intro e he
        cases hn with
        | waiting _ hlt => exact absurd (hj node (List.mem_cons_self ..)) (Nat.not_le.mpr hlt)
        | failed _ _ =>
            have := (x.joining.prompt count).symm.trans (h [] _ _ rfl)
            cases this
        | @done m _ _ _ =>
            have hrest : Held x count 0 tasks := fun before e after hl => h (.done m :: before) e after (hl ▸ rfl)
            exact ih hrest (fun n hn => hj n (List.mem_cons_of_mem _ hn)) e (List.mem_of_ne_of_mem (by simp) he)

/-- What a poll at a time makes of scripts that it passes, behind others that were read. -/
structure Passed (x : Extractor) (base : String) (t : Nat) (ready : Node → Bool) (count pending : Nat)
    (read scripts : List Node) (tasks tasks' : List ScriptTask) : Prop where
  reached : List.Forall₂ (At x base (read ++ scripts.filter ready) t) scripts tasks'
  held : Held x count pending tasks'
  clean : (∀ e, .failed e ∉ tasks') → (x.taken base read).2 = none →
    (x.taken base (read ++ scripts.filter ready)).2 = none
  idle : scripts.filter ready = [] → undone tasks' = undone tasks

theorem Passed.nil : Passed x base t ready count pending read [] [] [] where
  reached := .nil
  held before e after hl := by simp at hl
  clean _ h := by simpa using h
  idle _ := rfl

theorem filter_cons_eq (ready : Node → Bool) (node : Node) (scripts : List Node) :
    (node :: scripts).filter ready = [node].filter ready ++ scripts.filter ready :=
  List.filter_append [node] scripts

theorem Passed.cons (hm : Moved x base t ready read node task task')
    (hheld : ∀ e, task' = .failed e → x.joining.reports count pending = false)
    (h : Passed x base t ready count (if task'.isDone then pending else pending + 1) (read ++ [node].filter ready)
      scripts tasks tasks') :
    Passed x base t ready count pending read (node :: scripts) (task :: tasks) (task' :: tasks') where
  reached := by
    rw [filter_cons_eq, ← List.append_assoc]
    exact .cons (hm.reached.append _) h.reached
  held := h.held.cons hheld
  clean hne hread := by
    rw [filter_cons_eq, ← List.append_assoc]
    exact h.clean (fun e he => hne e (List.mem_cons_of_mem _ he))
      (hm.clean (fun e he => hne e (he ▸ List.mem_cons_self ..)) hread)
  idle hnone := by
    rw [filter_cons_eq, List.append_eq_nil_iff] at hnone
    have hnode : ready node = false := by simpa using hnone.1
    have hrest := h.idle hnone.2
    unfold undone at hrest ⊢
    rw [List.countP_cons, List.countP_cons, hrest, (hm.idle hnode).1]

/-- How a poll at a time goes and what has been read then: it passes all scripts, or it reports a failure. -/
inductive Goes (x : Extractor) (base : String) (t : Nat) (ready : Node → Bool) (count pending : Nat)
    (read : List Node) : List Node → List ScriptTask → Except AnalysisError (List ScriptTask) → List Node → Prop where
  | passes {scripts : List Node} {tasks tasks' : List ScriptTask} :
      Passed x base t ready count pending read scripts tasks tasks' →
      Goes x base t ready count pending read scripts tasks (.ok tasks') (read ++ scripts.filter ready)
  | breaks {earlier later : List Node} {node : Node} {tasks₁ tasks₂ tasks₁' : List ScriptTask} {task : ScriptTask}
      {e : AnalysisError} : Passed x base t ready count pending read earlier tasks₁ tasks₁' →
      Moved x base t ready (read ++ earlier.filter ready) node task (.failed e) →
      x.joining.reports count (pending + undone tasks₁') = true →
      Goes x base t ready count pending read (earlier ++ node :: later) (tasks₁ ++ task :: tasks₂) (.error e)
        (read ++ (earlier ++ [node]).filter ready)

theorem Goes.cons {r : Except AnalysisError (List ScriptTask)} {read' : List Node}
    (hm : Moved x base t ready read node task task')
    (hheld : ∀ e, task' = .failed e → x.joining.reports count pending = false)
    (h : Goes x base t ready count (if task'.isDone then pending else pending + 1) (read ++ [node].filter ready)
      scripts tasks r read') :
    Goes x base t ready count pending read (node :: scripts) (task :: tasks) (r.map (task' :: ·)) read' := by
  cases h with
  | passes h =>
      rw [List.append_assoc, ← filter_cons_eq]
      exact .passes (.cons hm hheld h)
  | @breaks earlier later n tasks₁ tasks₂ tasks₁' task₂ e hpassed hfailed hreports =>
      rw [List.append_assoc, ← filter_cons_eq]
      change Goes x base t ready count pending read ((node :: earlier) ++ n :: later)
        ((task :: tasks₁) ++ task₂ :: tasks₂) (.error e) (read ++ ((node :: earlier) ++ [n]).filter ready)
      refine .breaks (hpassed.cons hm hheld) ?_ ?_
      · rw [filter_cons_eq, ← List.append_assoc]
        exact hfailed
      · rw [← undone_cons]
        exact hreports

/-- A poll reads the scripts that are ready, in script order and up to a failure that is reported. -/
theorem pollTasks_round (h : Round x base t ready before) (hb : List.Forall₂ (before read) scripts tasks)
    (count pending : Nat) (log : List Request) : ∃ r read' log',
      pollTasks (x.resume (x.clock + t) (x.afterAll base read) log) base count pending tasks =
        (r, x.resume (x.clock + t) (x.afterAll base read') log') ∧
      Goes x base t ready count pending read scripts tasks r read' := by
  induction scripts generalizing tasks read pending log with
  | nil =>
      cases hb
      refine ⟨.ok [], _, log, ?_, .passes .nil⟩
      rw [List.filter_nil, List.append_nil]
      rfl
  | cons node scripts ih =>
      obtain _ | ⟨hn, hrest⟩ := hb
      obtain ⟨task', log', hp, hm⟩ := h.polls log hn
      rcases ScriptTask.advance_outcome hp count pending with ⟨e, rfl, hreports, ha⟩ | ⟨hheld, ha⟩
      · rw [← List.append_nil read] at hm
        exact ⟨.error e, _, log', pollTasks_cons_error ha _, .breaks .nil hm hreports⟩
      · obtain ⟨r, read', log'', hpoll, hgoes⟩ := ih (hrest.imp fun _ _ => h.grows _)
          (if task'.isDone then pending else pending + 1) log'
        exact ⟨_, read', log'', by rw [pollTasks_cons_ok ha, hpoll], hgoes.cons hm hheld⟩

theorem turn_of_undone (h : List.Forall₂ (At x base read t) scripts tasks) (hu : undone tasks = 0) :
    ∀ node ∈ scripts, x.Turn base read node none := by
  rw [undone, List.countP_eq_zero] at hu
  induction h with
  | nil => simp
  | cons ha _ ih =>
      have hdone := hu _ (List.mem_cons_self ..)
      refine List.forall_mem_cons.mpr ⟨?_, ih fun task ht => hu task (List.mem_cons_of_mem _ ht)⟩
      cases ha with
      | done _ _ ht => exact ht
      | waiting _ _ | failed _ _ => exact absurd rfl hdone

/-! ## What an extraction waits for -/

theorem gather?_at (h : List.Forall₂ (At x base read t) scripts tasks) (hdone : ∀ node ∈ scripts, x.wait base node ≤ t)
    (hne : ∀ e, .failed e ∉ tasks) : gather? tasks = some (x.whole base scripts) := by
  induction h with
  | nil => rfl
  | @cons node task scripts tasks ha _ ih =>
      have hrest := ih (fun n hn => hdone n (List.mem_cons_of_mem _ hn)) fun e he => hne e (List.mem_cons_of_mem _ he)
      cases ha with
      | done _ hm _ =>
          rw [gather?, hrest, Extractor.whole_cons hm]
          rfl
      | waiting _ hlt => exact absurd (hdone node (List.mem_cons_self ..)) (Nat.not_le.mpr hlt)
      | failed _ _ => exact absurd (List.mem_cons_self ..) (hne _)

theorem gather?_at_none (h : List.Forall₂ (At x base read t) scripts tasks) (hmem : node ∈ scripts)
    (hw : t < x.wait base node) : gather? tasks = none := by
  induction h with
  | nil => cases hmem
  | cons ha _ ih =>
      cases ha with
      | waiting _ _ | failed _ _ => rfl
      | done hle _ _ =>
          rcases List.mem_cons.mp hmem with rfl | hmem
          · exact absurd hw (Nat.not_lt.mpr hle)
          · rw [gather?, ih hmem]
            rfl

theorem dues_at (h : List.Forall₂ (At x base read t) scripts tasks) : (running tasks).dues =
    (scripts.filter (t < x.wait base ·)).map (x.clock + x.wait base ·) := by
  induction h with
  | nil => rfl
  | cons ha _ ih =>
      rw [dues] at ih ⊢
      cases ha with
      | done hle _ _ | failed hle _ =>
          rw [List.filter_cons_of_neg (by simpa using hle), ← ih]
          rfl
      | waiting _ hlt =>
          rw [List.filter_cons_of_pos (by simpa using hlt), List.map_cons, ← ih]
          rfl

/-- The earliest time at which a text comes. -/
theorem exists_next_due (h : List.Forall₂ (At x base read t) scripts tasks) (hw : x.awaited base scripts t ≠ []) :
    ∃ t', t < t' ∧ (∃ node ∈ scripts, x.wait base node = t') ∧
      (∀ node ∈ scripts, t < x.wait base node → t' ≤ x.wait base node) ∧
      ((running tasks).dues.filter (x.clock + t < ·)).min? = some (x.clock + t') := by
  have hdues : (running tasks).dues.filter (x.clock + t < ·) = (running tasks).dues := by
    rw [dues_at h, List.filter_eq_self]
    intro due hdue
    obtain ⟨node, hnode, rfl⟩ := List.mem_map.mp hdue
    exact decide_eq_true (Nat.add_lt_add_left (of_decide_eq_true (List.mem_filter.mp hnode).2) _)
  have hmem : ∀ node, node ∈ scripts.filter (t < x.wait base ·) ↔ node ∈ x.awaited base scripts t := by
    simp [Extractor.mem_awaited]
  rw [hdues, dues_at h]
  obtain ⟨node, hnode⟩ := List.exists_mem_of_ne_nil _ hw
  obtain ⟨due, hdue⟩ := Option.isSome_iff_exists.mp
    (List.isSome_min?_of_mem (List.mem_map_of_mem (f := (x.clock + x.wait base ·)) ((hmem node).mpr hnode)))
  obtain ⟨hin, hmin⟩ := List.min?_eq_some_iff.mp hdue
  obtain ⟨first, hfirst, rfl⟩ := List.mem_map.mp hin
  obtain ⟨hscript, hlate⟩ := Extractor.mem_awaited.mp ((hmem first).mp hfirst)
  refine ⟨x.wait base first, hlate, ⟨first, hscript, rfl⟩, fun n hn ht => ?_, hdue⟩
  exact Nat.le_of_add_le_add_left
    (hmin _ (List.mem_map_of_mem ((hmem n).mpr (Extractor.mem_awaited.mpr ⟨hn, ht⟩))))

theorem finish_succ {n due : Nat} {e : Extraction} {y : Extractor} (h : e.poll x base = (.running tasks, y))
    (hdue : ((running tasks).dues.filter (y.clock < ·)).min? = some due) :
    finish base (n + 1) e x = finish base n (.running tasks) { y with clock := due } := by
  simp only [finish, h, hdue]

end Extraction

/-! ## How an extraction ends -/

/-- Whether failures among so many tasks are reported in their order alone. -/
def Joining.Sequential (j : Joining) (count : Nat) : Prop :=
  ∀ pending, j.reports count pending = true → pending = 0

theorem Joining.sequential_upTo {limit count : Nat} (h : limit < count) : (Joining.upTo limit).Sequential count := by
  intro pending hp
  simpa [Joining.upTo, Nat.not_le.mpr h] using hp

namespace Extractor

/-- Whether no failure is held back, since all are reported at once or nothing is waited for. -/
def Unheld (x : Extractor) (base : String) (scripts : List Node) : Prop :=
  (∀ pending, x.joining.reports scripts.length pending = true) ∨ ∀ node ∈ scripts, x.wait base node = 0

theorem unheld_upTo {x : Extractor} {limit : Nat} {scripts : List Node} (hj : x.joining = .upTo limit)
    (h : scripts.length ≤ limit) (base : String) : x.Unheld base scripts :=
  .inl fun pending => by simp [hj, Joining.upTo, h]

/-- Whether an extraction fails with what stopped a script between others, once others were read. -/
structure Halts (x : Extractor) (base : String) (scripts : List Node) (e : AnalysisError) (earlier : List Node)
    (node : Node) (read : List Node) : Prop where
  arrived : read <+: x.arrivals base scripts
  failed : x.Turn base read node (some e)
  /-- Nothing is read any more once the failure can be reported. -/
  last : ∃ init n, read = init ++ [n] ∧ n ∈ earlier ++ [node]
  sequential : x.joining.Sequential scripts.length → ∀ n ∈ earlier, x.Turn base read n none
  unheld : x.Unheld base scripts → x.taken base read = (x.afterAll base read, some e)

/-- What an extraction answers, and which scripts it has read then. -/
inductive Ends (x : Extractor) (base : String) (scripts : List Node) :
    Except AnalysisError Metadata → List Node → Prop where
  | declared : (x.taken base (x.arrivals base scripts)).2 = none →
      Ends x base scripts (.ok (x.whole base scripts)) (x.arrivals base scripts)
  | halted {e : AnalysisError} {earlier later read : List Node} {node : Node} : scripts = earlier ++ node :: later →
      x.Halts base scripts e earlier node read → Ends x base scripts (.error e) read

end Extractor

namespace Extraction

open ScriptTask (At Moved Round round_begin round_resume)
open Extractor (Ends Halts taken_concat)

variable {x : Extractor} {base : String} {scripts read read' : List Node} {tasks tasks' : List ScriptTask} {t t' : Nat}
  {ready : Node → Bool} {before : List Node → Node → ScriptTask → Prop}

theorem Passed.unfailed {part : List Node} (h : Passed x base t ready scripts.length 0 read part tasks tasks')
    (hu : x.Unheld base scripts) (hpart : part ⊆ scripts) : ∀ e, .failed e ∉ tasks' :=
  h.held.unfailed h.reached (hu.imp_right fun hw node hn => (hw node (hpart hn)).trans_le (Nat.zero_le t))

/-- How far an extraction has come when it is polled at a time. -/
structure Stage (x : Extractor) (base : String) (scripts : List Node) (t : Nat) (ready : Node → Bool)
    (before : List Node → Node → ScriptTask → Prop) (read : List Node) (tasks : List ScriptTask) : Prop where
  round : Round x base t ready before
  each : List.Forall₂ (before read) scripts tasks
  held : Held x scripts.length 0 tasks
  clean : (∀ e, .failed e ∉ tasks) → (x.taken base read).2 = none
  unheld : x.Unheld base scripts → ∀ e, .failed e ∉ tasks
  rest : read ++ (scripts.filter ready ++ x.awaited base scripts t) = x.arrivals base scripts

theorem Stage.begin (x : Extractor) (base : String) (scripts : List Node) :
    Stage x base scripts 0 (fun node => x.wait base node ≤ 0) (fun _ node task => task = .fresh node) []
      (scripts.map .fresh) where
  round := round_begin x base
  each := List.forall₂_map_right_iff.mpr (List.forall₂_same.mpr fun _ _ => rfl)
  held before e after hl := by
    have hmem : .failed e ∈ scripts.map ScriptTask.fresh := hl ▸ by simp
    simp at hmem
  clean _ := rfl
  unheld _ e := by simp
  rest := x.arrivals_begin.symm

theorem Stage.halts {earlier later : List Node} {node : Node} {tasks₁ tasks₂ tasks₁' : List ScriptTask}
    {task : ScriptTask} {e : AnalysisError}
    (h : Stage x base (earlier ++ node :: later) t ready before read (tasks₁ ++ task :: tasks₂))
    (hp : Passed x base t ready (earlier ++ node :: later).length 0 read earlier tasks₁ tasks₁')
    (hm : Moved x base t ready (read ++ earlier.filter ready) node task (.failed e))
    (hr : x.joining.reports (earlier ++ node :: later).length (0 + undone tasks₁') = true) :
    x.Halts base (earlier ++ node :: later) e earlier node (read ++ (earlier ++ [node]).filter ready) where
  arrived := by
    refine ⟨later.filter ready ++ x.awaited base (earlier ++ node :: later) t, ?_⟩
    rw [← h.rest, List.filter_append, List.filter_append, filter_cons_eq ready node later]
    simp only [List.append_assoc]
  failed := by
    have hat := hm.reached
    rw [List.append_assoc, ← List.filter_append] at hat
    cases hat with
    | failed _ ht => exact ht
  last := by
    rcases List.eq_nil_or_concat ((earlier ++ [node]).filter ready) with hnil | ⟨init, n, hl⟩
    · -- The failure would have been reported before.
      obtain ⟨hearlier, hnode⟩ := List.append_eq_nil_iff.mp (List.filter_append earlier [node] ▸ hnil)
      obtain rfl := (hm.idle (by simpa using hnode)).2 e rfl
      have hheld := h.held tasks₁ e tasks₂ rfl
      rw [hp.idle hearlier, hheld] at hr
      cases hr
    · refine ⟨read ++ init, n, by rw [hl]; simp, ?_⟩
      exact List.mem_of_mem_filter (hl ▸ by simp : n ∈ (earlier ++ [node]).filter ready)
  sequential hs n hn := by
    have hundone : undone tasks₁' = 0 := by simpa using hs _ hr
    rw [List.filter_append, ← List.append_assoc]
    exact (turn_of_undone hp.reached hundone n hn).append _
  unheld hu := by
    have hne := h.unheld hu
    have hready : ready node = true := by
      by_contra hn
      exact hne e ((hm.idle (by simpa using hn)).2 e rfl ▸ by simp)
    have hclean := hp.clean (hp.unfailed hu (List.subset_append_left ..)) (h.clean hne)
    rw [List.filter_append, List.filter_cons_of_pos hready, List.filter_nil, ← List.append_assoc, taken_concat hclean,
      hm.read hready]
    rfl

theorem Stage.next (h : Stage x base scripts t ready before read tasks)
    (hp : Passed x base t ready scripts.length 0 read scripts tasks tasks')
    (hfailing : ∀ e, .failed e ∈ tasks → .failed e ∈ tasks') (ht : t ≤ t')
    (hmin : ∀ node ∈ scripts, t < x.wait base node → t' ≤ x.wait base node) :
    Stage x base scripts t' (fun node => t < x.wait base node ∧ x.wait base node ≤ t') (At x base · t)
      (read ++ scripts.filter ready) tasks' where
  round := round_resume x base ht
  each := hp.reached
  held := hp.held
  clean hne := hp.clean hne (h.clean fun e he => hne e (hfailing e he))
  unheld hu := hp.unfailed hu (List.Subset.refl _)
  rest := by
    rw [List.append_assoc, ← Extractor.awaited_eq ht hmin]
    exact h.rest

/-- Once nothing is waited for any more, all scripts are done. -/
theorem Stage.declares (h : Stage x base scripts t ready before read tasks)
    (hp : Passed x base t ready scripts.length 0 read scripts tasks tasks')
    (hfailing : ∀ e, .failed e ∈ tasks → .failed e ∈ tasks') (hw : x.awaited base scripts t = []) :
    gather? tasks' = some (x.whole base scripts) ∧ read ++ scripts.filter ready = x.arrivals base scripts ∧
      (x.taken base (x.arrivals base scripts)).2 = none := by
  have hdone : ∀ node ∈ scripts, x.wait base node ≤ t := fun node hnode =>
    Nat.le_of_not_lt fun hlt => List.not_mem_nil (hw ▸ Extractor.mem_awaited.mpr ⟨hnode, hlt⟩)
  have hne := hp.held.unfailed hp.reached (.inr hdone)
  have hall : read ++ scripts.filter ready = x.arrivals base scripts := by
    rw [← h.rest, hw, List.append_nil]
  exact ⟨gather?_at hp.reached hdone hne, hall,
    hall ▸ hp.clean hne (h.clean fun e he => hne e (hfailing e he))⟩

/-- From any poll on, scripts are read in the order of arrival, until all are done or a failure is reported. -/
theorem finish_stage {n : Nat} (h : Stage x base scripts t ready before read tasks)
    (hn : (x.awaited base scripts t).length ≤ n) (log : List Request) : ∃ r read' clock log',
      finish base n (.running tasks) (x.resume (x.clock + t) (x.afterAll base read) log) =
        (.done r, x.resume clock (x.afterAll base read') log') ∧ x.Ends base scripts r read' := by
  induction n using Nat.strong_induction_on generalizing t ready before read tasks log with
  | _ n ih =>
  obtain ⟨r, read', log', hpoll, hgoes⟩ := pollTasks_round h.round h.each scripts.length 0 log
  have hlength : tasks.length = scripts.length := h.each.length_eq.symm
  rw [← hlength] at hpoll
  cases hgoes with
  | breaks hp hm hr =>
      exact ⟨_, _, _, log', finish_error hpoll, .halted rfl (h.halts hp hm hr)⟩
  | @passes _ _ tasks' hp =>
      have hfailing : ∀ e, .failed e ∈ tasks → .failed e ∈ tasks' := fun e he =>
        (hpoll ▸ pollTasks_cases base tasks.length 0 tasks _ : TasksPolled base 0 _ tasks (.ok tasks', _)).failing he
      by_cases hw : x.awaited base scripts t = []
      · obtain ⟨hgather, hall, hnone⟩ := h.declares hp hfailing hw
        rw [hall] at hpoll
        exact ⟨_, _, x.clock + t, log', finish_of_poll (by simp only [poll, hpoll, hgather]), .declared hnone⟩
      · obtain ⟨t', ht, ⟨node, hnode, rfl⟩, hmin, hdue⟩ := exists_next_due hp.reached hw
        have hrun : (running tasks).poll (x.resume (x.clock + t) (x.afterAll base read) log) base =
            (.running tasks', x.resume (x.clock + t) (x.afterAll base (read ++ scripts.filter ready)) log') := by
          simp only [poll, hpoll, gather?_at_none hp.reached hnode ht]
        have hnext := h.next hp hfailing ht.le hmin
        rw [Extractor.awaited_eq ht.le hmin, List.length_append] at hn
        have hready : 0 < (scripts.filter fun n => t < x.wait base n ∧ x.wait base n ≤ x.wait base node).length :=
          List.length_pos_of_mem (List.mem_filter.mpr ⟨hnode, decide_eq_true ⟨ht, Nat.le_refl _⟩⟩)
        obtain ⟨n, rfl⟩ : ∃ k, n = k + 1 := Nat.exists_eq_add_one_of_ne_zero (by omega)
        rw [finish_succ hrun hdue]
        exact ih n (Nat.lt_succ_self n) hnext (by omega) log'

end Extraction

namespace Extractor

variable {x : Extractor} {base : String} {scripts read : List Node} {node : Node} {e : AnalysisError}

/-- An extraction reads scripts in the order of arrival, and answers with what they declare in script order. -/
theorem extract_ends (x : Extractor) (base : String) (scripts : List Node) : ∃ r read clock log,
    x.extract base scripts = (some r, x.resume clock (x.afterAll base read) log) ∧ x.Ends base scripts r read := by
  have hlength : (x.awaited base scripts 0).length ≤ scripts.length + 1 := by
    have := (List.length_filter_le (0 < x.wait base ·) (x.arrivals base scripts)).trans_eq x.arrivals_perm.length_eq
    exact Nat.le_succ_of_le this
  obtain ⟨r, read, clock, log, h, hends⟩ :=
    Extraction.finish_stage (Extraction.Stage.begin x base scripts) hlength x.log
  exact ⟨r, read, clock, log, congrArg (fun p => (p.1.result?, p.2)) h, hends⟩

theorem extract_isSome (x : Extractor) (base : String) (scripts : List Node) :
    ∃ r, (x.extract base scripts).1 = some r := by
  obtain ⟨r, _, _, _, h, _⟩ := x.extract_ends base scripts
  exact ⟨r, by rw [h]⟩

theorem extract_eq_ok {m : Metadata} : (x.extract base scripts).1 = some (.ok m) ↔
    (x.taken base (x.arrivals base scripts)).2 = none ∧ x.whole base scripts = m := by
  obtain ⟨_, read, _, _, h, hends⟩ := x.extract_ends base scripts
  rw [h]
  cases hends with
  | declared hnone => simp [hnone]
  | halted _ hh =>
      have hsome : (x.taken base (x.arrivals base scripts)).2 ≠ none := by
        obtain ⟨more, hmore⟩ := hh.arrived
        intro hnone
        cases hh.failed.eq_none (taken_append_none (hmore ▸ hnone))
      simp [hsome]

theorem extract_ok_registries {m : Metadata} (h : (x.extract base scripts).1 = some (.ok m)) :
    (x.extract base scripts).2.registries = (x.taken base (x.arrivals base scripts)).1 := by
  obtain ⟨_, read, _, _, he, hends⟩ := x.extract_ends base scripts
  rw [he] at h ⊢
  cases hends with
  | declared hnone => exact Registries.enrollAll_eq hnone
  | halted _ _ => cases h

/-- One that fails has read scripts up to one that failed. -/
theorem extract_halts (h : (x.extract base scripts).1 = some (.error e)) : ∃ earlier node later read,
    scripts = earlier ++ node :: later ∧ x.Halts base scripts e earlier node read ∧
      (x.extract base scripts).2.registries = x.afterAll base read := by
  obtain ⟨_, read, _, _, he, hends⟩ := x.extract_ends base scripts
  rw [he] at h ⊢
  cases hends with
  | declared _ => cases h
  | @halted _ earlier later _ node hl hh =>
      cases h
      exact ⟨earlier, node, later, read, hl, hh, rfl⟩

/-- Where no failure is held back, the first script fails that does in the order of arrival. -/
theorem Halts.taken_arrivals {earlier : List Node} (h : x.Halts base scripts e earlier node read)
    (hu : x.Unheld base scripts) : x.taken base (x.arrivals base scripts) = (x.afterAll base read, some e) := by
  obtain ⟨more, hmore⟩ := h.arrived
  have htaken := h.unheld hu
  rw [← hmore, taken_append_some (e := e) (by rw [htaken]), htaken]

theorem extract_eq_error (hu : x.Unheld base scripts) : (x.extract base scripts).1 = some (.error e) ↔
    (x.taken base (x.arrivals base scripts)).2 = some e := by
  obtain ⟨_, read, _, _, h, hends⟩ := x.extract_ends base scripts
  rw [h]
  cases hends with
  | declared hnone => simp [hnone]
  | halted _ hh => simp [hh.taken_arrivals hu]

theorem extract_registries (hu : x.Unheld base scripts) :
    (x.extract base scripts).2.registries = (x.taken base (x.arrivals base scripts)).1 := by
  obtain ⟨_, read, _, _, h, hends⟩ := x.extract_ends base scripts
  rw [h]
  cases hends with
  | declared hnone => exact Registries.enrollAll_eq hnone
  | halted _ hh => rw [hh.taken_arrivals hu]; rfl

/-! ## One script by itself -/

/-- The extractor once scripts have been extracted one by one, whatever became of each. -/
def inTurn (x : Extractor) (base : String) (scripts : List Node) : Extractor :=
  scripts.foldl (fun y node => (y.extract base [node]).2) x

theorem inTurn_concat (x : Extractor) (base : String) (scripts : List Node) (node : Node) :
    x.inTurn base (scripts ++ [node]) = ((x.inTurn base scripts).extract base [node]).2 :=
  List.foldl_append ..

theorem unheld_singleton (hw : x.wait base node = 0) : x.Unheld base [node] :=
  .inr fun _ hn => List.mem_singleton.mp hn ▸ hw

theorem inTurn_eq (h : ∀ node ∈ read, x.wait base node = 0) :
    ∃ clock log, x.inTurn base read = x.resume clock (x.afterAll base read) log := by
  induction read using List.reverseRecOn with
  | nil => exact ⟨x.clock, x.log, rfl⟩
  | append_singleton read node ih =>
      obtain ⟨clock, log, hread⟩ := ih fun n hn => h n (List.mem_append_left _ hn)
      have hw : (x.resume clock (x.afterAll base read) log).wait base node = 0 := h node (by simp)
      obtain ⟨_, _, clock', log', he, _⟩ := (x.resume clock (x.afterAll base read) log).extract_ends base [node]
      have hregistries := extract_registries (unheld_singleton hw)
      rw [he] at hregistries
      refine ⟨clock', log', ?_⟩
      rw [inTurn_concat, hread, he, afterAll_concat]
      exact congrArg (x.resume clock' · log') hregistries

/-- Extracted by itself behind others, a script fails as it does in its turn. -/
theorem inTurn_error (h : ∀ node ∈ read, x.wait base node = 0) (hw : x.wait base node = 0) :
    ((x.inTurn base read).extract base [node]).1 = some (.error e) ↔ x.fault? base read node = some e := by
  obtain ⟨clock, log, hread⟩ := inTurn_eq h
  have hw' : (x.resume clock (x.afterAll base read) log).wait base node = 0 := hw
  rw [hread, extract_eq_error (unheld_singleton hw')]
  rfl

theorem inTurn_ok (h : ∀ node ∈ read, x.wait base node = 0) :
    (∃ m, ((x.inTurn base read).extract base [node]).1 = some (.ok m)) ↔ x.fault? base read node = none := by
  obtain ⟨clock, log, hread⟩ := inTurn_eq h
  simp only [hread, extract_eq_ok]
  exact ⟨fun ⟨_, hnone, _⟩ => hnone, fun hnone => ⟨_, hnone, rfl⟩⟩

end Extractor

end ImportTree
