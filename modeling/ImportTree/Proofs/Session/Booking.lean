import ImportTree.Proofs.Metadata.Registry
import ImportTree.Proofs.Session.Growth

/-!
# Booking

What the scripts of a document declare is entered for the document while they are polled: each name as often as the
scripts that are done declare it, unless one has failed. What a failed script has entered before its error stays.
-/

namespace ImportTree

variable {x y : Extractor} {a : String} {pending : Nat}

/-! ## Names declared so far -/

theorem count_flatMap_cons {α : Type} (f : α → List String) (v : α) (l : List α) (n : String) :
    ((v :: l).flatMap f).count n = (f v).count n + (l.flatMap f).count n := by
  rw [List.flatMap_cons, List.count_append]

namespace ScriptTask

/-- The names of a kind that a script has declared so far. -/
def names : ScriptTask → Kind → List String
  | .done declared => declared.names
  | _ => fun _ => []

/-- The names of a kind that scripts have declared so far. -/
def allNames (tasks : List ScriptTask) (kind : Kind) : List String :=
  tasks.flatMap (·.names kind)

theorem count_allNames_cons (task : ScriptTask) (tasks : List ScriptTask) (k : Kind) (n : String) :
    (allNames (task :: tasks) k).count n = (task.names k).count n + (allNames tasks k).count n :=
  count_flatMap_cons ..

@[simp] theorem allNames_fresh (nodes : List Node) (k : Kind) : allNames (nodes.map .fresh) k = [] := by
  induction nodes with
  | nil => rfl
  | cons node nodes ih => exact ih

end ScriptTask

theorem Extraction.gather?_names {tasks : List ScriptTask} {declared : Metadata} (h : gather? tasks = some declared)
    (k : Kind) : ScriptTask.allNames tasks k = declared.names k := by
  induction tasks generalizing declared with
  | nil => cases h; cases k <;> rfl
  | cons task tasks ih =>
      cases task with
      | fresh _ | waiting _ _ | failed _ => cases h
      | done m =>
          obtain ⟨rest, hr, rfl⟩ := Option.map_eq_some_iff.mp h
          rw [Metadata.names_append, ← ih hr]
          rfl

/-! ## Distinct names -/

theorem Extractor.declare_distinct {base text : String} {script? : Option String} {r : Except AnalysisError Metadata}
    (h : x.declare base script? text = (r, y)) (hd : x.registries.Distinct) : y.registries.Distinct := by
  unfold Extractor.declare at h
  cases hs : x.readScript text x.attach with
  | error f => rw [hs] at h; cases h; exact hd
  | ok m =>
      have hrs := Registries.registerEach_distinct (m.locate base script?).declarations hd
      change (x.registries.registerAll (m.locate base script?)).1.Distinct at hrs
      rw [hs] at h
      dsimp only at h
      generalize x.registries.registerAll (m.locate base script?) = p at h hrs
      obtain ⟨rs, e?⟩ := p
      cases e? <;> cases h <;> exact hrs

theorem ScriptTask.Listening.registries {task : ScriptTask} {b : String} (h : Listening x a task b y) :
    y.registries = x.registries := by
  cases h <;> rfl

theorem ScriptTask.Polled.distinct {task : ScriptTask} {r : Except AnalysisError ScriptTask}
    (h : task.Polled x a (r, y)) (hd : x.registries.Distinct) : y.registries.Distinct := by
  cases h with
  | known | pending _ | silent _ | unresolved _ _ _ _ _ | asked _ _ _ | stuck => exact hd
  | inline _ _ h => exact Extractor.declare_distinct h hd
  | failed h _ _ => exact h.registries ▸ hd
  | answered h _ _ h' => exact Extractor.declare_distinct h' (h.registries ▸ hd)

theorem ScriptTask.Advanced.distinct {task task' : ScriptTask} (h : task.Advanced x a pending (task', y))
    (hd : x.registries.Distinct) : y.registries.Distinct := by
  cases h with
  | polled h | held _ h => exact h.distinct hd

theorem Extraction.TasksPolled.distinct {tasks : List ScriptTask} {r : Except AnalysisError (List ScriptTask)}
    (h : TasksPolled a pending x tasks (r, y)) (hd : x.registries.Distinct) : y.registries.Distinct := by
  generalize hp : (r, y) = p at h
  induction h generalizing r with
  | nil => cases hp; exact hd
  | failed h => cases hp; exact h.distinct hd
  | cons h _ ih => cases hp; exact ih (h.distinct hd) rfl

theorem Extraction.Polled.distinct {e e' : Extraction} (h : e.Polled x a (e', y)) (hd : x.registries.Distinct) :
    y.registries.Distinct := by
  cases h with
  | known => exact hd
  | failed h => exact h.distinct hd
  | finished h _ => exact h.distinct hd
  | running h _ => exact h.distinct hd

/-! ## Entries -/

/-- What becomes of the registries when a script of the document at an address is polled: nothing is entered for any
other address, and besides the names that were declared `before`, those declared by now are entered. -/
structure Books (a : String) (rs rs' : Registries) (before : Kind → List String)
    (r : Except AnalysisError (Kind → List String)) : Prop where
  other : ∀ k n b, b ≠ a → rs'.count k n b = rs.count k n b
  own : ∀ {after}, r = .ok after → ∀ k n, rs'.count k n a + (before k).count n = rs.count k n a + (after k).count n

theorem Books.same {rs : Registries} {before : Kind → List String} : Books a rs rs before (.ok before) where
  other _ _ _ _ := rfl
  own h _ _ := by cases h; rfl

theorem Extractor.declare_books {text : String} {script? : Option String} {r : Except AnalysisError Metadata}
    {before : Kind → List String} (h : x.declare a script? text = (r, y)) (hbefore : ∀ k n, (before k).count n = 0) :
    Books a x.registries y.registries before (r.map Metadata.names) := by
  unfold Extractor.declare at h
  cases hs : x.readScript text x.attach with
  | error f => rw [hs] at h; cases h; exact ⟨fun _ _ _ _ => rfl, nofun⟩
  | ok m =>
      have hentered := Registries.registerAll_entered x.registries m a script?
      rw [hs] at h
      dsimp only at h
      generalize x.registries.registerAll (m.locate a script?) = p at h hentered
      cases hentered with
      | all hall =>
          cases h
          refine ⟨fun k n b hb => by simp [hall, hb], fun he k n => ?_⟩
          cases he
          rw [hall, hbefore, if_pos rfl, Metadata.names_locate]
          omega
      | upTo _ hother _ => cases h; exact ⟨hother, nofun⟩

theorem ScriptTask.Listening.names {task : ScriptTask} {b : String} (h : Listening x a task b y) (k : Kind)
    (n : String) : (task.names k).count n = 0 := by
  cases h <;> rfl

theorem ScriptTask.Polled.books {task : ScriptTask} {r : Except AnalysisError ScriptTask}
    (h : task.Polled x a (r, y)) : Books a x.registries y.registries task.names (r.map ScriptTask.names) := by
  have done {r : Except AnalysisError Metadata} {rs : Registries}
      (h : Books a rs y.registries task.names (r.map Metadata.names)) :
      Books a rs y.registries task.names ((r.map ScriptTask.done).map ScriptTask.names) := by
    cases r <;> exact h
  cases h with
  | known | pending _ | asked _ _ _ => exact .same
  | silent _ => exact ⟨fun _ _ _ _ => rfl, fun he k n => by cases he; cases k <;> rfl⟩
  | unresolved _ _ _ _ _ | stuck => exact ⟨fun _ _ _ _ => rfl, nofun⟩
  | inline _ _ h => exact done (Extractor.declare_books h fun _ _ => rfl)
  | failed h _ _ => exact ⟨fun _ _ _ _ => by rw [h.registries], nofun⟩
  | answered h _ _ h' => exact h.registries ▸ done (Extractor.declare_books h' h.names)

theorem ScriptTask.Advanced.other {task task' : ScriptTask} (h : task.Advanced x a pending (task', y)) (k : Kind)
    (n b : String) (hb : b ≠ a) : y.registries.count k n b = x.registries.count k n b := by
  cases h with
  | polled h | held _ h => exact h.books.other k n b hb

namespace Extraction

theorem TasksPolled.other {tasks : List ScriptTask} {r : Except AnalysisError (List ScriptTask)}
    (h : TasksPolled a pending x tasks (r, y)) (k : Kind) (n b : String) (hb : b ≠ a) :
    y.registries.count k n b = x.registries.count k n b := by
  generalize hp : (r, y) = p at h
  induction h generalizing r with
  | nil => cases hp; rfl
  | failed h => cases hp; exact h.books.other k n b hb
  | cons h _ ih => cases hp; exact (ih rfl).trans (h.other k n b hb)

/-- While no script has failed, all that is entered is what scripts declare. -/
theorem TasksPolled.own {tasks tasks' : List ScriptTask} (h : TasksPolled a pending x tasks (.ok tasks', y))
    (hok : ∀ e, .failed e ∉ tasks') (k : Kind) (n : String) :
    y.registries.count k n a + (ScriptTask.allNames tasks k).count n =
      x.registries.count k n a + (ScriptTask.allNames tasks' k).count n := by
  generalize hp : (Except.ok tasks', y) = p at h
  induction h generalizing tasks' with
  | nil => cases hp; rfl
  | failed _ => cases hp
  | @cons _ _ _ _ r _ task' _ h _ ih =>
      cases r with
      | error e => cases hp
      | ok rest =>
          cases hp
          have hrest := ih (fun e he => hok e (List.mem_cons_of_mem _ he)) rfl
          cases h with
          | held _ _ => exact absurd (List.mem_cons_self ..) (hok _)
          | polled h =>
              have := h.books.own rfl k n
              rw [ScriptTask.count_allNames_cons, ScriptTask.count_allNames_cons]
              omega

/-- What is entered for an address while the extraction of its document is at some point, unless a script has failed. -/
def Entered (a : String) (rs : Registries) : Extraction → Prop
  | .running tasks => (∀ e, .failed e ∉ tasks) → ∀ k n, rs.count k n a = (ScriptTask.allNames tasks k).count n
  | .done (.ok declared) => ∀ k n, rs.count k n a = (declared.names k).count n
  | .done (.error _) => True

theorem Entered.congr {rs rs' : Registries} {e : Extraction} (h : e.Entered a rs)
    (hc : ∀ k n, rs'.count k n a = rs.count k n a) : e.Entered a rs' := by
  match e with
  | .running tasks => exact fun hok k n => (hc k n).trans (h hok k n)
  | .done (.ok declared) => exact fun k n => (hc k n).trans (h k n)
  | .done (.error _) => trivial

theorem entered_start {rs : Registries} (nodes : List Node) (h : ∀ k n, rs.count k n a = 0) :
    (Extraction.start nodes).Entered a rs := by
  intro _ k n
  simp [h]

theorem Polled.other {e e' : Extraction} (h : e.Polled x a (e', y)) (k : Kind) (n b : String) (hb : b ≠ a) :
    y.registries.count k n b = x.registries.count k n b := by
  cases h with
  | known => rfl
  | failed h | finished h _ | running h _ => exact h.other k n b hb

/-- A poll of the extraction of a document enters what its scripts declare. -/
theorem Polled.entered {e e' : Extraction} (h : e.Polled x a (e', y)) (he : e.Entered a x.registries) :
    e'.Entered a y.registries := by
  have step {tasks tasks' : List ScriptTask} (h : TasksPolled a 0 x tasks (.ok tasks', y))
      (he : (Extraction.running tasks).Entered a x.registries) (hok : ∀ e, .failed e ∉ tasks') (k : Kind)
      (n : String) : y.registries.count k n a = (ScriptTask.allNames tasks' k).count n := by
    have := h.own hok k n
    have := he (fun e hf => hok e (h.failing hf)) k n
    omega
  cases h with
  | known => exact he
  | failed _ => trivial
  | running h _ => exact step h he
  | finished h hg =>
      intro k n
      rw [step h he (fun e hf => by rw [gather?_failed hf] at hg; cases hg) k n, gather?_names hg]

end Extraction

/-! ## Where a declaration stands -/

/-- Whether all declarations are said to stand in the document at an address. -/
def Metadata.Located (m : Metadata) (a : String) : Prop :=
  ∀ p ∈ m.declarations, p.2.address = a

theorem Metadata.mem_declarations_append {m m' : Metadata} {p : Kind × Declaration} :
    p ∈ (m.append m').declarations ↔ p ∈ m.declarations ∨ p ∈ m'.declarations := by
  simp only [declarations, append, List.map_append, List.mem_append]
  tauto

theorem Metadata.Located.append {m m' : Metadata} (h : m.Located a) (h' : m'.Located a) : (m.append m').Located a := by
  intro p hp
  exact (mem_declarations_append.mp hp).elim (h p) (h' p)

theorem Extractor.declare_located {text : String} {script? : Option String} {m : Metadata}
    (h : x.declare a script? text = (.ok m, y)) : m.Located a := by
  unfold Extractor.declare at h
  cases hs : x.readScript text x.attach with
  | error f => rw [hs] at h; cases h
  | ok m' =>
      rw [hs] at h
      dsimp only at h
      generalize x.registries.registerAll (m'.locate a script?) = p at h
      obtain ⟨rs, _ | e⟩ := p
      · cases h
        exact fun p hp => (Metadata.locate_placed hp).1
      · cases h

/-- Whether what a script has declared stands in the document at an address. -/
def ScriptTask.Located (a : String) : ScriptTask → Prop
  | .done declared => declared.Located a
  | _ => True

theorem ScriptTask.Polled.located {task task' : ScriptTask} (h : task.Polled x a (.ok task', y)) (ht : task.Located a) :
    task'.Located a := by
  generalize hr : (Except.ok task', y) = r at h
  cases h with
  | known => cases hr; exact ht
  | pending _ | asked _ _ _ => cases hr; trivial
  | silent _ => cases hr; exact fun p hp => by cases hp
  | unresolved _ _ _ _ _ | failed _ _ _ | stuck => cases hr
  | @inline _ _ r _ _ _ h => cases r <;> cases hr; exact Extractor.declare_located h
  | @answered _ _ _ _ r _ _ _ _ _ h => cases r <;> cases hr; exact Extractor.declare_located h

/-- Whether what the scripts of an extraction have declared stands in the document at an address. -/
def Extraction.Located (a : String) : Extraction → Prop
  | .running tasks => ∀ task ∈ tasks, task.Located a
  | .done (.ok declared) => declared.Located a
  | .done (.error _) => True

theorem Extraction.gather?_located {tasks : List ScriptTask} {declared : Metadata} (h : gather? tasks = some declared)
    (ht : ∀ task ∈ tasks, task.Located a) : declared.Located a := by
  induction tasks generalizing declared with
  | nil => cases h; exact fun p hp => by cases hp
  | cons task tasks ih =>
      cases task with
      | fresh _ | waiting _ _ | failed _ => cases h
      | done m =>
          obtain ⟨rest, hr, rfl⟩ := Option.map_eq_some_iff.mp h
          have hm : m.Located a := ht _ (List.mem_cons_self ..)
          exact hm.append (ih hr fun task hmem => ht task (List.mem_cons_of_mem _ hmem))

theorem Extraction.located_start (nodes : List Node) : (Extraction.start nodes).Located a := by
  intro task hmem
  obtain ⟨node, _, rfl⟩ := List.mem_map.mp hmem
  trivial

theorem Extraction.Polled.located {e e' : Extraction} (h : e.Polled x a (e', y)) (he : e.Located a) : e'.Located a := by
  cases h with
  | known => exact he
  | failed _ => trivial
  | finished h hg => exact gather?_located hg (h.forall_ok he (fun _ hp ht => hp.located ht) fun _ => trivial)
  | running h _ => exact h.forall_ok he (fun _ hp ht => hp.located ht) fun _ => trivial

/-! ## Fetches -/

theorem Session.Fetching.registries {s t : Session} {r : Option (Except AnalysisError Unit)} (h : s.Fetching a (r, t)) :
    t.extractor.registries = s.extractor.registries := by
  cases h with
  | known _ | pending _ _ | refused _ _ | asked _ _ _ _ => rfl
  | failed ht _ _ => cases ht <;> rfl
  | late ht _ _ _ => cases ht <;> rfl
  | answered ht _ _ _ hr => cases ht <;> cases hr <;> rfl

end ImportTree
