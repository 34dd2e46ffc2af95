import ImportTree.Proofs.Session.Contents
import ImportTree.Proofs.Session.Prompt
import ImportTree.Script.Declarations

/-!
# Extraction in order

While every response comes at once, scripts are read and entered one after another, up to the first that fails. What
was entered before it stays, and nothing behind it is touched.
-/

namespace ImportTree

theorem Extraction.gather?_done (parts : List Metadata) :
    gather? (parts.map .done) = some (Metadata.join parts) := by
  induction parts with
  | nil => rfl
  | cons m parts ih => simp [gather?, ih, Metadata.join, Metadata.append]

namespace Extractor

variable {x : Extractor} {base : String} {node : Node} {scripts earlier : List Node} {m : Metadata} {e : AnalysisError}
  {l : List (Kind × Declaration)} {parts : List Metadata}

/-- The extractor after scripts have been requested and declarations have been entered. -/
def after (x : Extractor) (base : String) (scripts : List Node) (l : List (Kind × Declaration)) : Extractor :=
  { x with
    registries := x.registries.enter l
    log := ((scripts.filterMap (x.request? base)).map Request.script).reverse ++ x.log }

/-- Whether all scripts can be read, and each name they declare is new to its kind. -/
structure Declares (x : Extractor) (base : String) (scripts : List Node) (parts : List Metadata) : Prop where
  contents : scripts.map (x.content base) = parts.map .ok
  admitted : x.registries.Admits (Metadata.sequence parts)

/-- Why a script fails, and what was entered of its declarations before it did. -/
inductive Fails (x : Extractor) (base : String) (node : Node) : AnalysisError → List (Kind × Declaration) → Prop where
  /-- The script cannot be read. -/
  | unread {e : AnalysisError} : x.content base node = .error e → Fails x base node e []
  /-- One of its names is declared already. -/
  | refused {m : Metadata} {l₁ kind d l₂ first} : x.content base node = .ok m → m.declarations = l₁ ++ (kind, d) :: l₂ →
      x.registries.Refuses l₁ kind d first → Fails x base node (.duplicate kind d.name first base) l₁

/-- Whether a script is the first that fails, and what was entered before it did. -/
inductive Stops (x : Extractor) (base : String) (earlier : List Node) (node : Node) :
    AnalysisError → List (Kind × Declaration) → Prop where
  | after {parts : List Metadata} {e : AnalysisError} {l : List (Kind × Declaration)} : x.Declares base earlier parts →
      (x.after base earlier (Metadata.sequence parts)).Fails base node e l →
      Stops x base earlier node e (Metadata.sequence parts ++ l)

/-! ## One script -/

@[simp] theorem after_after (x : Extractor) (base : String) (s₁ s₂ : List Node) (l₁ l₂ : List (Kind × Declaration)) :
    (x.after base s₁ l₁).after base s₂ l₂ = x.after base (s₁ ++ s₂) (l₁ ++ l₂) := by
  have hrequest : (x.after base s₁ l₁).request? base = x.request? base := rfl
  rw [after, hrequest]
  simp only [after, Registries.enter_append, List.filterMap_append, List.map_append, List.reverse_append,
    List.append_assoc]

@[simp] theorem content_after : (x.after base scripts l).content base node = x.content base node :=
  content_congr rfl fun _ _ _ => rfl

theorem Prompt.after (hx : x.Prompt) : (x.after base scripts l).Prompt :=
  fun hl => hx hl

theorem Prompt.wait (hx : x.Prompt) : x.wait base node = 0 := by
  unfold Extractor.wait
  split
  next hl _ => exact hx hl _
  next => rfl

theorem after_singleton (x : Extractor) (base : String) (node : Node) (l : List (Kind × Declaration)) :
    x.after base [node] l = { x.requesting base node with registries := x.registries.enter l } := by
  cases h : x.request? base node <;> simp [after, requesting, h]

theorem poll_declares (hx : x.Prompt) (hm : x.content base node = .ok m) (h : x.registries.Admits m.declarations) :
    ScriptTask.poll x base (.fresh node) = (.ok (.done m), x.after base [node] m.declarations) := by
  have hall : (x.requesting base node).registries.registerAll m = (x.registries.enter m.declarations, none) :=
    h.registerEach
  rw [ScriptTask.poll, ScriptTask.begin_eq hx.wait, hm, enroll, hall, after_singleton]
  rfl

theorem poll_fails (hx : x.Prompt) (h : x.Fails base node e l) :
    ScriptTask.poll x base (.fresh node) = (.error e, x.after base [node] l) := by
  rw [ScriptTask.poll, ScriptTask.begin_eq hx.wait, after_singleton]
  cases h with
  | unread he =>
      rw [he]
      rfl
  | @refused m _ kind d l₂ first hm hl hr =>
      have hbase : d.address = base := content_located hm _ (hl ▸ List.mem_append_right _ (List.mem_cons_self ..))
      have hall : (x.requesting base node).registries.registerAll m =
          (x.registries.enter l, some (.duplicate kind d.name first base)) := by
        rw [Registries.registerAll, hl, ← hbase]
        exact hr.registerEach l₂
      rw [hm, enroll, hall]
      rfl

/-! ## All scripts -/

theorem declares_cons : x.Declares base (node :: scripts) (m :: parts) ↔ x.content base node = .ok m ∧
    x.registries.Admits m.declarations ∧ (x.after base [node] m.declarations).Declares base scripts parts := by
  have hcontent : (x.after base [node] m.declarations).content base = x.content base := funext fun _ => content_after
  constructor
  · rintro ⟨hc, ha⟩
    obtain ⟨hm, hrest⟩ := List.cons.inj hc
    obtain ⟨h₁, h₂⟩ := Registries.admits_append.mp ha
    exact ⟨hm, h₁, hcontent.symm ▸ hrest, h₂⟩
  · rintro ⟨hm, h₁, hc, h₂⟩
    rw [hcontent] at hc
    exact ⟨by rw [List.map_cons, List.map_cons, hm, hc], Registries.admits_append.mpr ⟨h₁, h₂⟩⟩

theorem Stops.cons {n : Node} (h : (x.after base [node] m.declarations).Stops base earlier n e l)
    (hm : x.content base node = .ok m) (ha : x.registries.Admits m.declarations) :
    x.Stops base (node :: earlier) n e (m.declarations ++ l) := by
  cases h with
  | @after parts _ l hd hf =>
      have hd' := declares_cons.mpr ⟨hm, ha, hd⟩
      rw [after_after] at hf
      rw [← List.append_assoc]
      exact .after hd' hf

theorem declares_or_stops (x : Extractor) (base : String) (scripts : List Node) :
    (∃ parts, x.Declares base scripts parts) ∨
      ∃ earlier node later e l, scripts = earlier ++ node :: later ∧ x.Stops base earlier node e l := by
  induction scripts generalizing x with
  | nil => exact .inl ⟨[], rfl, x.registries.admits_nil⟩
  | cons node rest ih =>
      have hnone : x.Declares base [] [] := ⟨rfl, x.registries.admits_nil⟩
      cases hm : x.content base node with
      | error e => exact .inr ⟨[], node, rest, e, _, rfl, .after hnone (.unread (content_after.trans hm))⟩
      | ok m =>
          rcases x.registries.admits_or_refuses m.declarations with ha | ⟨l₁, kind, d, l₂, first, hl, hr⟩
          · rcases ih (x.after base [node] m.declarations) with ⟨parts, hd⟩ | ⟨earlier, n, later, e, l, rfl, hs⟩
            · exact .inl ⟨m :: parts, declares_cons.mpr ⟨hm, ha, hd⟩⟩
            · exact .inr ⟨node :: earlier, n, later, e, _, rfl, hs.cons hm ha⟩
          · exact .inr ⟨[], node, rest, _, _, rfl, .after hnone (.refused (content_after.trans hm) hl hr)⟩

end Extractor

namespace Extraction

variable {x y : Extractor} {base : String} {node : Node} {scripts earlier : List Node} {e : AnalysisError}
  {l : List (Kind × Declaration)} {parts : List Metadata} {tasks tasks' : List ScriptTask}

theorem advance_ok {task task' : ScriptTask} (h : task.poll x base = (.ok task', y)) (count pending : Nat) :
    task.advance x base count pending = (.ok task', y) := by
  rw [ScriptTask.advance, h]

theorem pollTasks_cons_ok {task task' : ScriptTask} {count pending : Nat}
    (h : task.advance x base count pending = (.ok task', y)) (tasks : List ScriptTask) :
    pollTasks x base count pending (task :: tasks) =
      ((pollTasks y base count (if task'.isDone then pending else pending + 1) tasks).1.map (task' :: ·),
        (pollTasks y base count (if task'.isDone then pending else pending + 1) tasks).2) := by
  rw [pollTasks, h]
  rcases hp : pollTasks y base count (if task'.isDone then pending else pending + 1) tasks with ⟨_ | _, _⟩ <;>
    simp only [hp] <;> rfl

theorem pollTasks_cons_error {task : ScriptTask} {count pending : Nat}
    (h : task.advance x base count pending = (.error e, y)) (tasks : List ScriptTask) :
    pollTasks x base count pending (task :: tasks) = (.error e, y) := by
  rw [pollTasks, h]

/-- Behind scripts that are done, others are advanced as if they stood alone. -/
theorem pollTasks_append_done {count : Nat} (h : pollTasks x base count 0 tasks = (.ok (parts.map .done), y))
    (more : List ScriptTask) : pollTasks x base count 0 (tasks ++ more) =
      ((pollTasks y base count 0 more).1.map (parts.map .done ++ ·), (pollTasks y base count 0 more).2) := by
  induction tasks generalizing x parts with
  | nil =>
      obtain ⟨rfl, rfl⟩ : parts = [] ∧ x = y := by simpa [pollTasks, eq_comm] using h
      rw [List.nil_append]
      rcases pollTasks x base count 0 more with ⟨_ | _, _⟩ <;> rfl
  | cons task tasks ih =>
      rcases hp : task.advance x base count 0 with ⟨_ | task', z⟩
      · rw [pollTasks_cons_error hp] at h
        cases h
      · rw [pollTasks_cons_ok hp] at h
        rw [List.cons_append, pollTasks_cons_ok hp]
        rcases hr : pollTasks z base count (if task'.isDone then 0 else 0 + 1) tasks with ⟨_ | rest, u⟩
        · rw [hr] at h; cases h
        · obtain ⟨hrest, rfl⟩ : task' :: rest = parts.map .done ∧ u = y := by simpa [hr, Except.map] using h
          obtain ⟨m, parts, rfl, rfl, rfl⟩ := List.map_eq_cons_iff.mp hrest.symm
          simp only [ScriptTask.isDone, if_true, ih hr]
          rcases pollTasks u base count 0 more with ⟨_ | _, _⟩ <;> rfl

theorem pollTasks_declares (hx : x.Prompt) (h : x.Declares base scripts parts) (count : Nat) :
    pollTasks x base count 0 (scripts.map .fresh) =
      (.ok (parts.map .done), x.after base scripts (Metadata.sequence parts)) := by
  induction scripts generalizing x parts with
  | nil =>
      cases List.map_eq_nil_iff.mp h.contents.symm
      rfl
  | cons node rest ih =>
      obtain ⟨m, parts, rfl⟩ : ∃ m parts', parts = m :: parts' :=
        List.exists_cons_of_ne_nil fun hnil => by simpa [hnil] using h.contents
      obtain ⟨hm, ha, hd⟩ := Extractor.declares_cons.mp h
      have hrest := ih hx.after hd
      rw [Extractor.after_after] at hrest
      rw [List.map_cons, pollTasks_cons_ok (advance_ok (Extractor.poll_declares hx hm ha) count 0)]
      simp only [ScriptTask.isDone, if_true, hrest]
      rfl

/-- The scripts before the first that fails are done, so its failure is not held back. -/
theorem pollTasks_stops (hx : x.Prompt) (h : x.Stops base earlier node e l) (later : List Node) (count : Nat) :
    pollTasks x base count 0 ((earlier ++ node :: later).map .fresh) =
      (.error e, x.after base (earlier ++ [node]) l) := by
  cases h with
  | after hd hf =>
      have hfails := Extractor.poll_fails hx.after hf
      rw [Extractor.after_after] at hfails
      rw [List.map_append, pollTasks_append_done (pollTasks_declares hx hd count), List.map_cons,
        pollTasks_cons_error (y := x.after base (earlier ++ [node]) _) (e := e)]
      · rfl
      · simp only [ScriptTask.advance, hfails, Joining.prompt, if_true]

theorem finish_of_poll {n : Nat} {extraction : Extraction} {r : Except AnalysisError Metadata}
    (h : extraction.poll x base = (.done r, y)) : finish base n extraction x = (.done r, y) := by
  cases n <;> simp only [finish, h]

theorem finish_done {n : Nat} (h : pollTasks x base tasks.length 0 tasks = (.ok (parts.map .done), y)) :
    finish base n (.running tasks) x = (.done (.ok (Metadata.join parts)), y) :=
  finish_of_poll (by simp only [poll, h, gather?_done])

theorem finish_error {n : Nat} (h : pollTasks x base tasks.length 0 tasks = (.error e, y)) :
    finish base n (.running tasks) x = (.done (.error e), y) :=
  finish_of_poll (by simp only [poll, h])

end Extraction

/-! ## Extractions -/

namespace Extractor

variable {x : Extractor} {base : String} {node : Node} {scripts earlier : List Node} {e : AnalysisError}
  {l : List (Kind × Declaration)} {parts : List Metadata}

theorem extract_declares (hx : x.Prompt) (h : x.Declares base scripts parts) :
    x.extract base scripts = (some (.ok (Metadata.join parts)), x.after base scripts (Metadata.sequence parts)) := by
  rw [extract, Extraction.start, Extraction.finish_done (Extraction.pollTasks_declares hx h _)]
  rfl

theorem extract_stops (hx : x.Prompt) (h : x.Stops base earlier node e l) (later : List Node) :
    x.extract base (earlier ++ node :: later) = (some (.error e), x.after base (earlier ++ [node]) l) := by
  rw [extract, Extraction.start, Extraction.finish_error (Extraction.pollTasks_stops hx h later _)]
  rfl

theorem extract_cases (hx : x.Prompt) (base : String) (scripts : List Node) :
    (∃ parts, x.Declares base scripts parts ∧
      x.extract base scripts = (some (.ok (Metadata.join parts)), x.after base scripts (Metadata.sequence parts))) ∨
    ∃ earlier node later e l, scripts = earlier ++ node :: later ∧ x.Stops base earlier node e l ∧
      x.extract base scripts = (some (.error e), x.after base (earlier ++ [node]) l) := by
  rcases x.declares_or_stops base scripts with ⟨parts, hd⟩ | ⟨earlier, node, later, e, l, rfl, hs⟩
  · exact .inl ⟨parts, hd, extract_declares hx hd⟩
  · exact .inr ⟨earlier, node, later, e, l, rfl, hs, extract_stops hx hs later⟩

theorem Declares.located (h : x.Declares base scripts parts) : (Metadata.join parts).Located base := by
  refine Extraction.gather?_located (Extraction.gather?_done parts) fun task hmem => ?_
  obtain ⟨m, hm, rfl⟩ := List.mem_map.mp hmem
  obtain ⟨node, _, hnode⟩ := List.mem_map.mp (h.contents ▸ List.mem_map_of_mem hm)
  exact content_located hnode

theorem Stops.admitted (h : x.Stops base earlier node e l) : x.registries.Admits l := by
  cases h with
  | after hd hf =>
      refine Registries.admits_append.mpr ⟨hd.admitted, ?_⟩
      cases hf with
      | unread _ => exact Registries.admits_nil _
      | refused _ _ hr => exact hr.admitted

/-- The scripts up to the one that fails are read alike, however later texts are read. -/
theorem Stops.reading (h : x.Stops base earlier node e l) {readScript : String → Bool → Except SyntaxFault Metadata}
    (hr : ∀ n ∈ earlier ++ [node], ∀ script? text, x.body? base n = some (.ok (script?, text)) →
      readScript text x.attach = x.readScript text x.attach) :
    ({ x with readScript } : Extractor).Stops base earlier node e l := by
  have hcontent : ∀ n ∈ earlier ++ [node], ({ x with readScript } : Extractor).content base n = x.content base n :=
    fun n hn => content_congr rfl (hr n hn)
  cases h with
  | @after parts _ l hd hf =>
      have hparts : ({ x with readScript } : Extractor).Declares base earlier parts :=
        ⟨(List.map_congr_left fun n hn => hcontent n (List.mem_append_left _ hn)).trans hd.contents, hd.admitted⟩
      have hnode : (({ x with readScript } : Extractor).after base earlier (Metadata.sequence parts)).content base
          node = (x.after base earlier (Metadata.sequence parts)).content base node := by
        rw [content_after, content_after]
        exact hcontent node (by simp)
      refine .after hparts ?_
      cases hf with
      | unread he => exact .unread (hnode.trans he)
      | refused hm hl hr => exact .refused (hnode.trans hm) hl hr

/-- What an extraction answers and leaves when scripts are taken one after another. -/
structure InOrder (x : Extractor) (base : String) (scripts : List Node) : Prop where
  ends : ∃ r, (x.extract base scripts).1 = some r
  /-- Declarations are found if all scripts can be read and each name is new, and only then. -/
  declared : ∀ {m}, (x.extract base scripts).1 = some (.ok m) ↔
    ∃ parts, x.Declares base scripts parts ∧ m = Metadata.join parts
  located : ∀ {m}, (x.extract base scripts).1 = some (.ok m) → m.Located base
  /-- All of them have then been entered. -/
  entered : ∀ {parts}, x.Declares base scripts parts →
    (x.extract base scripts).2 = x.after base scripts (Metadata.sequence parts)
  /-- The error is that of the first script that fails. -/
  failed : ∀ {e}, (x.extract base scripts).1 = some (.error e) ↔
    ∃ earlier node later l, scripts = earlier ++ node :: later ∧ x.Stops base earlier node e l
  /-- What comes before its failure has been entered, and no script behind it has been requested. -/
  kept : ∀ {earlier node later e l}, scripts = earlier ++ node :: later → x.Stops base earlier node e l →
    (x.extract base scripts).2 = x.after base (earlier ++ [node]) l
  /-- Other scripts may stand behind it, and their texts may be read in any other way. -/
  untouched : ∀ {earlier node later e l} (later' : List Node)
    (readScript : String → Bool → Except SyntaxFault Metadata),
    scripts = earlier ++ node :: later → x.Stops base earlier node e l →
    (∀ n ∈ earlier ++ [node], ∀ script? text, x.body? base n = some (.ok (script?, text)) →
      readScript text x.attach = x.readScript text x.attach) →
    ({ x with readScript } : Extractor).extract base (earlier ++ node :: later') =
      ((x.extract base scripts).1, { (x.extract base scripts).2 with readScript })
  unchanged : ∀ {kind name address}, (x.registries.get kind).declaredIn? name = some address →
    ((x.extract base scripts).2.registries.get kind).declaredIn? name = some address

/-- While every response comes at once, an extraction takes scripts one after another, up to the first that fails. -/
theorem extract_inOrder (hx : x.Prompt) (base : String) (scripts : List Node) : x.InOrder base scripts where
  ends := by
    rcases extract_cases hx base scripts with ⟨_, _, h⟩ | ⟨_, _, _, _, _, _, _, h⟩ <;> exact ⟨_, by rw [h]⟩
  declared {m} := by
    constructor
    · intro hm
      rcases extract_cases hx base scripts with ⟨parts, hd, h⟩ | ⟨_, _, _, _, _, _, _, h⟩ <;> rw [h] at hm <;> cases hm
      exact ⟨parts, hd, rfl⟩
    · rintro ⟨parts, hd, rfl⟩
      rw [extract_declares hx hd]
  located {m} hm := by
    rcases extract_cases hx base scripts with ⟨parts, hd, h⟩ | ⟨_, _, _, _, _, _, _, h⟩ <;> rw [h] at hm <;> cases hm
    exact hd.located
  entered hd := by rw [extract_declares hx hd]
  failed {e} := by
    constructor
    · intro he
      rcases extract_cases hx base scripts with ⟨_, _, h⟩ | ⟨earlier, node, later, _, l, hl, hs, h⟩ <;>
        rw [h] at he <;> cases he
      exact ⟨earlier, node, later, l, hl, hs⟩
    · rintro ⟨earlier, node, later, l, rfl, hs⟩
      rw [extract_stops hx hs]
  kept := by
    rintro earlier node later e l rfl hs
    rw [extract_stops hx hs]
  untouched := by
    rintro earlier node later e l later' readScript rfl hs hr
    have hx' : ({ x with readScript } : Extractor).Prompt := fun hl => hx hl
    rw [extract_stops hx hs, extract_stops hx' (hs.reading hr)]
    rfl
  unchanged hn := by
    rcases extract_cases hx base scripts with ⟨_, hd, h⟩ | ⟨_, _, _, _, _, _, hs, h⟩ <;> rw [h]
    · exact hd.admitted.declaredIn? hn
    · exact hs.admitted.declaredIn? hn

/-- The third script declares an element and, before that, a module that the first one has declared. The element is
entered all the same, and the last script is not requested. -/
theorem extract_inOrder_duplicate :
    ∃ (x : Extractor) (scripts : List Node), x.InOrder "index.html" scripts ∧
      (x.extract "index.html" scripts).1 =
        some (.error (.duplicate .scriptModule "m-a" "index.html" "index.html")) ∧
      (x.extract "index.html" scripts).2.registries =
        { elements := ⟨[("x-c", "index.html"), ("x-b", "index.html"), ("x-z", "old.html")]⟩
          modules := ⟨[("m-a", "index.html")]⟩ } ∧
      (x.extract "index.html" scripts).2.requests = ["b.js"] := by
  let x : Extractor :=
    { loader? := some (.shelf [("b.js", "Polymer(\x7bis:'x-b'\x7d)")] []), readScript := Script.read
      registries := { elements := ⟨[("x-z", "old.html")]⟩ } }
  let inline (text : String) : Node := { tag := "script", attributes := [], text? := some text, line := 1 }
  let named (target : String) : Node := { tag := "script", attributes := [("src", target)], line := 1 }
  have hx : x.Prompt := by
    rintro _ ⟨⟩ a
    rfl
  exact ⟨x, [inline "modulate('m-a', f)", named "b.js", inline "modulate('m-a', f); Polymer(\x7bis:'x-c'\x7d)",
    named "d.js"], extract_inOrder hx _ _, by decide +kernel, by decide +kernel, by decide +kernel⟩

end Extractor

end ImportTree
