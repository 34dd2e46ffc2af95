import ImportTree.Proofs.Session.Booking
import ImportTree.Proofs.Site.Mirror
import Mathlib.Data.List.NodupEquivFin

/-!
# The scripts of a site

Polls of the scripts of a document find what the site says of them. What has been entered for the document and what its
scripts may still enter is never more than the site declares there, so a name that is refused stands at two places.
-/

namespace ImportTree

namespace Site

variable {w : Site} {a b : String} {node : Node} {x y z : Extractor} {task task' : ScriptTask} {rs rs' : Registries}

/-- How far a script of the document at an address can have come. -/
def Traces (w : Site) (a : String) (node : Node) : ScriptTask → Prop
  | .fresh node' => node' = node
  | .waiting b _ => node.External a b
  | .done declared => w.script? a node = some declared
  | .failed e => w.Blames e

/-! ## Names that may still be entered -/

/-- The names of a kind that a script may still enter. -/
def due (w : Site) (a : String) (kind : Kind) (node : Node) : ScriptTask → List String
  | .fresh _ | .waiting _ _ => w.scriptNames a kind node
  | .done _ | .failed _ => []

/-- The names of a kind that scripts may still enter. -/
def dues (w : Site) (a : String) (kind : Kind) (nodes : List Node) (tasks : List ScriptTask) : List String :=
  (nodes.zip tasks).flatMap fun p => w.due a kind p.1 p.2

theorem count_dues_cons (nodes : List Node) (tasks : List ScriptTask) (k : Kind) (n : String) :
    (w.dues a k (node :: nodes) (task :: tasks)).count n =
      (w.due a k node task).count n + (w.dues a k nodes tasks).count n := by
  rw [dues, List.zip_cons_cons, List.flatMap_cons, List.count_append, dues]

theorem dues_fresh (nodes : List Node) (k : Kind) :
    w.dues a k nodes (nodes.map .fresh) = nodes.flatMap (w.scriptNames a k) := by
  induction nodes with
  | nil => rfl
  | cons node nodes ih => exact congrArg (w.scriptNames a k node ++ ·) ih

/-! ## Refused names -/

/-- Whether all that is entered for addresses other than one is declared there by the site. -/
structure Elsewhere (w : Site) (a : String) (rs : Registries) : Prop where
  reached : ∀ {k n b}, b ≠ a → 1 ≤ rs.count k n b → w.Reaches b
  count_le : ∀ {b}, b ≠ a → ∀ k n, rs.count k n b ≤ (w.names k b).count n

theorem Elsewhere.congr (h : w.Elsewhere a rs) (hc : ∀ k n b, b ≠ a → rs'.count k n b = rs.count k n b) :
    w.Elsewhere a rs' where
  reached hb hn := h.reached hb (hc _ _ _ hb ▸ hn)
  count_le hb k n := hc k n _ hb ▸ h.count_le hb k n

theorem exists_two_of_count {l : List String} {n : String} (h : 2 ≤ l.count n) :
    ∃ i j : Nat, i ≠ j ∧ l[i]? = some n ∧ l[j]? = some n := by
  obtain ⟨i, j, hlt, hi, hj⟩ := List.duplicate_iff_exists_distinct_get.mp (List.duplicate_iff_two_le_count.mpr h)
  exact ⟨i, j, Nat.ne_of_lt hlt, by simp [hi], by simp [hj]⟩

theorem exists_of_count {l : List String} {n : String} (h : 1 ≤ l.count n) : ∃ i : Nat, l[i]? = some n :=
  List.getElem?_of_mem (List.one_le_count_iff.mp h)

/-- A name that is refused stands at two places in the scripts of the site. -/
theorem blames_duplicate {kind : Kind} {name first : String} (ha : w.Reaches a) (helse : w.Elsewhere a rs)
    (hfirst : 1 ≤ rs.count kind name first) (hroom : rs.count kind name a + 1 ≤ (w.names kind a).count name) :
    w.Blames (.duplicate kind name first a) := by
  by_cases hf : first = a
  · subst hf
    obtain ⟨i, j, hne, hi, hj⟩ := exists_two_of_count (Nat.le_trans (Nat.succ_le_succ hfirst) hroom)
    exact .duplicate ha ha hi hj fun h => hne h.2
  · obtain ⟨i, hi⟩ := exists_of_count (Nat.le_trans hfirst (helse.count_le hf kind name))
    obtain ⟨j, hj⟩ := exists_of_count (Nat.le_trans (Nat.le_add_left 1 _) hroom)
    exact .duplicate (helse.reached hf hfirst) ha hi hj fun h => hf h.1

/-! ## One script -/

/-- What a poll of a script comes to, given the names that it may still enter: it enters no more than those it then may
enter no more, and at least one less if a name is refused. -/
inductive Pays (w : Site) (a : String) (node : Node) (rs rs' : Registries) (total : Kind → List String) :
    Except AnalysisError ScriptTask → Prop where
  | ok {task' : ScriptTask} : w.Traces a node task' →
      (∀ k n, rs'.count k n a + (w.due a k node task').count n ≤ rs.count k n a + (total k).count n) →
      Pays w a node rs rs' total (.ok task')
  | blamed {e : AnalysisError} : w.Blames e → (∀ k n, rs'.count k n a ≤ rs.count k n a + (total k).count n) →
      Pays w a node rs rs' total (.error e)
  | refused {kind : Kind} {name first : String} : 1 ≤ rs'.count kind name first →
      (∀ k n, rs'.count k n a + (if k = kind ∧ n = name then 1 else 0) ≤ rs.count k n a + (total k).count n) →
      Pays w a node rs rs' total (.error (.duplicate kind name first a))

theorem script?_silent (h : node.isReadableScript = true → node.text? = none ∧ node.attribute? "src" = none) :
    w.script? a node = some {} := by
  unfold script?
  split
  next hr =>
    obtain ⟨ht, hs⟩ := h hr
    simp [ht, hs]
  next => rfl

theorem script?_inline {text : String} {declared : Metadata} (hr : node.isReadableScript = true)
    (ht : node.text? = some text) (hd : w.readers.script text w.attach = .ok declared) :
    w.script? a node = some (declared.locate a none) := by
  simp [script?, hr, ht, hd, Except.toOption]

theorem script?_external {b text : String} {declared : Metadata} (hx : node.External a b)
    (hl : w.documents.lookup b = some text) (hd : w.readers.script text w.attach = .ok declared) :
    w.script? a node = some (declared.locate a (some b)) := by
  obtain ⟨target, hs, ha⟩ := hx.source
  simp [script?, hx.readable, hx.text, hs, ha, hl, hd, Except.toOption]

/-- Declaring what a script of the site declares. -/
theorem declare_pays {text : String} {script? : Option String} {r : Except AnalysisError Metadata} (hx : w.Serves x)
    (h : x.declare a script? text = (r, y))
    (hfault : ∀ f, w.readers.script text w.attach = .error f → w.Blames (.unreadable (script?.getD a) f.message))
    (htotal : ∀ declared, w.readers.script text w.attach = .ok declared →
      w.script? a node = some (declared.locate a script?)) :
    w.Pays a node x.registries y.registries (w.scriptNames a · node) (r.map .done) := by
  unfold Extractor.declare at h
  rw [hx.readScript, hx.attach] at h
  cases hs : w.readers.script text w.attach with
  | error f =>
      rw [hs] at h
      cases h
      exact .blamed (hfault f hs) fun _ _ => Nat.le_add_right ..
  | ok m =>
      have hnode := htotal m hs
      have hnames (k : Kind) : w.scriptNames a k node = m.names k := by
        rw [scriptNames, hnode, Option.map_some, Option.getD_some, Metadata.names_locate]
      have hentered := Registries.registerAll_entered x.registries m a script?
      rw [hs] at h
      dsimp only at h
      generalize x.registries.registerAll (m.locate a script?) = p at h hentered
      cases hentered with
      | all hall =>
          cases h
          refine .ok hnode fun k n => ?_
          rw [hall, if_pos rfl, hnames]
          exact Nat.le_refl _
      | upTo hfirst _ hbase =>
          cases h
          refine .refused hfirst fun k n => ?_
          rw [hnames]
          exact hbase k n

theorem Traces.listening (ht : w.Traces a node task) (h : ScriptTask.Listening x a task b y) :
    node.External a b ∧ (∀ k, w.due a k node task = w.scriptNames a k node) ∧ y.registries = x.registries := by
  cases h with
  | waiting _ => exact ⟨ht, fun _ => rfl, rfl⟩
  | asking hx =>
      have hn : _ = node := ht
      exact ⟨hn ▸ hx, fun _ => rfl, rfl⟩

theorem poll_pays {r : Except AnalysisError ScriptTask} (hx : w.Serves x) (hn : w.Script a node)
    (ht : w.Traces a node task) (h : task.Polled x a (r, y)) :
    w.Pays a node x.registries y.registries (w.due a · node task) r := by
  obtain ⟨delay, hloader⟩ := hx.loader
  cases h with
  | known | pending _ => exact .ok ht fun _ _ => Nat.le_refl _
  | stuck => exact .blamed ht fun _ _ => Nat.le_add_right ..
  | @silent node' hsilent =>
      have hnode : node' = node := ht
      subst hnode
      refine .ok (script?_silent fun hr => ⟨(hsilent hr).1, (hsilent hr).2.resolve_right ?_⟩) fun k n => ?_
      · rw [hloader]
        simp
      · exact Nat.le_add_right ..
  | @inline node' text _ _ hr htext hd =>
      have hnode : node' = node := ht
      subst hnode
      exact declare_pays hx hd (fun f hf => .script hn (.unreadableInline hr htext hf))
        fun declared hok => script?_inline hr htext hok
  | @unresolved node' target e _ hr htext hs _ he =>
      have hnode : node' = node := ht
      subst hnode
      exact .blamed (.script hn (.unresolvable hr htext hs he)) fun _ _ => Nat.le_add_right ..
  | @asked node' b _ hext _ _ =>
      have hnode : node' = node := ht
      subst hnode
      exact .ok hext fun _ _ => Nat.le_refl _
  | failed hlisten hl hf =>
      obtain ⟨hext, -, hrs⟩ := ht.listening hlisten
      cases hloader.symm.trans hl
      exact .blamed (.script hn (.missing hext (loader_failure hf))) fun _ _ => hrs ▸ Nat.le_add_right ..
  | answered hlisten hl hanswer hd =>
      obtain ⟨hext, hdue, hrs⟩ := ht.listening hlisten
      cases hloader.symm.trans hl
      have hlookup := loader_answer.mp hanswer
      have hpays := declare_pays (hx.before hlisten.before) hd
        (fun f hf => .script hn (.unreadable hext hlookup hf)) fun declared hok => script?_external hext hlookup hok
      simpa only [hdue, hrs] using hpays

/-! ## All scripts of a document -/

/-- A failure blames a defect of the site, as long as what is entered leaves room for what may still be entered. -/
theorem Pays.blames {e : AnalysisError} {total : Kind → List String} {rest : Kind → String → Nat}
    (h : w.Pays a node rs rs' total (.error e)) (ha : w.Reaches a) (helse : w.Elsewhere a rs')
    (hroom : ∀ k n, rs.count k n a + (total k).count n + rest k n ≤ (w.names k a).count n) :
    w.Blames e ∧ ∀ k n, rs'.count k n a + rest k n ≤ (w.names k a).count n := by
  cases h with
  | blamed he hle =>
      refine ⟨he, fun k n => ?_⟩
      have := hle k n
      have := hroom k n
      omega
  | @refused kind name first hfirst hle =>
      refine ⟨blames_duplicate ha helse hfirst ?_, fun k n => ?_⟩
      · have hname := hle kind name
        have := hroom kind name
        rw [if_pos ⟨rfl, rfl⟩] at hname
        omega
      · have := hle k n
        have := hroom k n
        omega

/-- What becomes of a script of the site behind others: it is on its way, or its failure blames a defect. -/
theorem advance_pays {pending : Nat} {rest : Kind → String → Nat} (hx : w.Serves x) (hn : w.Script a node)
    (ht : w.Traces a node task) (h : task.Advanced x a pending (task', y)) (helse : w.Elsewhere a x.registries)
    (hroom : ∀ k n, x.registries.count k n a + (w.due a k node task).count n + rest k n ≤ (w.names k a).count n) :
    w.Traces a node task' ∧ ∀ k n,
      y.registries.count k n a + (w.due a k node task').count n + rest k n ≤ (w.names k a).count n := by
  have helse' := helse.congr h.other
  cases h with
  | polled h =>
      cases poll_pays hx hn ht h with
      | ok ht' hle =>
          refine ⟨ht', fun k n => ?_⟩
          have := hle k n
          have := hroom k n
          omega
  | held _ h => exact (poll_pays hx hn ht h).blames hn.reached helse' hroom

/-- What scripts of a document come to when they are polled, with room for the names in `rest`. -/
inductive Paid (w : Site) (a : String) (nodes : List Node) (rs : Registries) (rest : Kind → String → Nat) :
    Except AnalysisError (List ScriptTask) → Prop where
  | ok {tasks : List ScriptTask} : List.Forall₂ (w.Traces a) nodes tasks →
      (∀ k n, rs.count k n a + (w.dues a k nodes tasks).count n + rest k n ≤ (w.names k a).count n) →
      Paid w a nodes rs rest (.ok tasks)
  | blamed {e : AnalysisError} : w.Blames e → (∀ k n, rs.count k n a + rest k n ≤ (w.names k a).count n) →
      Paid w a nodes rs rest (.error e)

theorem pollTasks_paid {nodes : List Node} {tasks : List ScriptTask} {r : Except AnalysisError (List ScriptTask)}
    {pending : Nat} {rest : Kind → String → Nat} (hx : w.Serves x) (ha : w.Reaches a)
    (hn : ∀ node ∈ nodes, w.Script a node) (ht : List.Forall₂ (w.Traces a) nodes tasks)
    (h : Extraction.TasksPolled a pending x tasks (r, y)) (helse : w.Elsewhere a x.registries)
    (hroom : ∀ k n, x.registries.count k n a + (w.dues a k nodes tasks).count n + rest k n ≤
      (w.names k a).count n) : w.Paid a nodes y.registries rest r := by
  generalize hp : (r, y) = p at h
  induction h generalizing nodes r rest with
  | nil => cases hp; exact .ok ht hroom
  | @failed _ x _ _ task _ h =>
      cases hp
      cases ht with
      | @cons node _ _ _ hnode _ =>
          obtain ⟨hnhead, -⟩ := List.forall_mem_cons.mp hn
          have hhead : ∀ k n, x.registries.count k n a + (w.due a k node task).count n + rest k n ≤
              (w.names k a).count n := fun k n => by
            have := hroom k n
            rw [count_dues_cons] at this
            omega
          obtain ⟨hblames, hle⟩ := (poll_pays hx hnhead hnode h).blames ha (helse.congr h.books.other) hhead
          exact .blamed hblames hle
  | @cons _ x z _ r task task' tasks h _ ih =>
      cases hp
      cases ht with
      | @cons node _ nodes _ hnode hnodes =>
          obtain ⟨hnhead, hntail⟩ := List.forall_mem_cons.mp hn
          -- The scripts behind are to leave room for what this one may enter, and the other way round.
          have hhead : ∀ k n, x.registries.count k n a + (w.due a k node task).count n +
              ((w.dues a k nodes tasks).count n + rest k n) ≤ (w.names k a).count n := fun k n => by
            have := hroom k n
            rw [count_dues_cons] at this
            omega
          obtain ⟨hnode', hroom'⟩ := advance_pays hx hnhead hnode h helse hhead
          have htail : ∀ k n, z.registries.count k n a + (w.dues a k nodes tasks).count n +
              ((w.due a k node task').count n + rest k n) ≤ (w.names k a).count n := fun k n => by
            have := hroom' k n
            omega
          cases ih (hx.before h.before) hntail hnodes (helse.congr h.other) htail rfl with
          | ok htraces hle =>
              refine .ok (.cons hnode' htraces) fun k n => ?_
              have := hle k n
              rw [count_dues_cons]
              omega
          | blamed he hle => exact .blamed he fun k n => by have := hle k n; omega

end Site

end ImportTree
