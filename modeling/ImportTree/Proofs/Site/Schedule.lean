import ImportTree.Proofs.Site.Sound

/-!
# Schedules

Whether the tree of a site is built, and which tree it is, does not depend on when the responses come or on what was
asked before.
-/

namespace ImportTree

open Analysis (start Step)

namespace Site

variable {w : Site} {m : Structure} {a : Analysis} {steps : List Step}

/-- An analysis that has only found what the site says. -/
structure Follows (w : Site) (a : Analysis) : Prop where
  root : a.root = w.root
  coherent : a.session.Coherent
  faithful : w.Faithful a.session

/-! ## The start -/

theorem blank_count (w : Site) (delay : String → Nat) (eager : Bool) (k : Kind) (n b : String) :
    (Analysis.blank w.readers (some (w.loader delay)) w.attach eager).extractor.registries.count k n b = 0 := by
  cases k <;> rfl

theorem document?_start {delay : String → Nat} {eager : Bool} {b : String} {d : Document}
    (h : ((Analysis.blank w.readers (some (w.loader delay)) w.attach eager).register w.root m).document? b = some d) :
    b = w.root ∧ d = .fresh w.root m := by
  have hblank := Analysis.blank_blank w.readers (some (w.loader delay)) w.attach eager
  rw [Session.document?_register m (hblank.document? _), hblank.document?] at h
  split at h
  next hb => cases h; exact ⟨hb, rfl⟩
  next => cases h

theorem markup?_root (hroot : w.readers.markup w.text = .ok m) : w.markup? w.root = some m := by
  simp [markup?, text?, hroot, Except.toOption]

theorem register_faithful (hroot : w.readers.markup w.text = .ok m) (delay : String → Nat) (eager : Bool) :
    w.Faithful ((Analysis.blank w.readers (some (w.loader delay)) w.attach eager).register w.root m) where
  serves := ⟨⟨delay, rfl⟩, rfl, rfl⟩
  readMarkup := rfl
  root := by
    have hblank := Analysis.blank_blank w.readers (some (w.loader delay)) w.attach eager
    exact Session.holds_iff.mpr ⟨_, by rw [Session.document?_register m (hblank.document? _), if_pos rfl]⟩
  markup {b d} hd := by
    obtain ⟨rfl, rfl⟩ := document?_start hd
    exact markup?_root hroot
  live := rfl
  given := rfl
  settled {b d} hd := by
    obtain ⟨rfl, rfl⟩ := document?_start hd
    exact settled_fresh .refl (markup?_root hroot) fun k n => w.blank_count delay eager k n _
  unfetched {b e} he := by cases he
  distinct k := by cases k <;> exact List.nodup_nil
  absent _ k n := w.blank_count delay eager k n _

/-- An analysis of a site whose root can be read begins, and has found nothing else yet. -/
theorem start_follows (hroot : w.readers.markup w.text = .ok m) (delay : String → Nat) (eager : Bool) :
    ∃ a, start w.readers (some (w.loader delay)) w.attach eager w.root w.text = .ok a ∧ w.Follows a := by
  obtain ⟨a, ha⟩ := Analysis.start_ok w.readers hroot (some (w.loader delay)) w.attach eager w.root
  obtain ⟨hr, _, hm, hsession⟩ := Analysis.start_read ha
  cases hroot.symm.trans hm
  exact ⟨a, ha, hr, Analysis.start_coherent ha, hsession ▸ register_faithful hroot delay eager⟩

/-! ## Steps -/

theorem Follows.run (h : w.Follows a) (hsteps : ∀ step ∈ steps, step.Asks w.Reaches) : w.Follows (a.run steps).2 := by
  have hrun := Analysis.run_changes h.coherent (h.root ▸ .refl : w.Reaches a.root) hsteps
  exact ⟨hrun.2.trans h.root, h.coherent.changes hrun.1, h.faithful.changes hrun.1⟩

theorem Follows.perform (h : w.Follows a) {step : Step} (hstep : step.Asks w.Reaches) :
    w.Follows (a.perform step).2 := by
  have hc := Analysis.perform_changes h.coherent (h.root ▸ .refl : w.Reaches a.root) hstep
  exact ⟨(Analysis.perform_root a step).trans h.root, h.coherent.changes hc, h.faithful.changes hc⟩

theorem Follows.tree (h : w.Follows a) :
    (∃ tree, (a.perform .tree).1 = .tree tree ∧ w.IsTree tree ∧ w.Complete (a.perform .tree).2.session ∧ w.Sound) ∨
      ∃ e, (a.perform .tree).1 = .failed e ∧ w.Blames e := by
  rw [Analysis.perform_of_live h.faithful.live]
  simp only [Analysis.performAnyway, Analysis.answer_session, h.root]
  rcases h.faithful.tree h.coherent with ⟨tree, ht, hw⟩ | ⟨e, he, hb⟩
  · exact .inl ⟨tree, Analysis.answer_ok ht, hw⟩
  · exact .inr ⟨e, Analysis.answer_error he, hb⟩

theorem Follows.tree_of_sound (h : w.Follows a) (hs : w.Sound) :
    ∃ tree, (a.perform .tree).1 = .tree tree ∧ w.IsTree tree ∧ w.Complete (a.perform .tree).2.session := by
  obtain ⟨tree, ht, htree, hc, _⟩ := h.tree.resolve_right fun ⟨_, _, hb⟩ => hb.not_sound hs
  exact ⟨tree, ht, htree, hc⟩

theorem Follows.sound_of_tree {tree : Tree} (h : w.Follows a) (ht : (a.perform .tree).1 = .tree tree) : w.Sound := by
  rcases h.tree with ⟨_, _, _, _, hs⟩ | ⟨e, he, _⟩
  · exact hs
  · cases ht.symm.trans he

/-- Take a site whose root can be read. If it is sound, there is one tree that every analysis answers, however late
its responses come and whatever of the site it was asked for before. If it is not, every analysis fails, and blames a
defect of the site. -/
theorem tree_schedule (w : Site) (hroot : w.readers.markup w.text = .ok m) :
    (w.Sound → ∃ tree, w.IsTree tree ∧
      ∀ (delay : String → Nat) (eager : Bool) (steps : List Step), (∀ step ∈ steps, step.Asks w.Reaches) →
        ∃ a, start w.readers (some (w.loader delay)) w.attach eager w.root w.text = .ok a ∧
          ((a.run steps).2.perform .tree).1 = .tree tree) ∧
    (¬w.Sound →
      ∀ (delay : String → Nat) (eager : Bool) (steps : List Step), (∀ step ∈ steps, step.Asks w.Reaches) →
        ∃ a, start w.readers (some (w.loader delay)) w.attach eager w.root w.text = .ok a ∧
          ∃ e, ((a.run steps).2.perform .tree).1 = .failed e ∧ w.Blames e) := by
  constructor
  · intro hsound
    obtain ⟨a₀, _, h₀⟩ := start_follows hroot (fun _ => 0) false
    obtain ⟨tree, _, htree, _⟩ := h₀.tree_of_sound hsound
    refine ⟨tree, htree, fun delay eager steps hsteps => ?_⟩
    obtain ⟨a, ha, h⟩ := start_follows hroot delay eager
    obtain ⟨tree', ht, htree', _⟩ := (h.run hsteps).tree_of_sound hsound
    exact ⟨a, ha, htree.unique htree' ▸ ht⟩
  · intro hsound delay eager steps hsteps
    obtain ⟨a, ha, h⟩ := start_follows hroot delay eager
    exact ⟨a, ha, (h.run hsteps).tree.resolve_left fun ⟨_, _, _, _, hs⟩ => hsound hs⟩

/-- Two documents that import one another, where responses take their time. -/
theorem tree_schedule_of_cycle :
    ∃ w : Site, w.documents = [("b", "<link rel=import href=a><script>Polymer(\x7bis:'x-b'\x7d)</script>")] ∧ w.Sound ∧
      ∃ a tree, start w.readers (some (w.loader fun _ => 3)) w.attach true w.root w.text = .ok a ∧
        ((a.run [.load "b", .sleep 1]).2.perform .tree).1 = .tree tree ∧ tree.expandedAddresses = ["a", "b"] := by
  let w : Site :=
    { readers := {}, attach := true, root := "a", text := "<link rel=import href=b>"
      documents := [("b", "<link rel=import href=a><script>Polymer(\x7bis:'x-b'\x7d)</script>")] }
  let link : Node := { tag := "link", attributes := [("rel", "import"), ("href", "b")], line := 1 }
  have hroot : w.readers.markup w.text = .ok { imports := [link] } := by decide +kernel
  have hmarkup : w.markup? "a" = some { imports := [link] } := by decide +kernel
  have hload : w.Reaches "b" :=
    .single ⟨_, "b", hmarkup, by decide +kernel, by decide +kernel⟩
  have hsteps : ∀ step ∈ [Step.load "b", .sleep 1], step.Asks w.Reaches := by simp [Step.Asks, hload]
  have hexpanded : (start w.readers (some (w.loader fun _ => 3)) w.attach true w.root w.text).toOption.map
      (fun a => match ((a.run [.load "b", .sleep 1]).2.perform .tree).1 with
        | .tree tree => tree.expandedAddresses
        | _ => []) = some ["a", "b"] := by
    decide +kernel
  have hsound : w.Sound := by
    by_contra hsound
    obtain ⟨a, ha, e, he, _⟩ := (tree_schedule w hroot).2 hsound (fun _ => 3) true _ hsteps
    simp [ha, he, Except.toOption] at hexpanded
  obtain ⟨tree, _, hall⟩ := (tree_schedule w hroot).1 hsound
  obtain ⟨a, ha, htree⟩ := hall (fun _ => 3) true _ hsteps
  simp only [ha, htree, Except.toOption, Option.map_some, Option.some.injEq] at hexpanded
  exact ⟨w, rfl, hsound, a, tree, ha, htree, hexpanded⟩

end Site

end ImportTree
