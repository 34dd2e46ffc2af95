import ImportTree.Proofs.Session.Background
import ImportTree.Proofs.Session.Trails
import ImportTree.Proofs.Site.Sound

/-!
# Ends

Whatever a site contains, and whatever an analysis of it was asked before, its walks end and its background work runs
out. Imports of an address by itself, cycles and missing documents are no exceptions.
-/

namespace ImportTree

open Analysis (start Step)

/-! ## All steps -/

namespace Analysis

variable {a : Analysis}

theorem supplied_invariant : Invariant fun s => ∃ V, s.Supplied V where
  awaited goal := fun ⟨V, h⟩ =>
    ⟨V, h.changes (Session.await_anywhere h.coherent goal).changes (h.tended.await h.coherent goal)⟩
  idled := fun ⟨V, h⟩ => ⟨V, h.changes (Session.idle_changes (fun _ => True) h.coherent)
    (Session.tended_upkeep.idle ⟨h.coherent, h.tended⟩).2⟩
  slept time := fun ⟨V, h⟩ => ⟨V, h.sleep time⟩
  resolved hr := fun ⟨V, h⟩ => ⟨V, h.resolved hr⟩
  inserted address text := fun ⟨V, h⟩ => ⟨address :: V, h.insert address text⟩
  dropped := fun ⟨V, h⟩ => ⟨V, h.drop⟩

theorem blank_supplied (readers : Readers) {loader : Loader} (h : loader.Bounded) (attach eager : Bool) :
    ∃ V, (blank readers (some loader) attach eager).Supplied V := by
  obtain ⟨V, hlen, hV⟩ := h
  have hblank := blank_blank readers (some loader) attach eager
  refine ⟨V, hblank.coherent, rfl, fun b text hb => ?_, hlen, ⟨nofun, fun _ => rfl, fun _ b d hd => ?_⟩⟩
  · obtain ⟨_, hl, hb⟩ := hb
    cases hl
    exact hV hb
  · cases (hblank.document? b).symm.trans hd

theorem supplied_run {readers : Readers} {loader : Loader} {attach eager : Bool} {root text : String}
    (hstart : start readers (some loader) attach eager root text = .ok a) (h : loader.Bounded) (steps : List Step) :
    ∃ V, (a.run steps).2.session.Supplied V := by
  obtain ⟨V, hV⟩ := blank_supplied readers h attach eager
  exact supplied_invariant.run steps ⟨V, hV.resolved (start_resolved hstart).2⟩

end Analysis

/-! ## Ends -/

namespace Session

variable {s : Session} {V : List String} {root : String}

/-- Whether the walks of a session end and its background work runs out. -/
structure Ends (s : Session) (root : String) : Prop where
  /-- Building the tree ends. It visits documents that are there or in the loader, each once at most. -/
  tree : (∃ r, (s.tree root).1 = some r) ∧ (s.treeTrail root).Accounts (s.tree root) s.Available
  /-- Listing dependencies ends. It takes such addresses from its queue, each once at most. -/
  dependencies : ∀ start, (∃ r, (s.dependencies start).1 = some r) ∧
    (s.dependenciesTrail start).Accounts (s.dependencies start) fun a => a = start ∨ s.Available a
  queue : s.idle.queue = []
  /-- Where documents are worked on in the background, the imports of all of them come to an end. -/
  imports : s.eager = true → ∀ {a d}, s.idle.document? a = some d → ∃ r, d.imports.result? = some r

theorem Supplied.ends (h : s.Supplied V) (hr : s.holds root = true) : s.Ends root := by
  obtain ⟨loader, hl⟩ := Option.isSome_iff_exists.mp h.loader
  have hbounded : loader.Bounded := by
    have hextent := h.extent
    rw [Session.extent, hl] at hextent
    exact ⟨V, hextent, fun ha => h.stocked _ _ ⟨loader, hl, ha⟩⟩
  obtain ⟨W, hwithin, hW⟩ := within_of_bounded h.coherent hl hbounded
  exact {
    tree := ⟨tree_isSome hwithin hr hW, treeTrail_accounts h.coherent hr⟩
    dependencies start := ⟨dependencies_isSome start hwithin hW, dependenciesTrail_accounts h.coherent start⟩
    queue := h.idle.1
    imports := h.idle.2 }

end Session

namespace Site

variable {w : Site} {a : Analysis}

/-- All walks over a site end, and so does the background work, however late responses come and whatever the analysis
was asked before. -/
theorem walks_end (w : Site) (delay : String → Nat) (eager : Bool) (steps : List Step)
    (hstart : start w.readers (some (w.loader delay)) w.attach eager w.root w.text = .ok a) :
    (a.run steps).2.session.Ends w.root := by
  obtain ⟨V, h⟩ := Analysis.supplied_run hstart (w.loader_bounded delay) steps
  have hroot := (Analysis.start_resolved hstart).2.holds
  exact h.ends ((Analysis.run_evolves steps (Analysis.start_coherent hstart)).1.grows.holds hroot)

/-- The root imports itself and a document that imports the root and one that is missing. -/
theorem walks_end_of_cycle :
    ∃ w : Site, w.documents = [("b", "<link rel=import href=a><link rel=import href=c>")] ∧
      ∃ a, start w.readers (some (w.loader fun _ => 3)) w.attach true w.root w.text = .ok a ∧
        (a.run [.sleep 1]).2.session.Ends w.root ∧
        ((a.run [.sleep 1]).2.session.treeTrail w.root).entered = ["a", "b"] ∧
        ((a.run [.sleep 1]).2.session.dependenciesTrail w.root).entered = ["a", "b"] := by
  let w : Site :=
    { readers := {}, attach := true, root := "a", text := "<link rel=import href=a><link rel=import href=b>"
      documents := [("b", "<link rel=import href=a><link rel=import href=c>")] }
  have hrun : (start w.readers (some (w.loader fun _ => 3)) w.attach true w.root w.text).toOption.map (fun a =>
      (((a.run [.sleep 1]).2.session.treeTrail w.root).entered,
        ((a.run [.sleep 1]).2.session.dependenciesTrail w.root).entered)) = some (["a", "b"], ["a", "b"]) := by
    decide +kernel
  obtain ⟨a, ha, hrun⟩ := Option.map_eq_some_iff.mp hrun
  have hstart := toOption_eq_some ha
  rw [Prod.mk.injEq] at hrun
  exact ⟨w, rfl, a, hstart, walks_end w _ true [.sleep 1] hstart, hrun⟩

end Site

end ImportTree
