import ImportTree.Proofs.Analysis.Shape
import ImportTree.Proofs.Session.Inner
import ImportTree.Proofs.Session.Lone
import ImportTree.Proofs.Site.Names

/-!
# Analyses without a loader

An analysis without a loader says of its root what the scripts in the root itself declare. It does so whenever one with
a loader answers a tree: what is imported, and what scripts from elsewhere declare, can only make a tree fail.
-/

namespace ImportTree.Analysis

open Session (Lone declaring)

variable {readers : Readers} {loader? : Option Loader} {attach eager : Bool} {root text : String} {a : Analysis}
  {tree : Tree} {markup : Structure} {parts : List Metadata} {m : Metadata}
  {expected : String → Node → Except AnalysisError Metadata}

/-! ## With a loader -/

/-- What the page of a root says is declared by its scripts, each name once. -/
theorem perform_tree_yields (hs : a.session.Coherent) (hregistered : a.session.Registered)
    (h : a.session.Agrees expected) {d : Document} (hd : a.session.document? a.root = some d)
    (htree : (a.perform .tree).1 = .tree tree) : ∃ m, tree.page = Session.page d m ∧ (∀ kind, (m.names kind).Nodup) ∧
      Extraction.Yields (expected a.root) d.markup.scripts m := by
  obtain ⟨_, _, hk, _⟩ := perform_tree hs htree
  obtain ⟨e, he, hx⟩ := Option.bind_eq_some_iff.mp hk
  obtain ⟨m, hm, _, hpage⟩ := Session.expansion?_eq_some hx
  obtain ⟨e', he', hbefore⟩ := (perform_evolves .tree hs).grows.documents hd
  cases he.symm.trans he'
  have hdone : e.extraction = .done (.ok m) := by
    cases hc : e.extraction with
    | running _ => rw [hc] at hm; cases hm
    | done r => rw [hc] at hm; cases hm; rfl
  refine ⟨m, ?_, (perform_registered .tree hs hregistered).nodup_names he (Session.declared?_eq_some.mpr hdone), ?_⟩
  · rw [hpage, Session.page, Session.page, hbefore.address, hbefore.markup]
  · have hagrees := (run_extracts (Session.agrees_persists expected) [.tree] hs h).extraction he
    rw [hdone, hbefore.markup] at hagrees
    exact hagrees

/-! ## Without one -/

theorem start_lone (hread : readers.markup text = .ok markup)
    (hparts : markup.scripts.map ((blank readers loader? attach eager).extractor.inner root) = parts.map .ok)
    (hnodup : ∀ kind, ((Metadata.join parts).names kind).Nodup) (eager' : Bool) :
    ∃ b, start readers none attach eager' root text = .ok b ∧ b.root = root ∧ b.session.Lone root markup parts := by
  obtain ⟨b, hb⟩ := start_ok readers hread none attach eager' root
  obtain ⟨hroot, markup', hread', hsession⟩ := start_read hb
  cases hread.symm.trans hread'
  refine ⟨b, hb, hroot, start_coherent hb, by rw [hsession]; rfl, Document.fresh root markup, by rw [hsession]; rfl, ?_⟩
  refine .fresh ⟨?_, fun kind => ?_⟩
  · rw [hsession]
    exact hparts
  · rw [Metadata.namesOf_sequence, hsession]
    refine ⟨hnodup kind, fun name _ => ?_⟩
    cases kind <;> rfl

/-- What an analysis of a lone document answers, whatever it was asked for before. -/
theorem perform_lone (h : a.session.Lone a.root markup parts) (hlive : a.session.dropped = false) {steps : List Step}
    (hsteps : ∀ step ∈ steps, step.Asks fun _ => True) :
    ((a.run steps).2.perform .tree).1 =
        .tree ⟨Session.page (declaring a.root markup parts .idle) (Metadata.join parts), .nil⟩ ∧
      ((a.run steps).2.perform .dependencies).1 = .addresses [] := by
  have hlone := run_asks_keeps (Session.lone_upkeep a.root markup parts) (fun goal h => h.pollGoal_keeps goal) hsteps h
  obtain ⟨hchanges, hroot⟩ := run_changes h.coherent trivial hsteps
  have hlive' := hchanges.steady.dropped.trans hlive
  rw [perform_of_live hlive', perform_of_live hlive']
  constructor
  · refine answer_ok ?_
    rw [hroot]
    exact hlone.tree
  · refine answer_ok ?_
    rw [hroot]
    exact hlone.dependencies

/-- What an analysis with a loader says of its root, one without says as well, but for what comes from elsewhere: it
answers the same page without what scripts of other addresses declare, and no imports. The tree of any one analysis with
a loader is enough for that, whatever has happened to it. -/
theorem inner_tree {loader : Loader} (hstart : start readers (some loader) attach eager root text = .ok a)
    (steps : List Step) (htree : ((a.run steps).2.perform .tree).1 = .tree tree) (eager' : Bool) :
    ∃ b, start readers none attach eager' root text = .ok b ∧
      ∀ asked : List Step, (∀ step ∈ asked, step.Asks fun _ => True) →
        ((b.run asked).2.perform .tree).1 = .tree ⟨tree.page.inner, .nil⟩ ∧
        ((b.run asked).2.perform .dependencies).1 = .addresses [] := by
  obtain ⟨hroot, markup, hread, hsession⟩ := start_read hstart
  have hs := start_coherent hstart
  obtain ⟨hrun, hrun_root⟩ := run_evolves steps hs
  have hfirst : a.session.document? root = some (Document.fresh root markup) := by
    rw [hsession]
    exact (Session.document?_register markup ((blank_blank ..).document? root)).trans (if_pos rfl)
  obtain ⟨d, hd, hbefore⟩ := hrun.grows.documents hfirst
  have hroot' : (a.run steps).2.root = root := hrun_root.trans hroot
  have hpersists := Session.agrees_persists (blank readers (some loader) attach eager).extractor.inner
  obtain ⟨m, hpage, hnodup, parts, hparts, hinner⟩ := perform_tree_yields hrun.coherent
    (registered_run steps hs (start_registered hstart))
    (run_extracts hpersists steps hs (start_extracts hpersists hstart rfl)) (hroot' ▸ hd) htree
  have hparts' :
      markup.scripts.map ((blank readers (some loader) attach eager).extractor.inner root) = parts.map .ok := by
    rw [hroot', hbefore.markup] at hparts
    exact hparts
  obtain ⟨b, hb, hb_root, hlone⟩ := start_lone hread hparts'
    (fun kind => hinner ▸ (Metadata.names_inner_sublist kind).nodup (hnodup kind)) eager'
  refine ⟨b, hb, fun asked hasked => ?_⟩
  obtain ⟨htree', hdependencies⟩ := perform_lone (hb_root ▸ hlone) (start_resolved hb).2.steady.dropped hasked
  refine ⟨?_, hdependencies⟩
  rw [htree', hpage, Session.inner_page, hinner, hb_root, Session.page, Session.page, hbefore.address, hbefore.markup]
  rfl

/-- The root has a script from elsewhere and one of its own, and an import that imports it in turn. -/
theorem inner_tree_of_script : ∃ (text : String) (a b : Analysis) (tree : Tree),
    start {} (some (.shelf [("b", "<link rel=import href=a>"), ("c.js", "Polymer(\x7bis:'x-out'\x7d)")] [("c.js", 2)]))
        false true "a" text = .ok a ∧
      start {} none false true "a" text = .ok b ∧
      ((a.run [.dependencies]).2.perform .tree).1 = .tree tree ∧
      tree.page.elements.map (·.name) = ["x-out", "x-in"] ∧ tree.imports.addresses = ["b"] ∧
      tree.page.inner.elements = [{ name := "x-in", address := "a", line := 1, template? := some 0 }] ∧
      ((b.run [.rootImports]).2.perform .tree).1 = .tree ⟨tree.page.inner, .nil⟩ ∧
      ((b.run [.rootImports]).2.perform .dependencies).1 = .addresses [] := by
  let loader : Loader :=
    .shelf [("b", "<link rel=import href=a>"), ("c.js", "Polymer(\x7bis:'x-out'\x7d)")] [("c.js", 2)]
  let text := "<link rel=import href=b><script src=c.js></script><dom-module id=x-in></dom-module>" ++
    "<script>Polymer(\x7bis:'x-in'\x7d)</script>"
  let link (target : String) : Node := { tag := "link", attributes := [("rel", "import"), ("href", target)], line := 1 }
  let markup : Structure :=
    { scripts := [{ tag := "script", attributes := [("src", "c.js")], line := 1 },
        { tag := "script", text? := some "Polymer(\x7bis:'x-in'\x7d)", line := 1 }]
      imports := [link "b"]
      templates := [{ tag := "dom-module", attributes := [("id", "x-in")], line := 1 }] }
  have hmarkup : Structure.read text = .ok markup := by decide +kernel
  obtain ⟨a, ha⟩ := start_ok {} hmarkup (some loader) false true "a"
  let tree : Tree :=
    { page := {
        address := "a"
        elements := [{ name := "x-out", address := "a", scriptAddress? := some "c.js", line := 1 },
          { name := "x-in", address := "a", line := 1, template? := some 0 }]
        modules := []
        markup := markup }
      imports := .expanded { address := "b", elements := [], modules := [], markup := { imports := [link "a"] } }
        (.placeholder "a" .nil) .nil }
  have hanswer : (start {} (some loader) false true "a" text).toOption.map
      (fun a => ((a.run [.dependencies]).2.perform .tree).1) = some (.tree tree) := by
    decide +kernel
  rw [ha] at hanswer
  have htree : ((a.run [.dependencies]).2.perform .tree).1 = .tree tree := Option.some.inj hanswer
  obtain ⟨b, hb, hall⟩ := inner_tree ha [.dependencies] htree true
  obtain ⟨htree', hdependencies⟩ := hall [.rootImports] (by simp [Step.Asks])
  exact ⟨text, a, b, tree, ha, hb, htree, rfl, rfl, by decide, htree', hdependencies⟩

end ImportTree.Analysis
