import ImportTree.Proofs.Analysis.Steps
import ImportTree.Proofs.Tree.Entries

/-!
# The shape of a tree

Whatever was asked of an analysis before, a tree that it answers has the same shape: every document stands with its
imports in order, and is expanded exactly where it occurs first.
-/

namespace ImportTree

/-- The addresses that the import links of a page name; they are not followed without a loader. -/
def Page.targets (page : Page) (loading : Bool) : Except AnalysisError (List String) :=
  if loading then (Document.references page.markup).mapM (Address.resolve page.address) else .ok []

/-- Every page of a tree is that of the document at its address, with what that has been found to declare. -/
theorem Session.page_of_tree {s : Session} {tree : Tree} {root : String} {targets visited : List String}
    (hk : s.known root = some (tree.page, targets)) (he : Expands s.known targets [root] tree.imports visited)
    {page : Page} (hp : page ∈ tree.pages) :
    ∃ d m, s.document? page.address = some d ∧ d.extraction.result? = some (.ok m) ∧ page = Session.page d m := by
  obtain ⟨inner, hinner⟩ := he.pages_known s.known_placed hk hp
  obtain ⟨d, hd, hx⟩ := Option.bind_eq_some_iff.mp hinner
  obtain ⟨m, hm, _, hpage⟩ := expansion?_eq_some hx
  exact ⟨d, m, hd, hm, hpage⟩

namespace Analysis

variable {readers : Readers} {loader? : Option Loader} {attach eager : Bool} {root text : String} {a : Analysis}
  {tree : Tree}

/-- What the session knows of an address is what the page itself says of its imports. -/
theorem known_targets {s : Session} {b : String} {page : Page} {targets : List String} (hs : s.Coherent)
    (h : s.known b = some (page, targets)) : page.targets s.extractor.loader?.isSome = .ok targets := by
  obtain ⟨d, hd, hx⟩ := Option.bind_eq_some_iff.mp h
  obtain ⟨m, _, ht, rfl⟩ := Session.expansion?_eq_some hx
  exact (hs.completes hd ht).imported

/-- A tree that an analysis answers is built from what it knows then. -/
theorem perform_tree (hs : a.session.Coherent) (h : (a.perform .tree).1 = .tree tree) : ∃ targets visited,
    (a.perform .tree).2.session.known a.root = some (tree.page, targets) ∧
      Expands (a.perform .tree).2.session.known targets [a.root] tree.imports visited := by
  unfold perform at h ⊢
  split at h
  next => cases h
  next hdrop =>
    rw [if_neg hdrop]
    simp only [performAnyway, answer_session]
    exact (Session.tree_does (fun _ => True) a.root hs).found (answer_tree h)

/-- A tree that an analysis answers is one of its session. -/
theorem tree_of_perform (h : (a.perform .tree).1 = .tree tree) : (a.session.tree a.root).1 = some (.ok tree) := by
  unfold perform at h
  split at h
  next => cases h
  next =>
    simp only [performAnyway] at h
    exact answer_tree h

/-- The shape of a tree from a document: the entries below every expanded document are its imports, in order and with
repetitions, and an entry is expanded exactly where its address occurs first. -/
structure Shaped (loading : Bool) (root : String) (tree : Tree) : Prop where
  children : ∀ node ∈ tree.nodes, node.page.targets loading = .ok node.imports.addresses
  once : tree.expandedAddresses.Nodup
  begins : tree.expandedAddresses.head? = some root
  /-- Placeholders are those of the root, and of what is expanded before them in depth-first order. -/
  placeholder : ∀ {before e after}, tree.imports.entries = before ++ e :: after →
    (e.expanded = false ↔ e.address = root ∨ e.address ∈ expandedIn before)
  first : ∀ {before e after}, tree.imports.entries = before ++ e :: after →
    e.expanded = true → e.address ≠ root ∧ ∀ e' ∈ before, e'.address ≠ e.address

/-- A tree is built from what its session knows then. -/
theorem shaped_tree {s : Session} {b : String} (hs : s.Coherent) (htree : (s.tree b).1 = some (.ok tree)) :
    Shaped s.extractor.loader?.isSome b tree := by
  have hdoes := Session.tree_does (fun _ => True) b hs
  obtain ⟨targets, visited, hk, he⟩ := hdoes.found htree
  have hlast := Session.Evolves.of_changes hs hdoes.changes
  have hplaced : (s.tree b).2.known.Placed := Session.known_placed _
  have hpage : tree.page.address = b := hplaced hk
  have hvisited := he.visited_eq hplaced
  refine ⟨fun node hn => ?_, ?_, by simp [Tree.expandedAddresses, Tree.pages, hpage], fun hl => ?_, fun hl => ?_⟩
  · have hnode : (s.tree b).2.known node.page.address = some (node.page, node.imports.addresses) := by
      rcases List.mem_cons.mp hn with rfl | hn
      · rw [he.addresses_eq hplaced, hplaced hk, hk]
      · exact he.nodes_known hplaced hn
    rw [← known_targets hlast.coherent hnode, hlast.loader]
  · have hnodup := he.nodup (List.nodup_singleton b)
    rw [hvisited] at hnodup
    have hswap := List.nodup_reverse.mpr hnodup
    simpa [Tree.expandedAddresses, Tree.pages, hpage] using hswap
  · have hm := he.marked hplaced
    rw [hl] at hm
    simpa using hm.split
  · have hm := he.marked hplaced
    rw [hl] at hm
    simpa using hm.first

/-- After any steps, a tree from any document has its shape, and so has the tree that the analysis answers. -/
theorem tree_shape (hstart : start readers loader? attach eager root text = .ok a) (steps : List Step) :
    (∀ b tree, ((a.run steps).2.session.tree b).1 = some (.ok tree) → Shaped loader?.isSome b tree) ∧
    ∀ tree, ((a.run steps).2.perform .tree).1 = .tree tree → Shaped loader?.isSome root tree := by
  obtain ⟨hroot, hresolved⟩ := start_resolved hstart
  obtain ⟨hrun, hrun_root⟩ := run_evolves steps (start_coherent hstart)
  have hloader : (a.run steps).2.session.extractor.loader?.isSome = loader?.isSome :=
    hrun.loader.trans (congrArg Option.isSome hresolved.steady.loader)
  have hshape (b : String) (tree : Tree) (h : ((a.run steps).2.session.tree b).1 = some (.ok tree)) :
      Shaped loader?.isSome b tree := hloader ▸ shaped_tree hrun.coherent h
  refine ⟨hshape, fun tree htree => ?_⟩
  rw [← hroot, ← hrun_root]
  exact hshape _ tree (tree_of_perform htree)

/-- A document that imports another one twice, which imports the first one in turn. -/
theorem tree_shape_of_cycle :
    ∃ a tree, start {} (some (.shelf [("b", "<link rel=import href=a>")] [("b", 2)])) false true "a"
        "<link rel=import href=b><link rel=import href=b>" = .ok a ∧
      ((a.run [.dependencies, .sleep 1]).2.perform .tree).1 = .tree tree ∧
      tree.imports.entries = [⟨"b", true⟩, ⟨"a", false⟩, ⟨"b", false⟩] ∧ tree.expandedAddresses.Nodup ∧
      ∀ node ∈ tree.nodes, node.page.targets true = .ok node.imports.addresses := by
  let link (target : String) : Node := { tag := "link", attributes := [("rel", "import"), ("href", target)], line := 1 }
  have hmarkup : Structure.read "<link rel=import href=b><link rel=import href=b>" =
      .ok { imports := [link "b", link "b"] } := by decide +kernel
  obtain ⟨a, ha⟩ := start_ok {} hmarkup
    (some (.shelf [("b", "<link rel=import href=a>")] [("b", 2)])) false true "a"
  let inner : Page := { address := "b", elements := [], modules := [], markup := { imports := [link "a"] } }
  let tree : Tree :=
    { page := { address := "a", elements := [], modules := [], markup := { imports := [link "b", link "b"] } }
      imports := .expanded inner (.placeholder "a" .nil) (.placeholder "b" .nil) }
  have hanswer : (start {} (some (.shelf [("b", "<link rel=import href=a>")] [("b", 2)])) false true "a"
      "<link rel=import href=b><link rel=import href=b>").toOption.map
        (fun a => ((a.run [.dependencies, .sleep 1]).2.perform .tree).1) = some (.tree tree) := by
    decide +kernel
  rw [ha] at hanswer
  have htree : ((a.run [.dependencies, .sleep 1]).2.perform .tree).1 = .tree tree := Option.some.inj hanswer
  have hshape := (tree_shape ha [.dependencies, .sleep 1]).2 tree htree
  exact ⟨a, tree, ha, htree, rfl, hshape.once, hshape.children⟩

end Analysis

end ImportTree
