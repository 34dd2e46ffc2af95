import ImportTree.Proofs.Analysis.Shape
import ImportTree.Proofs.Session.Resolver
import ImportTree.Proofs.Session.Truthful
import ImportTree.Proofs.Site.Schedule

/-!
# Names of a whole run

The registries are truthful at every moment of every run. Once a tree has been built, and nothing but what belongs to
the site was asked for, they hold what the tree declares, and nothing else.
-/

namespace ImportTree

open Session (Truthful)

/-! ## Runs -/

namespace Analysis

variable {a : Analysis} {readers : Readers} {loader? : Option Loader} {attach eager : Bool} {root text : String}

theorem registered_run (steps : List Step) (hs : a.session.Coherent) (h : a.session.Registered) :
    (a.run steps).2.session.Registered :=
  run_keeps (fun _ hc h => h.changes hc) (fun hr h => h.resolved hr)
    (fun _ h => h.retains (Session.retains_serve _ _) rfl) (fun h => h.retains (Session.retains_drop _) rfl) steps hs h

theorem perform_registered (step : Step) (hs : a.session.Coherent) (h : a.session.Registered) :
    (a.perform step).2.session.Registered :=
  registered_run [step] hs h

theorem start_registered (hstart : start readers loader? attach eager root text = .ok a) : a.session.Registered :=
  Session.Registered.resolved ((blank_blank ..).registered rfl) (start_resolved hstart).2

end Analysis

namespace Resolver

variable {k : Resolver}

theorem registered_run (actions : List Action) (hs : k.session.Coherent) (h : k.session.Registered) :
    (k.run actions).session.Registered :=
  run_keeps (fun _ hc h => h.changes hc) (fun a h => h.fetch a) (fun hr h => h.resolved hr)
    (fun _ h => h.retains (Session.retains_serve _ _) rfl) actions hs h

end Resolver

/-! ## What a tree declares -/

/-- The names of a kind that a page declares. -/
def Page.names (page : Page) : Kind → List String
  | .element => page.elements.map (·.name)
  | .scriptModule => page.modules.map (·.name)

/-- The names of a kind that the pages of a tree declare, each with the address of its page. -/
def Tree.entries (tree : Tree) (kind : Kind) : List (String × String) :=
  tree.pages.flatMap fun page => (page.names kind).map (·, page.address)

theorem Page.names_page (d : Document) (declared : Metadata) (kind : Kind) :
    (Session.page d declared).names kind = declared.names kind := by
  cases kind with
  | element => simp [names, Session.page, bindTemplates, Metadata.names]
  | scriptModule => rfl

/-- Whether registries hold what a tree declares, and nothing else. -/
structure Tree.Recorded (tree : Tree) (rs : Registries) : Prop where
  entries : ∀ kind, (rs.get kind).entries.Perm (tree.entries kind)
  elements : rs.elements.size = tree.elementCount
  modules : rs.modules.size = tree.moduleCount

theorem Tree.recorded_of_entries {tree : Tree} {rs : Registries}
    (h : ∀ kind, (rs.get kind).entries.Perm (tree.entries kind)) : tree.Recorded rs where
  entries := h
  elements := by
    refine (h .element).length_eq.trans ?_
    simp [Tree.entries, Tree.elementCount, Page.names, List.length_flatMap]
  modules := by
    refine (h .scriptModule).length_eq.trans ?_
    simp [Tree.entries, Tree.moduleCount, Page.names, List.length_flatMap]

namespace Session

variable {s : Session} {tree : Tree} {root : String} {targets visited : List String}

/-- The names of a page of a tree are those its document declares. -/
theorem declared_of_page (hk : s.known root = some (tree.page, targets))
    (he : Expands s.known targets [root] tree.imports visited) {page : Page} (hp : page ∈ tree.pages) :
    ∃ d m, s.document? page.address = some d ∧ Analysis.declared? d = some m ∧
      ∀ kind, page.names kind = m.names kind := by
  obtain ⟨d, m, hd, hm, hpage⟩ := page_of_tree hk he hp
  exact ⟨d, m, hd, by simp [Analysis.declared?, hm], hpage ▸ Page.names_page d m⟩

/-- No page of a tree declares a name twice, and no two are one document. -/
theorem Registered.nodup_entries (h : s.Registered) (hk : s.known root = some (tree.page, targets))
    (he : Expands s.known targets [root] tree.imports visited) (kind : Kind) : (tree.entries kind).Nodup := by
  have hplaced : s.known.Placed := s.known_placed
  refine List.nodup_flatMap.mpr ⟨fun page hp => ?_, ?_⟩
  · obtain ⟨d, m, hd, hm, hnames⟩ := declared_of_page hk he hp
    rw [hnames]
    exact (h.nodup_names hd hm kind).map fun _ _ he => congrArg Prod.fst he
  · refine (List.pairwise_map.mp (he.nodup_expanded hplaced (hplaced hk))).imp fun hne p hp hp' => hne ?_
    obtain ⟨_, _, rfl⟩ := List.mem_map.mp hp
    obtain ⟨_, _, heq⟩ := List.mem_map.mp hp'
    exact (congrArg Prod.snd heq).symm

/-- Where a tree has all documents that there are, the registries hold what it declares. -/
theorem Registered.recorded (h : s.Registered) (hk : s.known root = some (tree.page, targets))
    (he : Expands s.known targets [root] tree.imports visited)
    (hall : ∀ {a}, s.holds a = true → a ∈ tree.expandedAddresses) : tree.Recorded s.extractor.registries := by
  refine Tree.recorded_of_entries fun kind => ?_
  have hmem {page : Page} (hp : page ∈ tree.pages) {n : String} :
      (n, page.address) ∈ (s.extractor.registries.get kind).entries ↔ n ∈ page.names kind := by
    obtain ⟨d, m, hd, hm, hnames⟩ := declared_of_page hk he hp
    rw [hnames]
    exact h.mem_entries hd hm
  have hdistinct := List.Nodup.of_map _ (h.distinct kind)
  refine (List.perm_ext_iff_of_nodup hdistinct (h.nodup_entries hk he kind)).mpr fun ⟨n, a⟩ => ?_
  constructor
  · intro hn
    have hheld : s.holds a = true := by
      by_contra hnot
      have hzero := h.absent (not_holds_iff.mp (by simpa using hnot)) kind n
      exact absurd (List.one_le_count_iff.mpr hn) (by rw [show List.count _ _ = 0 from hzero]; omega)
    obtain ⟨page, hp, rfl⟩ := List.mem_map.mp (hall hheld)
    exact List.mem_flatMap.mpr ⟨page, hp, List.mem_map.mpr ⟨n, (hmem hp).mp hn, rfl⟩⟩
  · intro hn
    obtain ⟨page, hp, hn⟩ := List.mem_flatMap.mp hn
    obtain ⟨n', hn', heq⟩ := List.mem_map.mp hn
    cases heq
    exact (hmem hp).mpr hn'

end Session

namespace Site

open Analysis (start Step)

variable {w : Site} {a : Analysis} {steps : List Step} {tree : Tree} {loader? : Option Loader} {eager : Bool}

theorem markup_of_start (hstart : start w.readers loader? w.attach eager w.root w.text = .ok a) :
    ∃ m, w.readers.markup w.text = .ok m := by
  obtain ⟨_, m, hm, _⟩ := Analysis.start_read hstart
  exact ⟨m, hm⟩

/-- Without a loader there is nothing but the root. -/
theorem holds_root {A : String → Prop} {t : Session} {b : String}
    (hstart : start w.readers none w.attach eager w.root w.text = .ok a) (hc : Session.Changes A a.session t)
    (hb : t.holds b = true) : b = w.root := by
  obtain ⟨d, hd⟩ := Session.holds_iff.mp hb
  have hr := (Analysis.start_resolved hstart).2
  cases hs : a.session.document? b with
  | some e =>
      rcases hr.document?_eq hs with hs | ⟨_, hb, _⟩
      · cases (Session.Blank.document? (Analysis.blank_blank ..) _).symm.trans hs
      · exact hb
  | none =>
      obtain ⟨text, ⟨loader, hl, _⟩, _⟩ := hc.registered hs hd
      cases (hr.steady.loader.symm.trans hl : none = some loader)

/-- What is held once the tree of a site has been built is in the tree. -/
theorem expanded_of_holds {b : String} (hstart : start w.readers loader? w.attach eager w.root w.text = .ok a)
    (hloader : ∀ loader ∈ loader?, ∃ delay, loader = w.loader delay) (hsteps : ∀ step ∈ steps, step.Asks w.Reaches)
    (htree : ((a.run steps).2.perform .tree).1 = .tree tree)
    (hb : ((a.run steps).2.perform .tree).2.session.holds b = true) : b ∈ tree.expandedAddresses := by
  have hs := Analysis.start_coherent hstart
  have hroot := (Analysis.start_resolved hstart).1
  have htreeAsks : Step.tree.Asks w.Reaches := trivial
  cases hl : loader? with
  | some loader =>
      obtain ⟨delay, rfl⟩ := hloader loader hl
      subst hl
      obtain ⟨m, hm⟩ := markup_of_start hstart
      obtain ⟨a', ha', hfollows⟩ := start_follows hm delay eager
      cases hstart.symm.trans ha'
      have hrun := hfollows.run hsteps
      obtain ⟨tree', ht, htree', _⟩ := hrun.tree_of_sound (hrun.sound_of_tree htree)
      cases htree.symm.trans ht
      obtain ⟨d, hd⟩ := Session.holds_iff.mp hb
      exact htree'.mem_iff.mpr ((hrun.perform htreeAsks).faithful.settled hd).reached
  | none =>
      subst hl
      obtain ⟨hc, hrun⟩ := Analysis.run_changes hs (hroot ▸ .refl : w.Reaches a.root) hsteps
      have ht := hs.changes hc
      have hlast := Analysis.perform_changes ht (hrun ▸ hroot ▸ .refl : w.Reaches _) htreeAsks
      obtain ⟨targets, visited, hk, _⟩ := Analysis.perform_tree ht htree
      have hpage : tree.page.address = w.root := (Session.known_placed _ hk).trans (hrun.trans hroot)
      rw [holds_root hstart (hc.trans hlast) hb, ← hpage]
      exact List.mem_cons_self ..

/-- Whatever is done to a resolver, or to an analysis, and whichever of its documents fail, its registries are
truthful. And if an analysis is asked for nothing but what belongs to a site, then once it has answered a tree its
registries hold exactly what the tree declares. -/
theorem registries_truthful :
    (∀ readers loader? attach eager (actions : List Resolver.Action),
      ((Resolver.fresh readers loader? attach eager).run actions).session.Truthful) ∧
    (∀ readers loader? attach eager root text a (steps : List Step),
      start readers loader? attach eager root text = .ok a → (a.run steps).2.session.Truthful) ∧
    ∀ (w : Site) loader? eager a (steps : List Step) tree, (∀ loader ∈ loader?, ∃ delay, loader = w.loader delay) →
      start w.readers loader? w.attach eager w.root w.text = .ok a → (∀ step ∈ steps, step.Asks w.Reaches) →
      ((a.run steps).2.perform .tree).1 = .tree tree →
      tree.Recorded ((a.run steps).2.perform .tree).2.session.extractor.registries := by
  refine ⟨fun readers loader? attach eager actions => ?_,
    fun readers loader? attach eager root text a steps hstart => ?_,
    fun w loader? eager a steps tree hloader hstart hsteps htree => ?_⟩
  · have hfresh := Resolver.fresh_coherent readers loader? attach eager
    have hregistered := Session.Blank.registered (Analysis.blank_blank readers loader? attach eager) rfl
    exact (Resolver.registered_run actions hfresh hregistered).truthful (Resolver.run_coherent hfresh actions)
  · have hs := Analysis.start_coherent hstart
    exact (Analysis.registered_run steps hs (Analysis.start_registered hstart)).truthful
      (Analysis.run_evolves steps hs).1.coherent
  · have hs := Analysis.start_coherent hstart
    have hrun := (Analysis.run_evolves steps hs).1.coherent
    have hregistered := Analysis.registered_run steps hs (Analysis.start_registered hstart)
    obtain ⟨targets, visited, hk, he⟩ := Analysis.perform_tree hrun htree
    exact (Analysis.perform_registered .tree hrun hregistered).recorded hk he
      (expanded_of_holds hstart hloader hsteps htree)

/-- Two documents that declare an element each, and a third one that fails because it declares one of them again. -/
theorem registries_truthful_of_import :
    ∃ w : Site, w.documents = [("b", "<script>Polymer(\x7bis:'x-b'\x7d)</script>")] ∧
      ∃ a tree, start w.readers (some (w.loader fun _ => 0)) w.attach true w.root w.text = .ok a ∧
        ((a.run [.load "b", .idle]).2.perform .tree).1 = .tree tree ∧
        tree.Recorded ((a.run [.load "b", .idle]).2.perform .tree).2.session.extractor.registries ∧
        tree.elementCount = 2 ∧
        (a.run [.tree, .resolve "c" "<script>Polymer(\x7bis:'x-b'\x7d)</script>",
          .metadata "c"]).2.session.Truthful := by
  let w : Site :=
    { readers := {}, attach := true, root := "a"
      text := "<link rel=import href=b><script>Polymer(\x7bis:'x-a'\x7d)</script>"
      documents := [("b", "<script>Polymer(\x7bis:'x-b'\x7d)</script>")] }
  have hcount : (start w.readers (some (w.loader fun _ => 0)) w.attach true w.root w.text).toOption.map
      (fun a => match ((a.run [.load "b", .idle]).2.perform .tree).1 with
        | .tree tree => some tree.elementCount
        | _ => none) = some (some 2) := by
    decide +kernel
  have hlink : w.Links "a" "b" := by
    cases hm : w.markup? "a" with
    | none => exact absurd hm (by decide +kernel)
    | some m =>
        have href : (w.markup? "a").map Document.references = some ["b"] := by decide +kernel
        rw [hm] at href
        exact ⟨m, "b", hm, by simp [Option.some.inj href], by decide +kernel⟩
  have hsteps : ∀ step ∈ [Step.load "b", .idle], step.Asks w.Reaches := by
    simp [Step.Asks, show w.Reaches "b" from .single hlink]
  cases ha : start w.readers (some (w.loader fun _ => 0)) w.attach true w.root w.text with
  | error e => simp [ha, Except.toOption] at hcount
  | ok a =>
      simp only [ha, Except.toOption, Option.map_some, Option.some.injEq] at hcount
      split at hcount
      next tree htree =>
        obtain ⟨_, hruns, hsites⟩ := registries_truthful
        have hloader : ∀ loader ∈ some (w.loader fun _ => 0), ∃ delay, loader = w.loader delay := by
          rintro _ ⟨⟩
          exact ⟨_, rfl⟩
        exact ⟨w, rfl, a, tree, ha, htree, hsites w _ true a _ tree hloader ha hsteps htree, Option.some.inj hcount,
          hruns _ _ _ _ _ _ a _ ha⟩
      next => cases hcount

end Site

end ImportTree
