import ImportTree.Proofs.Site.Schedule

/-!
# Both walks over a site

A breadth-first walk lists what is reached from where it starts, the nearer addresses first. From the root it
succeeds exactly if a tree can be built, and then it meets the same documents.
-/

namespace ImportTree

open Analysis (start Step)
open Session (distance)

namespace Site

variable {w : Site} {m : Structure} {a : Analysis} {steps : List Step}

/-! ## From any address -/

/-- Whether a list holds everything that is reached from an address over one link or more, except for the address
itself; each once, and the nearer first. -/
structure Lists (w : Site) (start : String) (found : List String) : Prop where
  once : (start :: found).Nodup
  reached : ∀ b, b ∈ found ↔ Relation.TransGen w.Links start b ∧ b ≠ start
  sorted : found.Pairwise fun b c => distance w.Links start b ≤ distance w.Links start c

theorem Mirrors.lists {s : Session} {start : String} {found : List String} (h : w.Mirrors s) (hs : s.Coherent)
    (hr : (s.dependencies start).1 = some (.ok found)) : w.Lists start found := by
  have hwanted : s.Wanted (fun _ => True) start := .inl trivial
  have hdoes := Session.dependencies_does hs hwanted
  have ht := hs.changes hdoes.changes
  have hm := h.changes hdoes.changes
  have hbreadth := hdoes.found hr
  have hlinks {a targets} (hk : (s.dependencies start).2.leads a = some targets) (b : String) :
      w.Links a b ↔ b ∈ targets := hm.leads_links ht hk
  have honce : (start :: found).Nodup := hbreadth.nodup (List.nodup_singleton start)
  refine ⟨honce, fun b => ?_, hbreadth.sorted (.initial _ start) (List.nodup_singleton start) hlinks⟩
  have hmem : b ∈ start :: found ↔ Relation.ReflTransGen w.Links start b := hbreadth.mem_iff hlinks
  constructor
  · intro hb
    have hne : b ≠ start := by
      rintro rfl
      exact (List.nodup_cons.mp honce).1 hb
    rcases Relation.reflTransGen_iff_eq_or_transGen.mp (hmem.mp (List.mem_cons_of_mem _ hb)) with hb | hb
    · exact absurd hb hne
    · exact ⟨hb, hne⟩
  · rintro ⟨hb, hne⟩
    exact (List.mem_cons.mp (hmem.mpr hb.to_reflTransGen)).resolve_left hne

theorem Mirrors.perform {start : String} {found : List String} (h : w.Mirrors a.session) (hs : a.session.Coherent)
    (hr : (a.perform (.dependenciesOf start)).1 = .addresses found) : w.Lists start found := by
  unfold Analysis.perform at hr
  split at hr
  next => cases hr
  next => exact h.lists hs (Analysis.answer_addresses hr)

/-! ## From the root -/

theorem Follows.dependencies (h : w.Follows a) :
    (∃ found, (a.perform .dependencies).1 = .addresses found ∧ w.IsList found ∧
        w.Complete (a.perform .dependencies).2.session ∧ w.Sound) ∨
      ∃ e, (a.perform .dependencies).1 = .failed e ∧ w.Blames e := by
  rw [Analysis.perform_of_live h.faithful.live]
  simp only [Analysis.performAnyway, Analysis.answer_session, h.root]
  rcases h.faithful.dependencies h.coherent with ⟨found, hf, hw⟩ | ⟨e, he, hb⟩
  · exact .inl ⟨found, Analysis.answer_ok hf, hw⟩
  · exact .inr ⟨e, Analysis.answer_error he, hb⟩

theorem Follows.dependencies_of_sound (h : w.Follows a) (hs : w.Sound) :
    ∃ found, (a.perform .dependencies).1 = .addresses found ∧ w.IsList found ∧
      w.Complete (a.perform .dependencies).2.session := by
  obtain ⟨found, hf, hlist, hc, _⟩ := h.dependencies.resolve_right fun ⟨_, _, hb⟩ => hb.not_sound hs
  exact ⟨found, hf, hlist, hc⟩

theorem Follows.sound_of_dependencies {found : List String} (h : w.Follows a)
    (hf : (a.perform .dependencies).1 = .addresses found) : w.Sound := by
  rcases h.dependencies with ⟨_, _, _, _, hs⟩ | ⟨e, he, _⟩
  · exact hs
  · cases hf.symm.trans he

/-- Whether a tree has met what a list holds, and a session has nothing else. -/
structure Agree (w : Site) (tree : Tree) (found : List String) (s : Session) : Prop where
  expanded : ∀ b, b ∈ tree.expandedAddresses ↔ b = w.root ∨ b ∈ found
  documents : ∀ b, b ∈ s.addresses ↔ b ∈ tree.expandedAddresses
  sorted : s.addresses.Pairwise (· < ·)

theorem Follows.agree {tree : Tree} {found : List String} (h : w.Follows a) (hc : w.Complete a.session)
    (ht : w.IsTree tree) (hl : w.IsList found) : w.Agree tree found a.session where
  expanded b := by rw [ht.mem_iff, ← hl.mem_iff, List.mem_cons]
  documents b := by
    rw [ht.mem_iff, Session.mem_addresses]
    constructor
    · intro hb
      obtain ⟨d, hd⟩ := Session.holds_iff.mp hb
      exact (h.faithful.settled hd).reached
    · intro hb
      obtain ⟨v, hk⟩ := hc hb
      obtain ⟨d, hd, _⟩ := Option.bind_eq_some_iff.mp hk
      exact Session.holds_iff.mpr ⟨d, hd⟩
  sorted := Session.addresses_sorted h.coherent.distinct

/-- Whether an analysis answers both the tree and the dependencies of its root or none, and they agree, whichever it is
asked for first. -/
structure WalksAgree (w : Site) (a : Analysis) : Prop where
  together : (∃ tree, (a.perform .tree).1 = .tree tree) ↔ ∃ found, (a.perform .dependencies).1 = .addresses found
  both : ∀ {tree}, (a.perform .tree).1 = .tree tree → ∃ found,
    (a.run [.tree, .dependencies]).1 = [.tree tree, .addresses found] ∧
    (a.run [.dependencies, .tree]).1 = [.addresses found, .tree tree] ∧
    w.Agree tree found (a.run [.tree, .dependencies]).2.session ∧
    w.Agree tree found (a.run [.dependencies, .tree]).2.session

theorem Follows.together (h : w.Follows a) :
    (∃ tree, (a.perform .tree).1 = .tree tree) ↔ ∃ found, (a.perform .dependencies).1 = .addresses found := by
  constructor
  · rintro ⟨tree, ht⟩
    obtain ⟨found, hf, _⟩ := h.dependencies_of_sound (h.sound_of_tree ht)
    exact ⟨found, hf⟩
  · rintro ⟨found, hf⟩
    obtain ⟨tree, ht, _⟩ := h.tree_of_sound (h.sound_of_dependencies hf)
    exact ⟨tree, ht⟩

theorem Follows.walksAgree (h : w.Follows a) : w.WalksAgree a := by
  refine ⟨h.together, fun {tree} ht => ?_⟩
  have hs := h.sound_of_tree ht
  have h₁ : w.Follows (a.perform .tree).2 := h.perform trivial
  have h₂ : w.Follows (a.perform .dependencies).2 := h.perform trivial
  have h₁₂ : w.Follows ((a.perform .tree).2.perform .dependencies).2 := h₁.perform trivial
  have h₂₁ : w.Follows ((a.perform .dependencies).2.perform .tree).2 := h₂.perform trivial
  obtain ⟨tree', ht', htree, _⟩ := h.tree_of_sound hs
  cases ht.symm.trans ht'
  obtain ⟨found, hf, hlist, _⟩ := h.dependencies_of_sound hs
  obtain ⟨found', hf', hlist', hc₁⟩ := h₁.dependencies_of_sound hs
  cases hlist.unique hlist'
  obtain ⟨tree', ht₂, htree', hc₂⟩ := h₂.tree_of_sound hs
  cases htree.unique htree'
  refine ⟨found, ?_, ?_, h₁₂.agree hc₁ htree hlist, h₂₁.agree hc₂ htree hlist⟩
  · simp only [Analysis.run, ht, hf']
  · simp only [Analysis.run, hf, ht₂]

/-- Take a site whose root can be read. Whatever an analysis was asked for before, a list that it answers for an
address is what is reached from there; and if it was asked for nothing but what belongs to the site, its tree and the
dependencies of its root agree. -/
theorem walks_agree (w : Site) (hroot : w.readers.markup w.text = .ok m) (delay : String → Nat) (eager : Bool) :
    ∃ a, start w.readers (some (w.loader delay)) w.attach eager w.root w.text = .ok a ∧
      (∀ steps : List Step, (∀ step ∈ steps, step.Asks fun _ => True) → ∀ address found,
        ((a.run steps).2.perform (.dependenciesOf address)).1 = .addresses found → w.Lists address found) ∧
      ∀ steps : List Step, (∀ step ∈ steps, step.Asks w.Reaches) → w.WalksAgree (a.run steps).2 := by
  obtain ⟨a, ha, h⟩ := start_follows hroot delay eager
  refine ⟨a, ha, fun steps hsteps address found hfound => ?_, fun steps hsteps => (h.run hsteps).walksAgree⟩
  obtain ⟨hc, _⟩ := Analysis.run_changes h.coherent trivial hsteps
  exact (h.faithful.toMirrors.changes hc).perform (h.coherent.changes hc) hfound

/-- Two ways from one document to another, and one back to the root. -/
theorem walks_agree_of_diamond :
    ∃ w : Site, w.documents = [("b", "<link rel=import href=d>"),
        ("c", "<link rel=import href=d><link rel=import href=a>"), ("d", "")] ∧
      ∃ a, start w.readers (some (w.loader fun _ => 0)) w.attach true w.root w.text = .ok a ∧
        ((a.run [.load "b", .idle]).2.perform (.dependenciesOf "c")).1 = .addresses ["d", "a", "b"] ∧
        w.Lists "c" ["d", "a", "b"] ∧ w.WalksAgree a ∧ (a.perform .dependencies).1 = .addresses ["b", "c", "d"] := by
  let w : Site :=
    { readers := {}, attach := false, root := "a", text := "<link rel=import href=b><link rel=import href=c>"
      documents := [("b", "<link rel=import href=d>"), ("c", "<link rel=import href=d><link rel=import href=a>"),
        ("d", "")] }
  let link (target : String) : Node := { tag := "link", attributes := [("rel", "import"), ("href", target)], line := 1 }
  have hroot : w.readers.markup w.text = .ok { imports := [link "b", link "c"] } := by decide +kernel
  have hanswers : (start w.readers (some (w.loader fun _ => 0)) w.attach true w.root w.text).toOption.map
      (fun a => (((a.run [.load "b", .idle]).2.perform (.dependenciesOf "c")).1, (a.perform .dependencies).1)) =
        some (.addresses ["d", "a", "b"], .addresses ["b", "c", "d"]) := by
    decide +kernel
  obtain ⟨a, ha, hlists, hagree⟩ := walks_agree w hroot (fun _ => 0) true
  rw [ha] at hanswers
  obtain ⟨hfrom, hall⟩ := Prod.mk.inj (Option.some.inj hanswers)
  exact ⟨w, rfl, a, ha, hfrom, hlists _ (by simp [Step.Asks]) _ _ hfrom, hagree [] nofun, hall⟩

end Site

end ImportTree
