import ImportTree.Proofs.Site.Faithful

/-!
# Walks over a site

A walk over what is reached from the root of a site succeeds exactly if the site is sound, and then it finds what the
site says. Otherwise it ends with an error that blames a defect.
-/

namespace ImportTree

open Session (Breadth)

namespace Site

variable {w : Site} {a b : String} {s t : Session} {d : Document}

/-! ## What a site knows -/

theorem known_eq_some {page : Page} {targets : List String} (h : w.known a = some (page, targets)) :
    ∃ m declared, w.markup? a = some m ∧ w.gather? a m.scripts = some declared ∧
      (Document.references m).mapM (Address.resolve a) = .ok targets ∧ page = Session.page (.fresh a m) declared := by
  obtain ⟨m, hm, h⟩ := Option.bind_eq_some_iff.mp h
  obtain ⟨declared, hg, h⟩ := Option.bind_eq_some_iff.mp h
  obtain ⟨targets', ht, he⟩ := Option.map_eq_some_iff.mp h
  cases he
  refine ⟨m, declared, hm, hg, ?_, rfl⟩
  cases hr : (Document.references m).mapM (Address.resolve a) with
  | error e => rw [hr] at ht; cases ht
  | ok targets' => rw [hr] at ht; cases ht; rfl

theorem links_iff {m : Structure} {targets : List String} (hm : w.markup? a = some m)
    (ht : (Document.references m).mapM (Address.resolve a) = .ok targets) : w.Links a b ↔ b ∈ targets := by
  obtain ⟨hleft, hright⟩ := mapM_ok ht
  constructor
  · rintro ⟨m', target, hm', hmem, hr⟩
    cases hm.symm.trans hm'
    obtain ⟨b', hb', hr'⟩ := hleft target hmem
    cases hr.symm.trans hr'
    exact hb'
  · intro hb
    obtain ⟨target, hmem, hr⟩ := hright b hb
    exact ⟨m, target, hm, hmem, hr⟩

theorem known_links {page : Page} {targets : List String} (h : w.known a = some (page, targets)) :
    w.Links a b ↔ b ∈ targets := by
  obtain ⟨m, _, hm, _, ht, _⟩ := known_eq_some h
  exact links_iff hm ht

/-- The imports that a session has found are the links of the site. -/
theorem Mirrors.leads_links {targets : List String} (h : w.Mirrors s) (hs : s.Coherent)
    (hl : s.leads a = some targets) : w.Links a b ↔ b ∈ targets := by
  obtain ⟨d, hd, ht⟩ := Session.leads_eq_some.mp hl
  have hi := (hs.completes hd ht).imported
  rw [Session.imported, if_pos h.serves.isSome, Document.targets, Session.document?_address hd] at hi
  exact links_iff (h.markup hd) hi

theorem gather?_script {nodes : List Node} {declared : Metadata} {node : Node} (h : w.gather? a nodes = some declared)
    (hn : node ∈ nodes) : ∃ m, w.script? a node = some m := by
  induction nodes generalizing declared with
  | nil => cases hn
  | cons node' nodes ih =>
      obtain ⟨m, hm, hrest⟩ := Option.bind_eq_some_iff.mp h
      obtain ⟨rest, hr, _⟩ := Option.map_eq_some_iff.mp hrest
      rcases List.mem_cons.mp hn with rfl | hn
      · exact ⟨m, hm⟩
      · exact ih hr hn

/-! ## Complete sessions -/

/-- A session that knows everything that is reached from the root. -/
def Complete (w : Site) (s : Session) : Prop :=
  ∀ {a}, w.Reaches a → ∃ v, s.known a = some v

theorem Faithful.count_eq {v : Page × List String} (h : w.Faithful s) (hk : s.known a = some v) (k : Kind)
    (n : String) : s.extractor.registries.count k n a = (w.names k a).count n := by
  obtain ⟨d, hd, hv⟩ := Option.bind_eq_some_iff.mp hk
  obtain ⟨page, targets⟩ := v
  obtain ⟨declared, hr, _, _⟩ := Session.expansion?_eq_some hv
  have hset := h.settled hd
  have hin := hset.entered
  have ht := hset.traced
  cases hx : d.extraction with
  | running tasks => rw [hx] at hr; cases hr
  | done r =>
      rw [hx] at hr hin ht
      cases hr
      rw [hin k n, names_eq (h.markup hd), gather?_names ht]

theorem distinct_of_count {rs : Registries} {kind : Kind} {name : String} {i j : Nat} (hd : rs.Distinct)
    (ha : ∀ k n, rs.count k n a = (w.names k a).count n) (hb : ∀ k n, rs.count k n b = (w.names k b).count n)
    (hi : (w.names kind a)[i]? = some name) (hj : (w.names kind b)[j]? = some name) : a = b ∧ i = j := by
  have hentries := List.Nodup.of_map _ (hd kind)
  have hmem {c : String} {l : Nat} (hc : ∀ k n, rs.count k n c = (w.names k c).count n)
      (hl : (w.names kind c)[l]? = some name) : (name, c) ∈ (rs.get kind).entries := by
    refine List.one_le_count_iff.mp ?_
    change 1 ≤ rs.count kind name c
    rw [hc]
    exact List.one_le_count_iff.mpr (List.mem_of_getElem? hl)
  have hab : a = b := congrArg Prod.snd (List.inj_on_of_nodup_map (hd kind) (hmem ha hi) (hmem hb hj) rfl)
  subst hab
  have hnodup : (w.names kind a).Nodup := by
    refine List.nodup_iff_count_le_one.mpr fun n => ?_
    rw [← ha]
    exact List.nodup_iff_count_le_one.mp hentries (n, a)
  obtain ⟨hlt, _⟩ := List.getElem?_eq_some_iff.mp hi
  exact ⟨rfl, (List.getElem?_inj hlt hnodup).mp (hi.trans hj.symm)⟩

/-- Once everything has been found, the site is sound. -/
theorem Faithful.sound (h : w.Faithful s) (hs : s.Coherent) (hc : w.Complete s) : w.Sound := by
  have hknown {a} (ha : w.Reaches a) : ∃ page targets m declared, w.known a = some (page, targets) ∧
      w.markup? a = some m ∧ w.gather? a m.scripts = some declared ∧
      (Document.references m).mapM (Address.resolve a) = .ok targets := by
    obtain ⟨⟨page, targets⟩, hk⟩ := hc ha
    have hw := h.known hs hk
    obtain ⟨m, declared, hm, hg, ht, _⟩ := known_eq_some hw
    exact ⟨page, targets, m, declared, hw, hm, hg, ht⟩
  have hscript {a node} (hn : w.Script a node) : ∃ declared, w.script? a node = some declared := by
    obtain ⟨m, hm, hmem⟩ := hn.member
    obtain ⟨_, _, m', _, _, hm', hg, _⟩ := hknown hn.reached
    cases hm.symm.trans hm'
    exact gather?_script hg hmem
  refine ⟨fun {a} ha hr => ?_, fun {a m target} ha hm hmem => ?_, fun {a node target} hn hr ht hsrc => ?_,
    fun {a node b} hn hx => ?_, fun {a node text} hn hr ht => ?_, fun {kind a b name i j} ha hb hi hj => ?_⟩
  · obtain ⟨_, _, m, _, _, hm, _, _⟩ := hknown ha
    obtain ⟨text, htext, hm⟩ := Option.bind_eq_some_iff.mp hm
    rw [text?, if_neg hr] at htext
    exact ⟨text, m, htext, toOption_eq_some hm⟩
  · obtain ⟨_, targets, m', _, _, hm', _, ht⟩ := hknown ha
    cases hm.symm.trans hm'
    obtain ⟨b, _, hb⟩ := (mapM_ok ht).1 target hmem
    exact ⟨b, hb⟩
  · obtain ⟨declared, hd⟩ := hscript hn
    simp only [script?, hr, if_pos, ht, hsrc] at hd
    obtain ⟨b, hb, _⟩ := Option.bind_eq_some_iff.mp hd
    exact ⟨b, toOption_eq_some hb⟩
  · obtain ⟨declared, hd⟩ := hscript hn
    obtain ⟨target, hsrc, hb⟩ := hx.source
    simp only [script?, hx.readable, if_pos, hx.text, hsrc, hb, Except.toOption, Option.bind_some] at hd
    obtain ⟨m, hm, _⟩ := Option.map_eq_some_iff.mp hd
    obtain ⟨text, htext, hm⟩ := Option.bind_eq_some_iff.mp hm
    exact ⟨text, m, htext, toOption_eq_some hm⟩
  · obtain ⟨declared, hd⟩ := hscript hn
    simp only [script?, hr, if_pos, ht] at hd
    obtain ⟨m, hm, _⟩ := Option.map_eq_some_iff.mp hd
    exact ⟨m, toOption_eq_some hm⟩
  · obtain ⟨_, hka⟩ := hc ha
    obtain ⟨_, hkb⟩ := hc hb
    exact distinct_of_count h.distinct (h.count_eq hka) (h.count_eq hkb) hi hj

/-! ## Walks -/

theorem loader_bounded (w : Site) (delay : String → Nat) : (w.loader delay).Bounded :=
  Loader.bounded_shelf w.documents []

theorem Mirrors.within (h : w.Mirrors s) (hs : s.Coherent) : ∃ V, s.Within V ∧ V.length < s.walkBound := by
  obtain ⟨delay, hloader⟩ := h.serves.loader
  exact Session.within_of_bounded hs hloader (w.loader_bounded delay)

/-- The tree of a site. -/
def IsTree (w : Site) (tree : Tree) : Prop :=
  ∃ targets visited, w.known w.root = some (tree.page, targets) ∧
    Expands w.known targets [w.root] tree.imports visited

theorem IsTree.unique {tree tree' : Tree} (h : w.IsTree tree) (h' : w.IsTree tree') : tree = tree' := by
  obtain ⟨targets, visited, hk, he⟩ := h
  obtain ⟨targets', visited', hk', he'⟩ := h'
  obtain ⟨page, imports⟩ := tree
  obtain ⟨page', imports'⟩ := tree'
  cases hk.symm.trans hk'
  cases (he.unique he').1
  rfl

theorem known_placed (w : Site) : w.known.Placed := by
  intro a page targets h
  obtain ⟨m, declared, _, _, _, rfl⟩ := known_eq_some h
  rfl

/-- What a walk from the root has visited is what is reached from the root. -/
theorem visited_iff {known : Knowledge} {page : Page} {targets visited : List String} {imports : Imports}
    (hw : ∀ {a v}, known a = some v → w.known a = some v) (hk : known w.root = some (page, targets))
    (he : Expands known targets [w.root] imports visited) : b ∈ visited ↔ w.Reaches b := by
  constructor
  · refine fun hb => he.reached (P := w.Reaches) ?_ (fun a ha => ?_) (fun ha hk b hb => ?_) b hb
    · exact fun a ha => List.mem_singleton.mp ha ▸ .refl
    · exact .single ((known_links (hw hk)).mpr ha)
    · exact ha.tail ((known_links (hw hk)).mpr hb)
  · intro hb
    induction hb with
    | refl => exact he.subset (List.mem_singleton_self _)
    | tail _ hl ih =>
        rcases he.closed ih with ha | ⟨page, inner, hk', hsub⟩
        · rw [List.mem_singleton.mp ha] at hl
          exact he.targets_visited ((known_links (hw hk)).mp hl)
        · exact hsub ((known_links (hw hk')).mp hl)

/-- What is expanded in the tree of a site is what is reached from its root. -/
theorem IsTree.mem_iff {tree : Tree} (h : w.IsTree tree) : b ∈ tree.expandedAddresses ↔ w.Reaches b := by
  obtain ⟨targets, visited, hk, he⟩ := h
  have hpage : tree.page.address = w.root := w.known_placed hk
  rw [← visited_iff id hk he, he.visited_eq w.known_placed]
  simp [Tree.expandedAddresses, Tree.pages, hpage, or_comm]

/-- A tree is built exactly if the site is sound, and then it is the tree of the site. -/
theorem Faithful.tree (h : w.Faithful s) (hs : s.Coherent) :
    (∃ tree, (s.tree w.root).1 = some (.ok tree) ∧ w.IsTree tree ∧ w.Complete (s.tree w.root).2 ∧ w.Sound) ∨
      ∃ e, (s.tree w.root).1 = some (.error e) ∧ w.Blames e := by
  obtain ⟨V, hV, hroom⟩ := h.toMirrors.within hs
  obtain ⟨r, hr⟩ := Session.tree_isSome hV h.root hroom
  have hdoes := Session.tree_does w.Reaches w.root hs
  have ht := hs.changes hdoes.changes
  have hf := h.changes hdoes.changes
  cases r with
  | error e => exact .inr ⟨e, hr, hf.blames ht (hdoes.failed hr)⟩
  | ok tree =>
      obtain ⟨targets, visited, hk, he⟩ := hdoes.found hr
      have hcomplete : w.Complete (s.tree w.root).2 := by
        intro a ha
        rcases he.closed ((visited_iff (hf.known ht) hk he).mpr ha) with hroot | ⟨page, inner, hk', _⟩
        · rw [List.mem_singleton.mp hroot]
          exact ⟨_, hk⟩
        · exact ⟨_, hk'⟩
      exact .inl ⟨tree, hr, ⟨targets, visited, hf.known ht hk, he.mono (hf.known ht)⟩, hcomplete,
        hf.sound ht hcomplete⟩

/-- The addresses that the document at an address imports, unless it is not known. -/
def leads (w : Site) (a : String) : Option (List String) :=
  (w.known a).map Prod.snd

/-- What is reached from the root of a site, as a breadth-first walk lists it. -/
def IsList (w : Site) (found : List String) : Prop :=
  Breadth w.leads [w.root] [w.root] found

theorem IsList.mem_iff {found : List String} (h : w.IsList found) : b ∈ w.root :: found ↔ w.Reaches b := by
  refine Breadth.mem_iff h fun {a targets} hk b => ?_
  obtain ⟨⟨page, targets⟩, hp, rfl⟩ := Option.map_eq_some_iff.mp hk
  exact known_links hp

/-- What is reached from the root is listed exactly if the site is sound, and then it is the list of the site. -/
theorem Faithful.dependencies (h : w.Faithful s) (hs : s.Coherent) :
    (∃ found, (s.dependencies w.root).1 = some (.ok found) ∧ w.IsList found ∧
        w.Complete (s.dependencies w.root).2 ∧ w.Sound) ∨
      ∃ e, (s.dependencies w.root).1 = some (.error e) ∧ w.Blames e := by
  obtain ⟨V, hV, hroom⟩ := h.toMirrors.within hs
  obtain ⟨r, hr⟩ := Session.dependencies_isSome w.root hV hroom
  have hdoes := Session.dependencies_does (A := w.Reaches) hs (.inl .refl)
  have ht := hs.changes hdoes.changes
  have hf := h.changes hdoes.changes
  cases r with
  | error e => exact .inr ⟨e, hr, hf.blames ht (hdoes.failed hr)⟩
  | ok found =>
      have hbreadth := hdoes.found hr
      have hlist : w.IsList found := hbreadth.mono fun hk => by
        obtain ⟨page, hp⟩ := ht.known_of_leads hk
        rw [leads, hf.known ht hp]
        rfl
      have hcomplete : w.Complete (s.dependencies w.root).2 := by
        intro a ha
        obtain ⟨targets, hk, _⟩ := hbreadth.closed (b := a) (hlist.mem_iff.mpr ha)
        obtain ⟨page, hp⟩ := ht.known_of_leads hk
        exact ⟨_, hp⟩
      exact .inl ⟨found, hr, hlist, hcomplete, hf.sound ht hcomplete⟩

end Site

end ImportTree
