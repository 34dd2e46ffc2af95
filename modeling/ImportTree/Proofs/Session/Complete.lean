import ImportTree.Proofs.Session.Repeats
import ImportTree.Proofs.Session.Resolver

/-!
# Documents whose imports have been found

Once the imports of a document have been found, its declarations are known, and whatever it imports is there. This
stays so, and a walk over it loads nothing.
-/

namespace ImportTree

/-! ## Walks that load nothing -/

namespace Session

variable {s : Session}

/-- Visits imports in order, all of which have to be there already. -/
def visitThere (visit : String → List String → Session → Walk (Tree × List String)) :
    List String → List String → Session → Walk Visited
  | [], visited, s => (some (.ok (.nil, visited)), s)
  | a :: rest, visited, s =>
    if a ∈ visited then
      Walk.andThen (visitThere visit rest visited s) fun q t => (some (.ok (.placeholder a q.1, q.2)), t)
    else
      Walk.andThen (visit a (a :: visited) s) fun p t => Walk.andThen (visitThere visit rest p.2 t) fun q t =>
        (some (.ok (.expanded p.1.page p.1.imports q.1, q.2)), t)

/-- Visits the document at an address and its imports below it, none of which is loaded. -/
def visitUnloaded : Nat → String → List String → Session → Walk (Tree × List String)
  | 0, _, _, s => (none, s)
  | n + 1, a, visited, s =>
    Walk.andThen (s.await (.both a)) fun _ t =>
      match t.known a with
      | none => (none, t)
      | some (page, targets) => Walk.andThen (visitThere (visitUnloaded n) targets visited t) fun q t =>
        (some (.ok (⟨page, q.1⟩, q.2)), t)

/-- Builds a tree for which no document is loaded. -/
def treeUnloaded (s : Session) (root : String) : Walk Tree :=
  Walk.andThen (visitUnloaded s.walkBound root [root] s) fun p t => (some (.ok p.1), t)

theorem await_load_held {b : String} (h : s.holds b = true) : s.await (.load b) = (some (.ok ()), s) := by
  simp only [await, pollGoal, pollLoad, if_pos h]

/-- Two walks that go on alike from wherever the first part leads. -/
theorem Does.andThen_congr {α β : Type} {A : String → Prop} {P : α → Session → Prop} {p : Walk α}
    {next next' : α → Session → Walk β} (h : Does A s P p)
    (hnext : ∀ {v t}, Changes A s t → P v t → next v t = next' v t) : p.andThen next = p.andThen next' := by
  obtain ⟨_ | (e | v), t⟩ := p
  · rfl
  · rfl
  · exact hnext h.changes (h.found rfl)

theorem visitEach_there {n : Nat} {there : String → List String → Session → Walk (Tree × List String)}
    (hv : ∀ a visited {s}, Coherent s → visit n a visited s = there a visited s) (targets visited : List String)
    (hs : s.Coherent) (ht : ∀ a ∈ targets, s.holds a = true) :
    visitEach (visit n) targets visited s = visitThere there targets visited s := by
  induction targets generalizing s visited with
  | nil => rfl
  | cons a rest ih =>
      have hrest {t : Session} (hc : Changes (fun _ => True) s t) (visited : List String) :=
        ih visited (hs.changes hc) fun b hb => hc.grows.holds (ht b (List.mem_cons_of_mem _ hb))
      rw [visitThere]
      split
      next hmem => rw [visitEach_visited hmem, hrest .refl]
      next hmem =>
        rw [visitEach_unvisited hmem, await_load_held (ht a (List.mem_cons_self ..))]
        show Walk.andThen (visit n a (a :: visited) s) _ = _
        rw [← hv a (a :: visited) hs]
        exact (visit_does n a (a :: visited) hs).andThen_congr fun hc _ => by rw [hrest hc]

theorem visit_unloaded (n : Nat) (a : String) (visited : List String) (hs : s.Coherent) :
    visit n a visited s = visitUnloaded n a visited s := by
  induction n generalizing s a visited with
  | zero => rfl
  | succ n ih =>
      rw [visit_succ, visitUnloaded]
      refine (await_anywhere hs (.both a)).andThen_congr fun {_ t} hc _ => ?_
      have ht := hs.changes hc
      cases hk : t.known a with
      | none => rfl
      | some x =>
          simp only [visitEach_there (fun a l _ => ih a l) x.2 visited ht (ht.holds_of_known hk)]

/-- No document is loaded for a tree: whatever an expanded document imports is there already. -/
theorem tree_unloaded (hs : s.Coherent) (root : String) : s.tree root = s.treeUnloaded root := by
  rw [tree_eq, treeUnloaded, visit_unloaded _ _ _ hs]

end Session

/-! ## Found imports -/

namespace Resolver

variable {k : Resolver} {actions : List Action} {a : String} {d : Document} {targets : List String}

/-- A document whose imports have been found: its declarations have been found, and whatever it imports is there. -/
structure Completed (k : Resolver) (a : String) (markup : Structure) (declared : Metadata) (targets : List String) :
    Prop where
  /-- The imports are the addresses of the references that are not blank, in order. -/
  references : (Document.references markup).map (Address.resolve a) = targets.map .ok
  document : ∃ d, k.session.document? a = some d ∧ d.markup = markup ∧ d.extraction.result? = some (.ok declared) ∧
    d.imports.result? = some (.ok targets)
  /-- A load of an import is answered at once with what is there, and changes nothing. -/
  loads : ∀ b ∈ targets, ∃ h, k.session.handle? b = some h ∧ k.act (.load b) = (some (.ok h), k)
  tree : k.session.tree a = k.session.treeUnloaded a

theorem act_load {b : String} (h : k.session.holds b = true) :
    ∃ h, k.session.handle? b = some h ∧ k.act (.load b) = (some (.ok h), k) := by
  obtain ⟨h, hh⟩ := Option.isSome_iff_exists.mp ((Session.handle?_isSome k.session b).trans h)
  exact ⟨h, hh, by simp only [act, hh]⟩

theorem completed_of_found {declared : Metadata} (hs : k.session.Coherent)
    (hl : k.session.extractor.loader?.isSome = true) (hd : k.session.document? a = some d)
    (hm : d.extraction.result? = some (.ok declared)) (hr : d.imports.result? = some (.ok targets)) :
    k.Completed a d.markup declared targets where
  references := by
    have htargets := (hs.completes hd hr).imported
    rw [Session.imported, if_pos hl, Document.targets_eq_ok, Session.document?_address hd] at htargets
    exact htargets
  document := ⟨d, hd, rfl, hm, hr⟩
  loads b hb := act_load ((hs.completes hd hr).present b hb)
  tree := Session.tree_unloaded hs a

theorem Completed.run {markup : Structure} {declared : Metadata} (h : k.Completed a markup declared targets)
    (hs : k.session.Coherent) (hl : k.session.extractor.loader?.isSome = true) (more : List Action) :
    (k.run more).Completed a markup declared targets := by
  have he := run_evolves hs more
  obtain ⟨d, hd, rfl, hm, hr⟩ := h.document
  obtain ⟨e, he', hb⟩ := he.grows.documents hd
  rw [← hb.markup]
  exact completed_of_found he.coherent (he.loader ▸ hl) he' (hb.result hm) (hb.imports_result hr)

/-- However tasks take turns, responses come and texts are given: once the imports of a document have been found, they
are the addresses that it names, its declarations have been found, and whatever it imports is there. This stays so. -/
theorem imports_completed (readers : Readers) (loader : Loader) (attach eager : Bool) (actions : List Action)
    (hd : ((fresh readers (some loader) attach eager).run actions).session.document? a = some d)
    (hr : d.imports.result? = some (.ok targets)) : ∃ declared, ∀ more : List Action,
      (((fresh readers (some loader) attach eager).run actions).run more).Completed a d.markup declared targets := by
  have hfresh := fresh_coherent readers (some loader) attach eager
  have he := run_evolves hfresh actions
  have hl : ((fresh readers (some loader) attach eager).run actions).session.extractor.loader?.isSome = true :=
    he.loader.trans rfl
  obtain ⟨declared, hm⟩ := (he.coherent.completes hd hr).declared
  exact ⟨declared, (completed_of_found he.coherent hl hd hm hr).run he.coherent hl⟩

/-- The import is given while its response, which cannot be read, is on the way. Later the loader loses it. -/
theorem imports_completed_overtaken :
    ∃ k d declared, k = (fresh {} (some (.shelf [("b", "<script>")] [("b", 2)])) false true).run
        [.resolve "a" "<link rel=import href=b><link rel=import href=' '><link rel=import href=./b>", .imports "a",
          .resolve "b" "", .wait 2, .imports "a"] ∧
      k.session.document? "a" = some d ∧ d.imports.result? = some (.ok ["b", "b"]) ∧
      (k.run [.resolve "b" "<p>", .serve (.shelf [] []), .work]).Completed "a" d.markup declared ["b", "b"] := by
  have hrun : (((fresh {} (some (.shelf [("b", "<script>")] [("b", 2)])) false true).run
      [.resolve "a" "<link rel=import href=b><link rel=import href=' '><link rel=import href=./b>", .imports "a",
        .resolve "b" "", .wait 2, .imports "a"]).session.document? "a").bind (·.imports.result?) =
      some (.ok ["b", "b"]) := by
    decide +kernel
  obtain ⟨d, hd, hr⟩ := Option.bind_eq_some_iff.mp hrun
  obtain ⟨declared, h⟩ := imports_completed {} _ false true _ hd hr
  exact ⟨_, d, declared, rfl, hd, hr, h _⟩

end Resolver

end ImportTree
