import ImportTree.Session.Walk
import ImportTree.Proofs.Session.Await
import ImportTree.Proofs.Session.Breadth
import ImportTree.Proofs.Tree.Expansion

/-!
# Walks as changes

A walk over imports is made of changes of the session. The tree or the list that it answers is determined by what
the session knows afterwards, and so is its error.
-/

namespace ImportTree.Session

variable {A : String → Prop} {s t : Session} {a : String} {d : Document}

/-! ## What a session knows -/

/-- The page and the imports of a document, once both have been found. -/
def expansion? (d : Document) : Option (Page × List String) :=
  match d.extraction.result?, d.imports.result? with
  | some (.ok declared), some (.ok targets) => some (page d declared, targets)
  | _, _ => none

/-- What a session knows of an address. -/
def known (s : Session) : Knowledge := fun a =>
  (s.document? a).bind expansion?

/-- An error that a session knows of. -/
inductive Knows (s : Session) : AnalysisError → Prop where
  | unfetched {a : String} {e} : s.fetched? a = some (.error e) → Knows s e
  | undeclared {a : String} {d : Document} {e} : s.document? a = some d →
      d.extraction.result? = some (.error e) → Knows s e
  | unimported {a : String} {d : Document} {e} : s.document? a = some d →
      d.imports.result? = some (.error e) → Knows s e

theorem expansion?_eq_some {p : Page} {targets : List String} (h : expansion? d = some (p, targets)) :
    ∃ m, d.extraction.result? = some (.ok m) ∧ d.imports.result? = some (.ok targets) ∧ p = page d m := by
  unfold expansion? at h
  split at h
  next m targets' hm ht => cases h; exact ⟨m, hm, ht, rfl⟩
  next => cases h

theorem expansion?_of_results {m : Metadata} {targets : List String} (hm : d.extraction.result? = some (.ok m))
    (ht : d.imports.result? = some (.ok targets)) : expansion? d = some (page d m, targets) := by
  simp only [expansion?, hm, ht]

theorem known_grows {x : Page × List String} (h : s.known a = some x) (hg : s.Grows t) : t.known a = some x := by
  obtain ⟨d, hd, hx⟩ := Option.bind_eq_some_iff.mp h
  obtain ⟨p, targets⟩ := x
  obtain ⟨m, hm, ht, rfl⟩ := expansion?_eq_some hx
  obtain ⟨e, he, hb⟩ := hg.documents hd
  refine Option.bind_eq_some_iff.mpr ⟨e, he, ?_⟩
  rw [expansion?_of_results (hb.result hm) (hb.imports_result ht), page, hb.address, hb.markup]
  rfl

theorem known_placed (s : Session) : s.known.Placed := by
  intro a page inner h
  obtain ⟨d, hd, hx⟩ := Option.bind_eq_some_iff.mp h
  obtain ⟨m, _, _, rfl⟩ := expansion?_eq_some hx
  exact document?_address hd

theorem imports_eq_done {r : Except AnalysisError (List String)} (h : d.imports.result? = some r) :
    d.imports = .done r := by
  cases hi : d.imports with
  | idle => rw [hi] at h; cases h
  | waiting targets awaited => rw [hi] at h; cases h
  | done r' => rw [hi] at h; cases h; rfl

theorem Coherent.completes {targets : List String} (hs : s.Coherent) (hd : s.document? a = some d)
    (ht : d.imports.result? = some (.ok targets)) : s.Completes d targets := by
  have := hs.allowed hd
  rw [imports_eq_done ht] at this
  exact this

/-- What a document has been found to import may be fetched. -/
theorem Coherent.links {targets : List String} (hs : s.Coherent) (hd : s.document? a = some d)
    (ht : d.imports.result? = some (.ok targets)) : ∀ b ∈ targets, s.Links b := by
  intro b hb
  have hi := (hs.completes hd ht).imported
  unfold Session.imported at hi
  split at hi
  next => exact ⟨a, d, targets, hd, hi, hb⟩
  next => cases hi; cases hb

theorem Coherent.wanted_of_known {p : Page} {targets : List String} (hs : s.Coherent)
    (h : s.known a = some (p, targets)) : ∀ b ∈ targets, s.Wanted A b := by
  obtain ⟨d, hd, hx⟩ := Option.bind_eq_some_iff.mp h
  obtain ⟨m, _, ht, _⟩ := expansion?_eq_some hx
  exact fun b hb => .inr (hs.links hd ht b hb)

theorem Reached.knows {goal : Goal} {e : AnalysisError} (h : s.Reached goal (.error e)) : s.Knows e := by
  cases h with
  | unloaded h => exact .unfetched h
  | undeclared hd h => exact .undeclared hd h
  | unimported hd h => exact .unimported hd h
  | bothUndeclared hd h => exact .undeclared hd h
  | bothUnimported hd h => exact .unimported hd h

theorem Reached.known (h : s.Reached (.both a) (.ok ())) : ∃ page targets, s.known a = some (page, targets) := by
  cases h with
  | @both _ d m targets hd hm ht =>
      exact ⟨page d m, targets, Option.bind_eq_some_iff.mpr ⟨d, hd, expansion?_of_results hm ht⟩⟩

/-! ## Walks that go on -/

section

variable {α β : Type} {P : α → Session → Prop} {Q : β → Session → Prop} {v : α} {p : Walk α}

/-- Goes on with what a walk answers, unless it fails. -/
def Walk.andThen (p : Walk α) (next : α → Session → Walk β) : Walk β :=
  match p with
  | (none, s) => (none, s)
  | (some (.error e), s) => (some (.error e), s)
  | (some (.ok v), s) => next v s

/-- What a walk does: it makes changes, and what it answers is true of the session afterwards. -/
structure Does (A : String → Prop) (s : Session) (P : α → Session → Prop) (p : Walk α) : Prop where
  changes : Changes A s p.2
  found : ∀ {v}, p.1 = some (.ok v) → P v p.2
  failed : ∀ {e}, p.1 = some (.error e) → p.2.Knows e

theorem Does.answered (h : P v s) : Does A s P (some (.ok v), s) :=
  ⟨.refl, fun h' => by cases h'; exact h, nofun⟩

theorem Does.stopped : Does A s P (none, s) :=
  ⟨.refl, nofun, nofun⟩

theorem Does.andThen {next : α → Session → Walk β} (h : Does A s P p)
    (hnext : ∀ {v t}, Changes A s t → P v t → Does A t Q (next v t)) : Does A s Q (p.andThen next) := by
  obtain ⟨r, t⟩ := p
  rcases r with _ | (e | v)
  · exact ⟨h.changes, nofun, nofun⟩
  · exact ⟨h.changes, nofun, fun he => by cases he; exact h.failed rfl⟩
  · have hrest := hnext h.changes (h.found rfl)
    exact ⟨h.changes.trans hrest.changes, hrest.found, hrest.failed⟩

theorem await_does {goal : Goal} (hs : s.Coherent) (hg : s.Permits A goal) :
    Does A s (fun _ t => t.Reached goal (.ok ())) (s.await goal) := by
  have h := await_awaited hs hg
  exact ⟨h.changes, h.reached, fun he => (h.reached he).knows⟩

end

/-! ## Depth first -/

section

variable {visit : String → List String → Session → Walk (Tree × List String)} {rest visited : List String}

theorem visitEach_visited (h : a ∈ visited) : visitEach visit (a :: rest) visited s =
    Walk.andThen (visitEach visit rest visited s) fun q t => (some (.ok (.placeholder a q.1, q.2)), t) := by
  rw [visitEach, if_pos h]
  obtain ⟨_ | (_ | _), t⟩ := visitEach visit rest visited s <;> rfl

theorem visitEach_unvisited (h : a ∉ visited) : visitEach visit (a :: rest) visited s =
    Walk.andThen (s.await (.load a)) fun _ t => Walk.andThen (visit a (a :: visited) t) fun p t =>
      Walk.andThen (visitEach visit rest p.2 t) fun q t =>
        (some (.ok (.expanded p.1.page p.1.imports q.1, q.2)), t) := by
  rw [visitEach, if_neg h]
  obtain ⟨_ | (_ | _), t⟩ := s.await (.load a) <;> try rfl
  simp only [Walk.andThen]
  obtain ⟨_ | (_ | p), t⟩ := visit a (a :: visited) t <;> try rfl
  simp only
  obtain ⟨_ | (_ | _), t⟩ := visitEach visit rest p.2 t <;> rfl

end

theorem visit_succ (n : Nat) (a : String) (visited : List String) (s : Session) : visit (n + 1) a visited s =
    Walk.andThen (s.await (.both a)) fun _ t =>
      match t.known a with
      | none => (none, t)
      | some (page, targets) => Walk.andThen (visitEach (visit n) targets visited t) fun q t =>
        (some (.ok (⟨page, q.1⟩, q.2)), t) := by
  rw [visit]
  obtain ⟨_ | (_ | _), t⟩ := s.await (.both a) <;> try rfl
  simp only [Walk.andThen, known]
  cases t.document? a with
  | none => rfl
  | some d =>
      simp only [Option.bind_some, expansion?]
      rcases d.extraction.result? with _ | (_ | declared) <;> rcases d.imports.result? with _ | (_ | targets) <;>
        try rfl
      simp only
      obtain ⟨_ | (_ | _), t⟩ := visitEach (visit n) targets visited t <;> rfl

theorem visitEach_does {visit : String → List String → Session → Walk (Tree × List String)}
    (hv : ∀ a visited {s : Session}, s.Coherent → Does A s (fun p t => ∃ targets,
      t.known a = some (p.1.page, targets) ∧ Expands t.known targets visited p.1.imports p.2) (visit a visited s))
    (targets visited : List String) (hs : s.Coherent) (ht : ∀ a ∈ targets, s.Wanted A a) :
    Does A s (fun q t => Expands t.known targets visited q.1 q.2) (visitEach visit targets visited s) := by
  induction targets generalizing s visited with
  | nil => exact .answered .nil
  | cons a rest ih =>
      have hrest {t : Session} (hc : Changes A s t) (visited : List String) :=
        ih visited (hs.changes hc) fun b hb => (ht b (List.mem_cons_of_mem _ hb)).grows hc.grows
      by_cases hmem : a ∈ visited
      · rw [visitEach_visited hmem]
        exact (hrest .refl visited).andThen fun _ he => .answered (.placeholder hmem he)
      · rw [visitEach_unvisited hmem]
        refine (await_does hs ?_).andThen fun hload _ => ?_
        · intro b hb
          cases hb
          exact ht a (List.mem_cons_self ..)
        refine (hv a (a :: visited) (hs.changes hload)).andThen fun hvisit hone => ?_
        obtain ⟨inner, hk, he⟩ := hone
        refine (hrest (hload.trans hvisit) _).andThen fun hc hothers => .answered ?_
        exact .expanded hmem (known_grows hk hc.grows) (he.mono (known_grows · hc.grows)) hothers

theorem visit_does (n : Nat) (a : String) (visited : List String) (hs : s.Coherent) :
    Does A s (fun p t => ∃ targets, t.known a = some (p.1.page, targets) ∧
      Expands t.known targets visited p.1.imports p.2) (visit n a visited s) := by
  induction n generalizing s a visited with
  | zero => exact .stopped
  | succ n ih =>
      rw [visit_succ]
      refine (await_does hs (by intro b hb; cases hb)).andThen fun hc _ => ?_
      have ht := hs.changes hc
      split
      next => exact .stopped
      next page targets hk =>
        have hrest := visitEach_does (fun a l {_} => ih a l) targets visited ht (ht.wanted_of_known hk)
        refine hrest.andThen fun hc he => .answered ?_
        exact ⟨targets, known_grows hk hc.grows, he⟩

theorem tree_eq (s : Session) (root : String) :
    s.tree root = (visit s.walkBound root [root] s).andThen fun p t => (some (.ok p.1), t) := by
  rw [tree]
  obtain ⟨_ | (_ | _), t⟩ := visit s.walkBound root [root] s <;> rfl

/-- Building a tree makes changes. What is known then determines the tree. -/
theorem tree_does (A : String → Prop) (root : String) (hs : s.Coherent) :
    Does A s (fun tree t => ∃ targets visited, t.known root = some (tree.page, targets) ∧
      Expands t.known targets [root] tree.imports visited) (s.tree root) := by
  rw [tree_eq]
  refine (visit_does _ root [root] hs).andThen fun _ h => .answered ?_
  obtain ⟨targets, hk, he⟩ := h
  exact ⟨targets, _, hk, he⟩

/-! ## Breadth first -/

/-- The imports of the document at an address, once they have been found. -/
def leads (s : Session) (a : String) : Option (List String) :=
  (s.document? a).bind fun d =>
    match d.imports.result? with
    | some (.ok targets) => some targets
    | _ => none

theorem leads_eq_some {targets : List String} :
    s.leads a = some targets ↔ ∃ d, s.document? a = some d ∧ d.imports.result? = some (.ok targets) := by
  rw [leads, Option.bind_eq_some_iff]
  constructor
  · rintro ⟨d, hd, h⟩
    split at h
    next targets' ht => cases h; exact ⟨d, hd, ht⟩
    next => cases h
  · rintro ⟨d, hd, ht⟩
    exact ⟨d, hd, by simp [ht]⟩

theorem leads_grows {targets : List String} (h : s.leads a = some targets) (hg : s.Grows t) :
    t.leads a = some targets := by
  obtain ⟨d, hd, ht⟩ := leads_eq_some.mp h
  obtain ⟨e, he, hb⟩ := hg.documents hd
  exact leads_eq_some.mpr ⟨e, he, hb.imports_result ht⟩

theorem Reached.leads (h : s.Reached (.imports a) (.ok ())) : ∃ targets, s.leads a = some targets := by
  cases h with
  | @imported _ d targets hd ht => exact ⟨targets, leads_eq_some.mpr ⟨d, hd, ht⟩⟩

/-- A document is known once its imports have been found. -/
theorem Coherent.known_of_leads {targets : List String} (hs : s.Coherent) (h : s.leads a = some targets) :
    ∃ page, s.known a = some (page, targets) := by
  obtain ⟨d, hd, ht⟩ := leads_eq_some.mp h
  obtain ⟨m, hm⟩ := (hs.completes hd ht).declared
  exact ⟨page d m, Option.bind_eq_some_iff.mpr ⟨d, hd, expansion?_of_results hm ht⟩⟩

theorem walkQueue_cons (n : Nat) (a : String) (queue seen : List String) (s : Session) :
    walkQueue (n + 1) (a :: queue) seen s =
      Walk.andThen (s.await (.load a)) fun _ t => Walk.andThen (t.await (.imports a)) fun _ t =>
        match t.leads a with
        | none => (none, t)
        | some targets =>
          Walk.andThen (walkQueue n (queue ++ unseen seen targets) (seen ++ unseen seen targets) t) fun found t =>
            (some (.ok (unseen seen targets ++ found)), t) := by
  rw [walkQueue]
  obtain ⟨_ | (_ | _), t⟩ := s.await (.load a) <;> try rfl
  simp only [Walk.andThen]
  obtain ⟨_ | (_ | _), t⟩ := t.await (.imports a) <;> try rfl
  simp only [leads]
  cases t.document? a with
  | none => rfl
  | some d =>
      simp only [Option.bind_some]
      rcases d.imports.result? with _ | (_ | targets) <;> try rfl
      simp only
      obtain ⟨_ | (_ | _), t⟩ := walkQueue n (queue ++ unseen seen targets) (seen ++ unseen seen targets) t <;> rfl

theorem walkQueue_does (n : Nat) (queue seen : List String) (hs : s.Coherent) (hq : ∀ a ∈ queue, s.Wanted A a) :
    Does A s (fun found t => Breadth t.leads queue seen found) (walkQueue n queue seen s) := by
  induction n generalizing s queue seen with
  | zero =>
      cases queue with
      | nil => exact .answered .nil
      | cons a queue => exact .stopped
  | succ n ih =>
      cases queue with
      | nil => exact .answered .nil
      | cons a queue =>
          rw [walkQueue_cons]
          refine (await_does hs ?_).andThen fun hload _ => ?_
          · intro b hb
            cases hb
            exact hq a (List.mem_cons_self ..)
          refine (await_does (hs.changes hload) (by intro b hb; cases hb)).andThen fun himports _ => ?_
          have hc := hload.trans himports
          have ht := hs.changes hc
          split
          next => exact .stopped
          next targets hk =>
            obtain ⟨page, hp⟩ := ht.known_of_leads hk
            refine (ih _ _ ht fun b hb => ?_).andThen fun hc hrest => .answered (.cons (leads_grows hk hc.grows) hrest)
            rcases List.mem_append.mp hb with hb | hb
            · exact (hq b (List.mem_cons_of_mem _ hb)).grows (Changes.grows hc)
            · exact ht.wanted_of_known hp b (mem_unseen.mp hb).1

/-- Listing dependencies makes changes. What is known then determines the list. -/
theorem dependencies_does {start : String} (hs : s.Coherent) (ha : s.Wanted A start) :
    Does A s (fun found t => Breadth t.leads [start] [start] found) (s.dependencies start) :=
  walkQueue_does _ _ _ hs fun _ hb => List.mem_singleton.mp hb ▸ ha

/-! ## What walks keep -/

section

variable {α β : Type} {P : Session → Prop}

theorem Walk.andThen_keeps {p : Walk α} {next : α → Session → Walk β} (hp : P p.2)
    (hnext : ∀ v {t}, P t → P (next v t).2) : P (p.andThen next).2 := by
  obtain ⟨_ | (_ | v), t⟩ := p
  · exact hp
  · exact hp
  · exact hnext v hp

variable (hawait : ∀ {s : Session} (goal : Goal), P s → P (s.await goal).2)
include hawait

theorem visitEach_keeps {visit : String → List String → Session → Walk (Tree × List String)}
    (hv : ∀ a visited {s}, P s → P (visit a visited s).2) (targets visited : List String) (h : P s) :
    P (visitEach visit targets visited s).2 := by
  induction targets generalizing s visited with
  | nil => exact h
  | cons a rest ih =>
      by_cases hmem : a ∈ visited
      · rw [visitEach_visited hmem]
        exact Walk.andThen_keeps (ih visited h) fun _ _ h => h
      · rw [visitEach_unvisited hmem]
        refine Walk.andThen_keeps (hawait _ h) fun _ _ h => ?_
        refine Walk.andThen_keeps (hv a _ h) fun p _ h => ?_
        exact Walk.andThen_keeps (ih p.2 h) fun _ _ h => h

theorem visit_keeps (n : Nat) (a : String) (visited : List String) (h : P s) : P (visit n a visited s).2 := by
  induction n generalizing s a visited with
  | zero => exact h
  | succ n ih =>
      rw [visit_succ]
      refine Walk.andThen_keeps (hawait _ h) fun _ t h => ?_
      split
      next => exact h
      next => exact Walk.andThen_keeps (visitEach_keeps hawait (fun a l _ => ih a l) _ visited h) fun _ _ h => h

/-- What waiting keeps is kept while a tree is built. -/
theorem tree_keeps (root : String) (h : P s) : P (s.tree root).2 := by
  rw [tree_eq]
  exact Walk.andThen_keeps (visit_keeps hawait _ root [root] h) fun _ _ h => h

theorem walkQueue_keeps (n : Nat) (queue seen : List String) (h : P s) : P (walkQueue n queue seen s).2 := by
  induction n generalizing s queue seen with
  | zero => cases queue <;> exact h
  | succ n ih =>
      cases queue with
      | nil => exact h
      | cons a queue =>
          rw [walkQueue_cons]
          refine Walk.andThen_keeps (hawait _ h) fun _ _ h => Walk.andThen_keeps (hawait _ h) fun _ _ h => ?_
          split
          next => exact h
          next => exact Walk.andThen_keeps (ih _ _ h) fun _ _ h => h

/-- What waiting keeps is kept while dependencies are listed. -/
theorem dependencies_keeps (start : String) (h : P s) : P (s.dependencies start).2 :=
  walkQueue_keeps hawait _ _ _ h

end

end ImportTree.Session
