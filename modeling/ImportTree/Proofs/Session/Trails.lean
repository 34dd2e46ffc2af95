import ImportTree.Proofs.Session.Bounds

/-!
# Trails of walks

A walk can keep account of the documents that it enters. The account changes nothing of the walk. Each address is
entered once at most, and only if a document is there or the loader has a text for it.
-/

namespace ImportTree.Session

variable {α β : Type} {A P : String → Prop} {s t : Session} {a root start : String} {visited : List String}

/-! ## Walks with an account -/

/-- A walk with the addresses that it has entered, in order. -/
structure Trail (α : Type) where
  entered : List String
  walk : Walk α

namespace Trail

/-- A walk that enters nothing. -/
def still (walk : Walk α) : Trail α :=
  ⟨[], walk⟩

def enter (a : String) (p : Trail α) : Trail α :=
  ⟨a :: p.entered, p.walk⟩

/-- Goes on with what a walk answers, unless it fails. -/
def andThen (p : Trail α) (next : α → Session → Trail β) : Trail β :=
  match p.walk with
  | (none, s) => ⟨p.entered, (none, s)⟩
  | (some (.error e), s) => ⟨p.entered, (some (.error e), s)⟩
  | (some (.ok v), s) => ⟨p.entered ++ (next v s).entered, (next v s).walk⟩

@[simp] theorem walk_still (walk : Walk α) : (still walk).walk = walk := rfl

@[simp] theorem walk_enter (a : String) (p : Trail α) : (p.enter a).walk = p.walk := rfl

@[simp] theorem walk_andThen (p : Trail α) (next : α → Session → Trail β) :
    (p.andThen next).walk = p.walk.andThen fun v t => (next v t).walk := by
  obtain ⟨l, _ | (_ | _), t⟩ := p <;> rfl

@[simp] theorem entered_andThen_still (p : Trail α) (next : α → Session → Walk β) :
    (p.andThen fun v t => still (next v t)).entered = p.entered := by
  obtain ⟨l, _ | (_ | _), t⟩ := p <;> simp [andThen, still]

end Trail

open Trail (still)

/-! ## Depth first -/

def visitEachTrail (visit : String → List String → Session → Trail (Tree × List String)) :
    List String → List String → Session → Trail Visited
  | [], visited, s => still (some (.ok (.nil, visited)), s)
  | a :: rest, visited, s =>
    if a ∈ visited then
      (visitEachTrail visit rest visited s).andThen fun q t => still (some (.ok (.placeholder a q.1, q.2)), t)
    else
      (still (s.await (.load a))).andThen fun _ t => (visit a (a :: visited) t).andThen fun p t =>
        (visitEachTrail visit rest p.2 t).andThen fun q t =>
          still (some (.ok (.expanded p.1.page p.1.imports q.1, q.2)), t)

def visitTrail : Nat → String → List String → Session → Trail (Tree × List String)
  | 0, a, _, s => .enter a (still (none, s))
  | n + 1, a, visited, s => .enter a <|
    (still (s.await (.both a))).andThen fun _ t =>
      match t.known a with
      | none => still (none, t)
      | some (page, targets) => (visitEachTrail (visitTrail n) targets visited t).andThen fun q t =>
        still (some (.ok (⟨page, q.1⟩, q.2)), t)

/-- Builds a tree, with an account of the documents that are visited. -/
def treeTrail (s : Session) (root : String) : Trail Tree :=
  (visitTrail s.walkBound root [root] s).andThen fun p t => still (some (.ok p.1), t)

theorem walk_visitEachTrail {visit : String → List String → Session → Walk (Tree × List String)}
    {trail : String → List String → Session → Trail (Tree × List String)}
    (hv : ∀ a visited s, (trail a visited s).walk = visit a visited s) (targets visited : List String) (s : Session) :
    (visitEachTrail trail targets visited s).walk = visitEach visit targets visited s := by
  induction targets generalizing s visited with
  | nil => rfl
  | cons a rest ih =>
      rw [visitEachTrail]
      split
      next hmem => simp [visitEach_visited hmem, ih]
      next hmem => simp [visitEach_unvisited hmem, ih, hv]

theorem walk_visitTrail (n : Nat) (a : String) (visited : List String) (s : Session) :
    (visitTrail n a visited s).walk = visit n a visited s := by
  induction n generalizing s a visited with
  | zero => rfl
  | succ n ih =>
      rw [visitTrail, visit_succ, Trail.walk_enter, Trail.walk_andThen, Trail.walk_still]
      congr
      funext _ t
      cases t.known a with
      | none => simp only [Trail.walk_still]
      | some known => simp only [Trail.walk_andThen, Trail.walk_still, walk_visitEachTrail ih]

/-- The account changes nothing of the walk. -/
theorem walk_treeTrail (s : Session) (root : String) : (s.treeTrail root).walk = s.tree root := by
  simp only [treeTrail, Trail.walk_andThen, Trail.walk_still, walk_visitTrail, tree_eq]

/-! ## What a walk can enter -/

/-- Whether a document is there, or the loader has a text for it. -/
def Available (s : Session) (a : String) : Prop :=
  s.holds a = true ∨ ∃ text, s.Answers a text

theorem Available.before (h : t.Available a) (hc : Changes A s t) : s.Available a := by
  rcases h with h | ⟨text, h⟩
  · obtain ⟨d, hd⟩ := holds_iff.mp h
    cases hs : s.document? a with
    | some _ => exact .inl (holds_iff.mpr ⟨_, hs⟩)
    | none =>
        obtain ⟨text, htext, _⟩ := hc.registered hs hd
        exact .inr ⟨text, htext⟩
  · exact .inr ⟨text, hc.steady.answers h⟩

/-- What a walk enters, beyond what was visited before. -/
structure Passes (s : Session) (visited : List String) (p : Trail (α × List String)) : Prop where
  changes : Changes (fun _ => True) s p.walk.2
  nodup : (p.entered.reverse ++ visited).Nodup
  visited : ∀ {v}, p.walk.1 = some (.ok v) → v.2 = p.entered.reverse ++ visited
  available : ∀ a ∈ p.entered, s.Available a

theorem Passes.answered {v : α} (h : visited.Nodup) : Passes s visited (still (some (.ok (v, visited)), s)) :=
  ⟨.refl, h, fun hv => by cases hv; rfl, by simp [still]⟩

theorem Passes.stopped (h : visited.Nodup) : Passes s visited (still ((none, s) : Walk (α × List String))) :=
  ⟨.refl, h, nofun, by simp [still]⟩

theorem Passes.enter {p : Trail (α × List String)} (h : Passes s (a :: visited) p) (ha : s.Available a) :
    Passes s visited (p.enter a) where
  changes := h.changes
  nodup := by simpa [Trail.enter] using h.nodup
  visited hv := by simpa [Trail.enter] using h.visited hv
  available := List.forall_mem_cons.mpr ⟨ha, h.available⟩

theorem Passes.andThen {p : Trail (α × List String)} {next : α × List String → Session → Trail (β × List String)}
    (h : Passes s visited p)
    (hnext : ∀ {v t}, Changes (fun _ => True) s t → v.2.Nodup → Passes t v.2 (next v t)) :
    Passes s visited (p.andThen next) := by
  obtain ⟨l, _ | (e | v), t⟩ := p
  · exact ⟨h.changes, h.nodup, nofun, h.available⟩
  · exact ⟨h.changes, h.nodup, nofun, h.available⟩
  · have hv := h.visited rfl
    have hrest := hnext (v := v) h.changes (hv ▸ h.nodup)
    have hnodup := hrest.nodup
    have hvisited {u} := hrest.visited (v := u)
    rw [hv] at hnodup hvisited
    refine ⟨h.changes.trans hrest.changes, by simpa [Trail.andThen] using hnodup,
      fun hu => by simpa [Trail.andThen] using hvisited hu, fun b hb => ?_⟩
    rcases List.mem_append.mp hb with hb | hb
    · exact h.available b hb
    · exact (hrest.available b hb).before h.changes

/-- A walk that enters nothing comes first. -/
theorem Passes.after {Q : α → Session → Prop} {p : Walk α} {next : α → Session → Trail (β × List String)}
    (h : Does (fun _ => True) s Q p) (hvisited : visited.Nodup)
    (hnext : ∀ {v t}, Changes (fun _ => True) s t → Q v t → Passes t visited (next v t)) :
    Passes s visited ((still p).andThen next) := by
  obtain ⟨_ | (e | v), t⟩ := p
  · exact ⟨h.changes, hvisited, nofun, by simp [still, Trail.andThen]⟩
  · exact ⟨h.changes, hvisited, nofun, by simp [still, Trail.andThen]⟩
  · have hrest := hnext h.changes (h.found rfl)
    exact ⟨h.changes.trans hrest.changes, hrest.nodup, hrest.visited,
      fun b hb => (hrest.available b hb).before h.changes⟩

theorem visitEachTrail_passes {trail : String → List String → Session → Trail (Tree × List String)}
    (hv : ∀ a visited {s}, s.Coherent → s.holds a = true → (a :: visited).Nodup →
      Passes s visited (trail a (a :: visited) s))
    (targets visited : List String) (hs : s.Coherent) (hn : visited.Nodup) :
    Passes s visited (visitEachTrail trail targets visited s) := by
  induction targets generalizing s visited with
  | nil => exact .answered hn
  | cons a rest ih =>
      rw [visitEachTrail]
      split
      next => exact (ih visited hs hn).andThen fun _ hn => .answered hn
      next hmem =>
        refine .after (await_anywhere hs (.load a)) hn fun hload hreached => ?_
        have ht := hs.changes hload
        cases hreached with
        | loaded ha =>
            refine (hv a visited ht ha (List.nodup_cons.mpr ⟨hmem, hn⟩)).andThen fun hvisit hn => ?_
            exact (ih _ (ht.changes hvisit) hn).andThen fun _ hn => .answered hn

theorem visitTrail_passes (n : Nat) (a : String) (visited : List String) (hs : s.Coherent) (ha : s.holds a = true)
    (hn : (a :: visited).Nodup) : Passes s visited (visitTrail n a (a :: visited) s) := by
  induction n generalizing s a visited with
  | zero => exact (Passes.stopped hn).enter (.inl ha)
  | succ n ih =>
      rw [visitTrail]
      refine Passes.enter (.after (await_anywhere hs (.both a)) hn fun hc _ => ?_) (.inl ha)
      split
      next => exact .stopped hn
      next =>
        exact (visitEachTrail_passes (fun a l _ => ih a l) _ _ (hs.changes hc) hn).andThen fun _ hn => .answered hn

/-! ## Accounts -/

/-- What the account of a walk says: the walk enters nothing but addresses of a set, each of them once at most. -/
structure Trail.Accounts (p : Trail α) (walk : Walk α) (P : String → Prop) : Prop where
  walk : p.walk = walk
  once : p.entered.Nodup
  among : ∀ a ∈ p.entered, P a

theorem treeTrail_accounts (hs : s.Coherent) (hr : s.holds root = true) :
    (s.treeTrail root).Accounts (s.tree root) s.Available := by
  have hp := visitTrail_passes s.walkBound root [] hs hr (List.nodup_singleton root)
  have hentered : (s.treeTrail root).entered = (visitTrail s.walkBound root [root] s).entered :=
    Trail.entered_andThen_still ..
  exact ⟨walk_treeTrail s root, hentered ▸ by simpa using hp.nodup, hentered ▸ hp.available⟩

/-! ## Breadth first -/

def walkQueueTrail : Nat → List String → List String → Session → Trail (List String)
  | _, [], _, s => still (some (.ok []), s)
  | 0, a :: _, _, s => .enter a (still (none, s))
  | n + 1, a :: queue, seen, s => .enter a <|
    (still (s.await (.load a))).andThen fun _ t => (still (t.await (.imports a))).andThen fun _ t =>
      match t.leads a with
      | none => still (none, t)
      | some targets =>
        (walkQueueTrail n (queue ++ unseen seen targets) (seen ++ unseen seen targets) t).andThen fun found t =>
          still (some (.ok (unseen seen targets ++ found)), t)

/-- Lists dependencies, with an account of the addresses that are taken from the queue. -/
def dependenciesTrail (s : Session) (start : String) : Trail (List String) :=
  walkQueueTrail s.walkBound [start] [start] s

theorem walk_walkQueueTrail (n : Nat) (queue seen : List String) (s : Session) :
    (walkQueueTrail n queue seen s).walk = walkQueue n queue seen s := by
  induction n generalizing s queue seen with
  | zero => cases queue <;> rfl
  | succ n ih =>
      cases queue with
      | nil => rfl
      | cons a queue =>
          rw [walkQueueTrail, walkQueue_cons, Trail.walk_enter, Trail.walk_andThen, Trail.walk_still]
          congr
          funext _ t
          rw [Trail.walk_andThen, Trail.walk_still]
          congr
          funext _ t
          cases t.leads a with
          | none => simp only [Trail.walk_still]
          | some targets => simp only [Trail.walk_andThen, Trail.walk_still, ih]

/-- What is entered after a walk that enters nothing. -/
theorem Trail.entered_after {Q : α → Session → Prop} {R : List String → Prop} {p : Walk α}
    {next : α → Session → Trail β} (h : Does A s Q p) (hnil : R [])
    (hnext : ∀ {v t}, Changes A s t → Q v t → R (next v t).entered) : R ((still p).andThen next).entered := by
  obtain ⟨_ | (e | v), t⟩ := p
  · exact hnil
  · exact hnil
  · exact hnext h.changes (h.found rfl)

/-- Addresses of a set, each once, of which none was passed before. -/
structure Onward (P : String → Prop) (passed l : List String) : Prop where
  nodup : (passed ++ l).Nodup
  among : ∀ b ∈ l, P b

theorem Onward.nil {passed : List String} (h : passed.Nodup) : Onward P passed [] :=
  ⟨by simpa using h, by simp⟩

theorem Onward.cons {passed l : List String} (ha : P a) (h : Onward P (passed ++ [a]) l) : Onward P passed (a :: l) :=
  ⟨by simpa using h.nodup, List.forall_mem_cons.mpr ⟨ha, h.among⟩⟩

/-- The induction is on the steps. What has left the queue was passed, so that the addresses that were seen are those
that were passed and those in the queue. -/
theorem walkQueueTrail_onward (n : Nat) (queue passed : List String) (hs : s.Coherent)
    (hP : ∀ {t b}, Changes (fun _ => True) s t → t.holds b = true → P b) (hq : ∀ b ∈ queue, P b)
    (hn : (passed ++ queue).Nodup) : Onward P passed (walkQueueTrail n queue (passed ++ queue) s).entered := by
  induction n generalizing s queue passed with
  | zero =>
      cases queue with
      | nil => exact .nil (by simpa using hn)
      | cons a queue =>
          rw [List.append_cons] at hn
          exact .cons (hq a (List.mem_cons_self ..)) (.nil hn.of_append_left)
  | succ n ih =>
      cases queue with
      | nil => exact .nil (by simpa using hn)
      | cons a queue =>
          have hseen := nodup_append_unseen hn
          rw [List.append_cons] at hn
          have hstop : Onward P (passed ++ [a]) [] := .nil hn.of_append_left
          refine .cons (hq a (List.mem_cons_self ..)) ?_
          refine Trail.entered_after (R := Onward P (passed ++ [a])) (await_anywhere hs (.load a)) hstop
            fun {_ t} hload _ => ?_
          have ht := hs.changes hload
          refine Trail.entered_after (R := Onward P (passed ++ [a])) (await_anywhere ht (.imports a)) hstop
            fun {_ u} himports _ => ?_
          have hc : Changes (fun _ => True) s u := hload.trans himports
          split
          next => exact hstop
          next targets hk =>
            obtain ⟨d, hd, hr⟩ := leads_eq_some.mp hk
            have hheld := ((ht.changes himports).completes hd hr).present
            have hrest := ih (queue ++ unseen (passed ++ a :: queue) targets) (passed ++ [a]) (hs.changes hc)
              (fun hc' => hP (hc.trans hc')) (fun b hb => ?_) (by simpa using hseen targets)
            · rw [Trail.entered_andThen_still]
              simpa using hrest
            · rcases List.mem_append.mp hb with hb | hb
              · exact hq b (List.mem_cons_of_mem a hb)
              · exact hP hc (hheld b (mem_unseen.mp hb).1)

theorem dependenciesTrail_accounts (hs : s.Coherent) (start : String) :
    (s.dependenciesTrail start).Accounts (s.dependencies start) fun a => a = start ∨ s.Available a := by
  have honward : Onward (fun a => a = start ∨ s.Available a) [] (s.dependenciesTrail start).entered :=
    walkQueueTrail_onward s.walkBound [start] [] hs (fun hc hb => .inr (Available.before (.inl hb) hc)) (by simp)
      (by simp)
  exact ⟨walk_walkQueueTrail .., honward.nodup, honward.among⟩

end ImportTree.Session
