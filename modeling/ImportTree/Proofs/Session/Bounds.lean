import ImportTree.Proofs.Session.Handles

/-!
# Walks end

Where all documents that are there or can be read are in a list, a walk visits each of them once at most. It does not
run out of steps if it may take more of them than the list is long.
-/

namespace ImportTree

/-! ## Loaders that say how many texts they have -/

/-- A loader whose extent bounds the addresses that it answers with a text. -/
def Loader.Bounded (l : Loader) : Prop :=
  ∃ V : List String, V.length ≤ l.extent ∧ ∀ {a text}, l.answer a = .ok text → a ∈ V

theorem Loader.answer_insert {l : Loader} {a b text text' : String} (h : (l.insert a text).answer b = .ok text') :
    b = a ∨ l.answer b = .ok text' := by
  by_cases hba : b = a
  · exact .inl hba
  · exact .inr (by simpa only [Loader.insert, if_neg hba] using h)

theorem Loader.Bounded.insert {l : Loader} (h : l.Bounded) (a text : String) : (l.insert a text).Bounded := by
  obtain ⟨V, hlen, hV⟩ := h
  exact ⟨a :: V, Nat.succ_le_succ hlen, fun hb => List.mem_cons.mpr ((Loader.answer_insert hb).imp_right hV)⟩

theorem Loader.bounded_shelf (documents : List (String × String)) (delays : List (String × Nat)) :
    (Loader.shelf documents delays).Bounded := by
  refine ⟨documents.map Prod.fst, Nat.le_of_eq (List.length_map _), fun {a text} ha => ?_⟩
  simp only [Loader.shelf] at ha
  split at ha
  next text' hl =>
    obtain ⟨l₁, l₂, hlist, _⟩ := List.lookup_eq_some_iff.mp hl
    exact List.mem_map.mpr ⟨(a, text'), by simp [hlist], rfl⟩
  next => cases ha

namespace Session

variable {A : String → Prop} {s t : Session} {V : List String} {a : String}

theorem Steady.extent (h : s.Steady t) : t.extent = s.extent := by
  rw [Session.extent, Session.extent, h.loader]

/-- A session with a loader, all of whose documents are in a list. -/
structure Within (s : Session) (V : List String) : Prop where
  coherent : s.Coherent
  loader : s.extractor.loader?.isSome = true
  holds : ∀ {a}, s.holds a = true → a ∈ V
  answers : ∀ {a text}, s.Answers a text → a ∈ V

theorem Within.changes (h : s.Within V) (hc : Changes A s t) : t.Within V where
  coherent := h.coherent.changes hc
  loader := hc.steady.loader ▸ h.loader
  holds {a} ha := by
    obtain ⟨d, hd⟩ := holds_iff.mp ha
    by_cases hs : s.holds a = true
    · exact h.holds hs
    · obtain ⟨text, htext, _⟩ := hc.registered (not_holds_iff.mp (by simpa using hs)) hd
      exact h.answers htext
  answers ha := h.answers (hc.steady.answers ha)

theorem Within.known (h : s.Within V) {v : Page × List String} (hk : s.known a = some v) : a ∈ V := by
  obtain ⟨d, hd, _⟩ := Option.bind_eq_some_iff.mp hk
  exact h.holds (holds_iff.mpr ⟨d, hd⟩)

/-- All documents that are there or can be read are in a list, and there is room to walk over them. -/
theorem within_of_bounded {loader : Loader} (hs : s.Coherent) (hl : s.extractor.loader? = some loader)
    (hb : loader.Bounded) : ∃ V, s.Within V ∧ V.length < s.walkBound := by
  obtain ⟨V, hlen, hV⟩ := hb
  refine ⟨s.documents.map (·.address) ++ V, ⟨hs, by simp [hl], fun {a} ha => ?_, fun {a text} ha => ?_⟩, ?_⟩
  · obtain ⟨d, hd⟩ := holds_iff.mp ha
    exact List.mem_append_left _ (List.mem_map.mpr ⟨d, document?_mem hd, document?_address hd⟩)
  · obtain ⟨loader', hl', htext⟩ := ha
    cases hl.symm.trans hl'
    exact List.mem_append_right _ (hV htext)
  · have hextent : s.extent = loader.extent := by rw [extent, hl]
    rw [walkBound, hextent, List.length_append, List.length_map]
    omega

theorem length_le_of_subset {l₁ l₂ : List String} (hn : l₁.Nodup) (hs : l₁ ⊆ l₂) : l₁.length ≤ l₂.length :=
  (List.subperm_of_subset hn hs).length_le

/-- A walk that goes on ends if both of its parts do. -/
theorem Does.isSome {α β : Type} {P : α → Session → Prop} {p : Walk α} {next : α → Session → Walk β}
    (h : Does A s P p) (hp : ∃ r, p.1 = some r)
    (hnext : ∀ {v t}, Changes A s t → P v t → ∃ r, (next v t).1 = some r) : ∃ r, (p.andThen next).1 = some r := by
  obtain ⟨r, hr⟩ := hp
  obtain ⟨r', t⟩ := p
  cases hr
  cases r with
  | error e => exact ⟨_, rfl⟩
  | ok v => exact hnext h.changes (h.found rfl)

theorem await_anywhere (hs : s.Coherent) (goal : Goal) :
    Does (fun _ => True) s (fun _ t => t.Reached goal (.ok ())) (s.await goal) :=
  await_does hs fun _ _ => .inl trivial

/-! ## Depth first -/

theorem visitEach_isSome {n : Nat}
    (hvisit : ∀ a visited s, Within s V → s.holds a = true → visited.Nodup → visited ⊆ V →
      V.length < n + visited.length → ∃ r, (visit n a visited s).1 = some r)
    (targets visited : List String) (hs : s.Within V) (hn : visited.Nodup) (hV : visited ⊆ V)
    (hlen : V.length ≤ n + visited.length) : ∃ r, (visitEach (visit n) targets visited s).1 = some r := by
  induction targets generalizing s visited with
  | nil => exact ⟨_, rfl⟩
  | cons a rest ih =>
      have hv := fun a visited {s : Session} => visit_does (A := fun _ => True) (s := s) n a visited
      by_cases hmem : a ∈ visited
      · rw [visitEach_visited hmem]
        have hrest := visitEach_does hv rest visited hs.coherent fun _ _ => .inl trivial
        exact hrest.isSome (ih visited hs hn hV hlen) fun _ _ => ⟨_, rfl⟩
      · rw [visitEach_unvisited hmem]
        refine (await_anywhere hs.coherent (.load a)).isSome (await_isSome _ hs.coherent hs.loader trivial) ?_
        intro _ t hc hreached
        have ht := hs.changes hc
        cases hreached with
        | loaded ha =>
            have hn' : (a :: visited).Nodup := List.nodup_cons.mpr ⟨hmem, hn⟩
            have hV' : a :: visited ⊆ V := List.cons_subset.mpr ⟨ht.holds ha, hV⟩
            have hroom : V.length < n + (a :: visited).length := Nat.lt_succ_of_le hlen
            refine (hv a (a :: visited) ht.coherent).isSome (hvisit a (a :: visited) t ht ha hn' hV' hroom) ?_
            rintro ⟨tree, visited₁⟩ t₁ hc₁ ⟨inner, _, he⟩
            have ht₁ := ht.changes hc₁
            have hV₁ : visited₁ ⊆ V := by
              intro b hb
              rcases he.closed hb with hb | ⟨_, _, hk, _⟩
              · exact hV' hb
              · exact ht₁.known hk
            have hlen₁ := length_le_of_subset hn' he.subset
            have hroom₁ : V.length ≤ n + visited₁.length :=
              Nat.le_trans (Nat.le_of_lt hroom) (Nat.add_le_add_left hlen₁ n)
            have hrest := visitEach_does hv rest visited₁ ht₁.coherent fun _ _ => .inl trivial
            exact hrest.isSome (ih visited₁ ht₁ (he.nodup hn') hV₁ hroom₁) fun _ _ => ⟨_, rfl⟩

theorem visit_isSome (n : Nat) (a : String) (visited : List String) (hs : s.Within V) (ha : s.holds a = true)
    (hn : visited.Nodup) (hV : visited ⊆ V) (hlen : V.length < n + visited.length) :
    ∃ r, (visit n a visited s).1 = some r := by
  induction n generalizing s a visited with
  | zero => exact absurd (length_le_of_subset hn hV) (by omega)
  | succ n ih =>
      rw [visit_succ]
      refine (await_anywhere hs.coherent (.both a)).isSome (await_isSome _ hs.coherent hs.loader ha) ?_
      intro _ t hc hreached
      have ht := hs.changes hc
      obtain ⟨page, targets, hk⟩ := hreached.known
      have hroom : V.length ≤ n + visited.length := by omega
      have hrest := visitEach_isSome (fun a l _ => ih a l) targets visited ht hn hV hroom
      rw [hk]
      exact (visitEach_does (fun a l {_} => visit_does n a l) targets visited ht.coherent
        fun _ _ => .inl trivial).isSome hrest fun _ _ => ⟨_, rfl⟩

/-- A tree is built, or there is an error. -/
theorem tree_isSome (hs : s.Within V) (ha : s.holds a = true) (hV : V.length < s.walkBound) :
    ∃ r, (s.tree a).1 = some r := by
  have hsub : [a] ⊆ V := List.cons_subset.mpr ⟨hs.holds ha, List.nil_subset _⟩
  have hvisit := visit_isSome s.walkBound a [a] hs ha (List.nodup_singleton a) hsub (Nat.lt_add_right _ hV)
  rw [tree_eq]
  exact (visit_does (A := fun _ => True) _ a [a] hs.coherent).isSome hvisit fun _ _ => ⟨_, rfl⟩

/-! ## Breadth first -/

theorem walkQueue_isSome (n : Nat) (queue passed : List String) (hs : s.Within V) (hn : (passed ++ queue).Nodup)
    (hV : passed ⊆ V) (hlen : V.length < n + passed.length) :
    ∃ r, (walkQueue n queue (passed ++ queue) s).1 = some r := by
  induction n generalizing s queue passed with
  | zero => exact absurd (length_le_of_subset (List.nodup_append.mp hn).1 hV) (by omega)
  | succ n ih =>
      cases queue with
      | nil => exact ⟨_, rfl⟩
      | cons a queue =>
          rw [walkQueue_cons]
          refine (await_anywhere hs.coherent (.load a)).isSome (await_isSome _ hs.coherent hs.loader trivial) ?_
          intro _ t hc hreached
          have ht := hs.changes hc
          cases hreached with
          | loaded ha =>
              refine (await_anywhere ht.coherent (.imports a)).isSome (await_isSome _ ht.coherent ht.loader ha) ?_
              intro _ t₁ hc₁ hreached₁
              have ht₁ := ht.changes hc₁
              obtain ⟨targets, hk⟩ := hreached₁.leads
              -- The address has left the queue, and is now among those that were passed.
              have hseen : passed ++ [a] ++ (queue ++ unseen (passed ++ a :: queue) targets) =
                  passed ++ a :: queue ++ unseen (passed ++ a :: queue) targets := by simp
              have hn' := nodup_append_unseen hn targets
              have hV' : passed ++ [a] ⊆ V :=
                List.append_subset.mpr ⟨hV, List.cons_subset.mpr ⟨ht.holds ha, List.nil_subset _⟩⟩
              have hroom : V.length < n + (passed ++ [a]).length := by
                simp only [List.length_append, List.length_singleton]
                omega
              rw [← hseen] at hn'
              have hrest := ih _ (passed ++ [a]) ht₁ hn' hV' hroom
              rw [hseen] at hrest
              rw [hk]
              exact (walkQueue_does _ _ _ ht₁.coherent fun _ _ => .inl trivial).isSome hrest fun _ _ => ⟨_, rfl⟩

/-- The dependencies are listed, or there is an error. -/
theorem dependencies_isSome (start : String) (hs : s.Within V) (hV : V.length < s.walkBound) :
    ∃ r, (s.dependencies start).1 = some r :=
  walkQueue_isSome s.walkBound [start] [] hs (List.nodup_singleton start) (List.nil_subset _) hV

end Session

end ImportTree
