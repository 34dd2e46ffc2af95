import ImportTree.Proofs.Tree.Expansion

/-!
# Entries of a tree

The entries of a tree in depth-first order, each before those below it. An address is expanded where it occurs
first, and nowhere else.
-/

namespace ImportTree

/-- An import as it stands in a tree: expanded, or a placeholder. -/
structure Entry where
  address : String
  expanded : Bool
deriving DecidableEq, Repr

/-- The addresses of the expanded entries. -/
def expandedIn (entries : List Entry) : List String :=
  (entries.filter (·.expanded)).map (·.address)

namespace Imports

/-- The entries at any depth, each before those below it. -/
def entries : Imports → List Entry
  | .nil => []
  | .placeholder address rest => ⟨address, false⟩ :: rest.entries
  | .expanded page imports rest => ⟨page.address, true⟩ :: (imports.entries ++ rest.entries)

/-- The expanded documents with their imports, each before those below it. -/
def nodes : Imports → List Tree
  | .nil => []
  | .placeholder _ rest => rest.nodes
  | .expanded page imports rest => ⟨page, imports⟩ :: (imports.nodes ++ rest.nodes)

theorem expandedIn_entries (imports : Imports) : expandedIn imports.entries = imports.pages.map (·.address) := by
  induction imports with
  | nil => rfl
  | placeholder address rest ih => exact ih
  | expanded page imports rest ih₁ ih₂ =>
      simp only [expandedIn, entries, pages, List.filter_cons, List.filter_append, List.map_append, List.map_cons,
        ↓reduceIte] at ih₁ ih₂ ⊢
      rw [ih₁, ih₂]

theorem pages_eq_nodes (imports : Imports) : imports.pages = imports.nodes.map (·.page) := by
  induction imports with
  | nil => rfl
  | placeholder address rest ih => exact ih
  | expanded page imports rest ih₁ ih₂ => simp [pages, nodes, ih₁, ih₂]

end Imports

/-- The expanded documents with their imports, each before those below it. -/
def Tree.nodes (t : Tree) : List Tree :=
  t :: t.imports.nodes

/-! ## First occurrences -/

/-- Whether exactly those entries are expanded whose address occurs neither before nor among the visited ones. -/
def Marked (visited : List String) : List Entry → Prop
  | [] => True
  | e :: rest => (e.expanded = true ↔ e.address ∉ visited) ∧
      Marked (if e.expanded then e.address :: visited else visited) rest

theorem expandedIn_cons (e : Entry) (rest : List Entry) :
    expandedIn (e :: rest) = if e.expanded then e.address :: expandedIn rest else expandedIn rest := by
  unfold expandedIn
  cases h : e.expanded <;> simp [h]

theorem marked_append {visited : List String} {l₁ l₂ : List Entry} :
    Marked visited (l₁ ++ l₂) ↔ Marked visited l₁ ∧ Marked ((expandedIn l₁).reverse ++ visited) l₂ := by
  induction l₁ generalizing visited with
  | nil => simp [Marked, expandedIn]
  | cons e l₁ ih =>
      rw [List.cons_append, Marked, Marked, ih, expandedIn_cons, and_assoc]
      cases e.expanded <;> simp

theorem Marked.split {visited : List String} {before after : List Entry} {e : Entry}
    (h : Marked visited (before ++ e :: after)) :
    e.expanded = false ↔ e.address ∈ visited ∨ e.address ∈ expandedIn before := by
  have he := (marked_append.mp h).2.1
  rw [← Bool.not_eq_true, he, not_not, List.mem_append, List.mem_reverse, or_comm]

theorem expandedIn_append (l₁ l₂ : List Entry) : expandedIn (l₁ ++ l₂) = expandedIn l₁ ++ expandedIn l₂ := by
  simp [expandedIn]

/-- An expanded entry is the first with its address. -/
theorem Marked.first {visited : List String} {before after : List Entry} {e : Entry}
    (h : Marked visited (before ++ e :: after)) (hx : e.expanded = true) :
    e.address ∉ visited ∧ ∀ e' ∈ before, e'.address ≠ e.address := by
  have he : e.address ∉ visited ∧ e.address ∉ expandedIn before := by
    have := h.split.not
    rwa [Bool.not_eq_false, not_or, iff_true_left hx] at this
  refine ⟨he.1, fun e' hmem heq => he.2 ?_⟩
  obtain ⟨l₁, l₂, rfl⟩ := List.append_of_mem hmem
  rw [expandedIn_append, expandedIn_cons]
  cases hx' : e'.expanded with
  | true => simp [heq]
  | false =>
      rw [List.append_assoc, List.cons_append] at h
      rcases h.split.mp hx' with hv | hb
      · exact absurd (heq ▸ hv) he.1
      · exact List.mem_append_left _ (heq ▸ hb)

namespace Expands

variable {known : Knowledge} {targets visited visited' : List String} {imports : Imports}

/-- In the walk, an entry is expanded at its first occurrence. -/
theorem marked (h : Expands known targets visited imports visited') (hk : known.Placed) :
    Marked visited imports.entries := by
  induction h with
  | nil => trivial
  | placeholder ha _ ih => exact ⟨by simpa using ha, ih⟩
  | @expanded a page inner targets visited visited₁ visited₂ imports rest ha hp h₁ _ ih₁ ih₂ =>
      have hadd : page.address = a := hk hp
      refine ⟨by simpa [hadd] using ha, ?_⟩
      simp only [↓reduceIte, hadd]
      refine marked_append.mpr ⟨ih₁, ?_⟩
      rw [Imports.expandedIn_entries, ← h₁.visited_eq hk]
      exact ih₂

/-- Every expanded document is known, and its entries are what it imports. -/
theorem nodes_known (h : Expands known targets visited imports visited') (hk : known.Placed) {node : Tree}
    (hn : node ∈ imports.nodes) : known node.page.address = some (node.page, node.imports.addresses) := by
  induction h with
  | nil => cases hn
  | placeholder _ _ ih => exact ih hn
  | expanded _ hp h₁ _ ih₁ ih₂ =>
      rcases List.mem_cons.mp hn with rfl | hn
      · rw [hk hp, hp, h₁.addresses_eq hk]
      · exact (List.mem_append.mp hn).elim ih₁ ih₂

/-! ## Whole trees -/

variable {tree : Tree} {root : String}

theorem nodup_expanded (h : Expands known targets [root] tree.imports visited) (hk : known.Placed)
    (hroot : tree.page.address = root) : tree.expandedAddresses.Nodup := by
  have hnodup := h.nodup (List.nodup_singleton root)
  rw [h.visited_eq hk] at hnodup
  simpa [Tree.expandedAddresses, Tree.pages, hroot] using List.nodup_reverse.mpr hnodup

/-- Every page of a tree is what is known of its address. -/
theorem pages_known (h : Expands known targets [root] tree.imports visited) (hk : known.Placed)
    (hroot : known root = some (tree.page, targets)) {page : Page} (hp : page ∈ tree.pages) :
    ∃ inner, known page.address = some (page, inner) := by
  rcases List.mem_cons.mp hp with rfl | hp
  · exact ⟨targets, by rw [hk hroot, hroot]⟩
  · rw [Imports.pages_eq_nodes] at hp
    obtain ⟨node, hn, rfl⟩ := List.mem_map.mp hp
    exact ⟨_, h.nodes_known hk hn⟩

end Expands

end ImportTree
