import ImportTree.Tree.Basic
import Mathlib.Data.List.Nodup

/-!
# Expansions

A depth-first walk builds a tree from what is known of each address: its page, and the addresses it imports. The
tree is determined by that, whatever the walk has done to find it out.
-/

namespace ImportTree

/-- What is known of an address: its page, and the addresses that it imports. -/
abbrev Knowledge := String → Option (Page × List String)

/-- What a depth-first walk builds from import targets, with the addresses visited before and after. -/
inductive Expands (known : Knowledge) : List String → List String → Imports → List String → Prop where
  | nil {visited : List String} : Expands known [] visited .nil visited
  | placeholder {a : String} {targets visited visited' : List String} {rest : Imports} : a ∈ visited →
      Expands known targets visited rest visited' →
      Expands known (a :: targets) visited (.placeholder a rest) visited'
  | expanded {a : String} {page : Page} {inner targets visited visited₁ visited₂ : List String}
      {imports rest : Imports} : a ∉ visited → known a = some (page, inner) →
      Expands known inner (a :: visited) imports visited₁ → Expands known targets visited₁ rest visited₂ →
      Expands known (a :: targets) visited (.expanded page imports rest) visited₂

namespace Expands

variable {known known' : Knowledge} {targets visited visited' : List String} {imports : Imports} {a : String}

theorem mono (h : Expands known targets visited imports visited')
    (hk : ∀ {a x}, known a = some x → known' a = some x) : Expands known' targets visited imports visited' := by
  induction h with
  | nil => exact .nil
  | placeholder ha _ ih => exact .placeholder ha ih
  | expanded ha hp _ _ ih₁ ih₂ => exact .expanded ha (hk hp) ih₁ ih₂

/-- What is known determines the tree. -/
theorem unique {imports' : Imports} {visited'' : List String} (h : Expands known targets visited imports visited')
    (h' : Expands known targets visited imports' visited'') : imports = imports' ∧ visited' = visited'' := by
  induction h generalizing imports' visited'' with
  | nil => cases h'; exact ⟨rfl, rfl⟩
  | placeholder ha _ ih =>
      cases h' with
      | placeholder _ h' =>
          obtain ⟨rfl, rfl⟩ := ih h'
          exact ⟨rfl, rfl⟩
      | expanded hn _ _ _ => exact absurd ha hn
  | expanded hn hp _ _ ih₁ ih₂ =>
      cases h' with
      | placeholder ha _ => exact absurd ha hn
      | expanded _ hp' h₁ h₂ =>
          cases hp.symm.trans hp'
          obtain ⟨rfl, rfl⟩ := ih₁ h₁
          obtain ⟨rfl, rfl⟩ := ih₂ h₂
          exact ⟨rfl, rfl⟩

/-! ## What has been visited -/

theorem subset (h : Expands known targets visited imports visited') : visited ⊆ visited' := by
  induction h with
  | nil => exact fun _ h => h
  | placeholder _ _ ih => exact ih
  | expanded _ _ _ _ ih₁ ih₂ => exact fun b hb => ih₂ (ih₁ (List.mem_cons_of_mem _ hb))

theorem nodup (h : Expands known targets visited imports visited') (hv : visited.Nodup) : visited'.Nodup := by
  induction h with
  | nil => exact hv
  | placeholder _ _ ih => exact ih hv
  | expanded ha _ _ _ ih₁ ih₂ => exact ih₂ (ih₁ (List.nodup_cons.mpr ⟨ha, hv⟩))

theorem targets_visited (h : Expands known targets visited imports visited') : targets ⊆ visited' := by
  induction h with
  | nil => exact List.nil_subset _
  | placeholder ha h ih => exact List.cons_subset.mpr ⟨h.subset ha, ih⟩
  | expanded _ _ h₁ h₂ _ ih₂ => exact List.cons_subset.mpr ⟨h₂.subset (h₁.subset (List.mem_cons_self ..)), ih₂⟩

/-- Every address that the walk has visited is known, and whatever it imports has been visited too. -/
theorem closed (h : Expands known targets visited imports visited') (ha : a ∈ visited') :
    a ∈ visited ∨ ∃ page inner, known a = some (page, inner) ∧ inner ⊆ visited' := by
  induction h with
  | nil => exact .inl ha
  | placeholder _ _ ih => exact ih ha
  | @expanded b page inner _ visited _ _ _ _ _ hp h₁ h₂ ih₁ ih₂ =>
      rcases ih₂ ha with ha | ha
      · rcases ih₁ ha with ha | ⟨page, inner, hp, hi⟩
        · rcases List.mem_cons.mp ha with rfl | ha
          · exact .inr ⟨page, inner, hp, fun _ hb => h₂.subset (h₁.targets_visited hb)⟩
          · exact .inl ha
        · exact .inr ⟨page, inner, hp, fun _ hb => h₂.subset (hi hb)⟩
      · exact .inr ha

/-- Nothing is visited but what the targets lead to. -/
theorem reached {P : String → Prop} (h : Expands known targets visited imports visited') (hv : ∀ a ∈ visited, P a)
    (ht : ∀ a ∈ targets, P a) (hk : ∀ {a page inner}, P a → known a = some (page, inner) → ∀ b ∈ inner, P b) :
    ∀ a ∈ visited', P a := by
  induction h with
  | nil => exact hv
  | placeholder _ _ ih => exact ih hv fun a ha => ht a (List.mem_cons_of_mem _ ha)
  | @expanded b _ _ _ _ _ _ _ _ _ hp _ _ ih₁ ih₂ =>
      have hb : P b := ht b (List.mem_cons_self ..)
      exact ih₂ (ih₁ (List.forall_mem_cons.mpr ⟨hb, hv⟩) (hk hb hp)) fun a ha => ht a (List.mem_cons_of_mem _ ha)

end Expands

/-! ## Pages at their addresses -/

/-- Whether the page that is known of an address is at that address. -/
def Knowledge.Placed (known : Knowledge) : Prop :=
  ∀ {a page inner}, known a = some (page, inner) → page.address = a

namespace Expands

variable {known : Knowledge} {targets visited visited' : List String} {imports : Imports}

/-- The entries of a tree are the targets that it is built from. -/
theorem addresses_eq (h : Expands known targets visited imports visited') (hk : known.Placed) :
    imports.addresses = targets := by
  induction h with
  | nil => rfl
  | placeholder _ _ ih => rw [Imports.addresses, ih]
  | expanded _ hp _ _ _ ih₂ => rw [Imports.addresses, ih₂, hk hp]

/-- The walk visits what it expands, and nothing else. -/
theorem visited_eq (h : Expands known targets visited imports visited') (hk : known.Placed) :
    visited' = (imports.pages.map (·.address)).reverse ++ visited := by
  induction h with
  | nil => rfl
  | placeholder _ _ ih => exact ih
  | expanded _ hp _ _ ih₁ ih₂ => rw [ih₂, ih₁, Imports.pages]; simp [hk hp]

end Expands

end ImportTree
