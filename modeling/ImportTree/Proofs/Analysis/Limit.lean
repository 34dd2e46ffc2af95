import ImportTree.Proofs.Analysis.Shape
import ImportTree.Tree.Drawing

/-!
# Trees that are cut off

A tree that is cut off at a depth loses the entries below it. A placeholder above it may stand for a document whose
expansion is lost.
-/

namespace ImportTree

/-! ## Levels -/

/-- An entry of a tree, and the number of documents above it. -/
structure LeveledEntry extends Entry where
  level : Nat
deriving DecidableEq, Repr

namespace Imports

/-- The entries at any depth with their levels, from a level on. -/
def leveled (level : Nat) : Imports → List LeveledEntry
  | .nil => []
  | .placeholder address rest => ⟨⟨address, false⟩, level⟩ :: rest.leveled level
  | .expanded page imports rest =>
    ⟨⟨page.address, true⟩, level⟩ :: (imports.leveled (level + 1) ++ rest.leveled level)

theorem leveled_entries (level : Nat) (imports : Imports) :
    (imports.leveled level).map (·.toEntry) = imports.entries := by
  induction imports generalizing level with
  | nil => rfl
  | placeholder address rest ih => simp [leveled, entries, ih]
  | expanded page imports rest ih₁ ih₂ => simp [leveled, entries, ih₁, ih₂]

theorem le_leveled {level : Nat} {imports : Imports} : ∀ e ∈ imports.leveled level, level ≤ e.level := by
  induction imports generalizing level with
  | nil => simp [leveled]
  | placeholder address rest ih => exact List.forall_mem_cons.mpr ⟨Nat.le_refl _, ih⟩
  | expanded page imports rest ih₁ ih₂ =>
      refine List.forall_mem_cons.mpr ⟨Nat.le_refl _, fun e he => ?_⟩
      rcases List.mem_append.mp he with he | he
      · exact Nat.le_of_succ_le (ih₁ e he)
      · exact ih₂ e he

theorem filter_leveled (level : Nat) (imports : Imports) :
    ((imports.leveled level).filter fun e => e.level < level + 0) = [] := by
  refine List.filter_eq_nil_iff.mpr fun e he => ?_
  simpa using le_leveled e he

/-- The entries that are left of a tree are those above the depth at which it is cut off. -/
theorem limit_leveled (depth level : Nat) (imports : Imports) :
    (imports.limit depth).leveled level = (imports.leveled level).filter fun e => e.level < level + depth := by
  induction imports generalizing depth level with
  | nil => cases depth <;> rfl
  | placeholder address rest ih =>
      cases depth with
      | zero => exact (filter_leveled ..).symm
      | succ depth => rw [limit, leveled, ih, leveled, List.filter_cons_of_pos (by simp)]
  | expanded page imports rest ih₁ ih₂ =>
      cases depth with
      | zero => exact (filter_leveled ..).symm
      | succ depth =>
          rw [limit, leveled, ih₁, ih₂, leveled, List.filter_cons_of_pos (by simp), List.filter_append,
            Nat.add_right_comm, Nat.add_assoc]

end Imports

/-! ## Entries that are left -/

theorem Marked.nodup {visited : List String} {l : List Entry} (h : Marked visited l) :
    (expandedIn l).Nodup ∧ ∀ a ∈ visited, a ∉ expandedIn l := by
  induction l generalizing visited with
  | nil => simp [expandedIn]
  | cons e l ih =>
      obtain ⟨hnodup, hvisited⟩ := ih h.2
      rw [expandedIn_cons]
      cases he : e.expanded with
      | true =>
          rw [he, if_pos rfl] at hvisited
          obtain ⟨hfirst, hvisited⟩ := List.forall_mem_cons.mp hvisited
          refine ⟨List.nodup_cons.mpr ⟨hfirst, hnodup⟩, fun a ha hmem => ?_⟩
          rcases List.mem_cons.mp hmem with rfl | hmem
          · exact h.1.mp he ha
          · exact hvisited a ha hmem
      | false =>
          rw [he, if_neg (by simp)] at hvisited
          exact ⟨hnodup, hvisited⟩

theorem mem_expandedIn {a : String} {l : List Entry} : a ∈ expandedIn l ↔ ⟨a, true⟩ ∈ l := by
  unfold expandedIn
  rw [List.mem_map]
  constructor
  · rintro ⟨⟨_, _⟩, he, rfl⟩
    obtain ⟨hmem, rfl⟩ := List.mem_filter.mp he
    exact hmem
  · exact fun h => ⟨_, List.mem_filter.mpr ⟨h, rfl⟩, rfl⟩

/-- An address is expanded on one level only. -/
theorem Marked.level_unique {visited : List String} {l : List LeveledEntry} (h : Marked visited (l.map (·.toEntry)))
    {a : String} {level level' : Nat} (hx : ⟨⟨a, true⟩, level⟩ ∈ l) (hy : ⟨⟨a, true⟩, level'⟩ ∈ l) :
    level = level' := by
  have hnodup : ((l.filter (·.expanded)).map (·.address)).Nodup := by
    have := h.nodup.1
    rw [expandedIn, List.filter_map, List.map_map] at this
    exact this
  have heq := List.inj_on_of_nodup_map hnodup (List.mem_filter.mpr ⟨hx, rfl⟩) (List.mem_filter.mpr ⟨hy, rfl⟩) rfl
  exact congrArg LeveledEntry.level heq

theorem filter_split {α : Type} {p : α → Bool} {l before after : List α} {x : α}
    (h : l.filter p = before ++ x :: after) :
    ∃ earlier later, l = earlier ++ x :: later ∧ earlier.filter p = before := by
  obtain ⟨l₁, l', rfl, rfl, htail⟩ := List.filter_eq_append_iff.mp h
  obtain ⟨l₂, l₃, rfl, hl₂, -, -⟩ := List.filter_eq_cons_iff.mp htail
  exact ⟨l₁ ++ l₂, l₃, by simp, by rw [List.filter_append, List.filter_eq_nil_iff.mpr hl₂, List.append_nil]⟩

/-- Where some entries are lost, a placeholder stands behind the expansion of its address exactly if that is left. -/
theorem Marked.filter {visited : List String} {l : List LeveledEntry} (h : Marked visited (l.map (·.toEntry)))
    (left : LeveledEntry → Bool) {before after : List Entry} {e : Entry}
    (hs : (l.filter left).map (·.toEntry) = before ++ e :: after) (he : e.expanded = false) :
    e.address ∈ visited ∨ ∃ level, ⟨⟨e.address, true⟩, level⟩ ∈ l ∧
      (e.address ∈ expandedIn before ↔ left ⟨⟨e.address, true⟩, level⟩ = true) := by
  obtain ⟨shown, tail, hfilter, rfl, htail⟩ := List.map_eq_append_iff.mp hs
  obtain ⟨x, _, rfl, rfl, -⟩ := List.map_eq_cons_iff.mp htail
  obtain ⟨earlier, later, rfl, rfl⟩ := filter_split hfilter
  have hsplit := h
  rw [List.map_append, List.map_cons] at hsplit
  refine (hsplit.split.mp he).imp_right fun hexpanded => ?_
  obtain ⟨⟨_, level⟩, hmem, rfl⟩ := List.mem_map.mp (mem_expandedIn.mp hexpanded)
  refine ⟨level, List.mem_append_left _ hmem, ?_⟩
  rw [mem_expandedIn, List.mem_map]
  constructor
  · rintro ⟨⟨_, level'⟩, hshown, rfl⟩
    obtain ⟨hmem', hleft⟩ := List.mem_filter.mp hshown
    rwa [h.level_unique (List.mem_append_left _ hmem) (List.mem_append_left _ hmem')]
  · intro hleft
    exact ⟨_, List.mem_filter.mpr ⟨hmem, hleft⟩, rfl⟩

namespace Analysis

variable {readers : Readers} {loader? : Option Loader} {attach eager : Bool} {root text : String} {a : Analysis}
  {tree : Tree}

/-- In the tree that an analysis answers after any steps, a placeholder stands for the root or for a document that is
expanded before it. If the tree is cut off at a depth, that holds of the placeholders of exactly those documents whose
expansion is not below the depth. -/
theorem placeholders_limit (hstart : start readers loader? attach eager root text = .ok a) (steps : List Step)
    (htree : ((a.run steps).2.perform .tree).1 = .tree tree) :
    (∀ before e after, tree.imports.entries = before ++ e :: after → e.expanded = false →
      e.address = root ∨ e.address ∈ expandedIn before) ∧
    ∀ depth before e after, (tree.imports.limit depth).entries = before ++ e :: after → e.expanded = false →
      e.address = root ∨ ∃ level, ⟨⟨e.address, true⟩, level⟩ ∈ tree.imports.leveled 1 ∧
        (e.address ∈ expandedIn before ↔ level ≤ depth) := by
  obtain ⟨hrun, hroot⟩ := run_evolves steps (start_coherent hstart)
  obtain ⟨targets, visited, -, hexpands⟩ := perform_tree hrun.coherent htree
  have hmarked := hexpands.marked (Session.known_placed _)
  rw [hroot, (start_resolved hstart).1] at hmarked
  constructor
  · intro before e after hs he
    rw [hs] at hmarked
    simpa using hmarked.split.mp he
  · intro depth before e after hs he
    rw [← Imports.leveled_entries 1] at hmarked
    rw [← Imports.leveled_entries 1, Imports.limit_leveled] at hs
    refine (hmarked.filter _ hs he).imp (by simp) fun hlevel => ?_
    obtain ⟨level, hmem, hleft⟩ := hlevel
    exact ⟨level, hmem, hleft.trans (by simp; omega)⟩

/-- An analysis of a document that imports another one twice, first through a third. -/
def detour : Except AnalysisError Analysis :=
  start {} (some (.shelf [("a.html", "<link rel=import href=b.html>"), ("b.html", "")] [])) false true "index.html"
    "<link rel=import href=a.html><link rel=import href=b.html>"

def Answer.tree? : Answer → Option Tree
  | .tree tree => some tree
  | _ => none

theorem Answer.tree?_eq_some {answer : Answer} (h : answer.tree? = some tree) : answer = .tree tree := by
  cases answer <;> cases h
  rfl

/-- The placeholder is left at a depth at which the expansion is lost. -/
theorem placeholders_limit_detour : ∃ a tree, detour = .ok a ∧ ((a.run []).2.perform .tree).1 = .tree tree ∧
    (tree.imports.limit 1).entries = [⟨"a.html", true⟩, ⟨"b.html", false⟩] ∧
    ∃ level, ⟨⟨"b.html", true⟩, level⟩ ∈ tree.imports.leveled 1 ∧ 1 < level := by
  have hrun : (detour.toOption.bind fun a => ((a.run []).2.perform .tree).1.tree?).map (fun tree =>
      (tree.imports.limit 1).entries) = some [⟨"a.html", true⟩, ⟨"b.html", false⟩] := by
    decide +kernel
  obtain ⟨tree, htree, hentries⟩ := Option.map_eq_some_iff.mp hrun
  obtain ⟨a, hstart, htree⟩ := Option.bind_eq_some_iff.mp htree
  have hstart := toOption_eq_some hstart
  have htree := Answer.tree?_eq_some htree
  have hlost := (placeholders_limit hstart [] htree).2 1 [⟨"a.html", true⟩] ⟨"b.html", false⟩ [] hentries rfl
  obtain ⟨level, hmem, hleft⟩ := hlost.resolve_left (by decide)
  exact ⟨a, tree, hstart, htree, hentries, level, hmem, Nat.lt_of_not_le (hleft.not.mp (by decide))⟩

theorem placeholders_limit_drawn : (detour.toOption.bind fun a => (a.perform .tree).1.tree?).map (fun tree =>
    Tree.drawing false { tree with imports := tree.imports.limit 1 }) =
      some ["index.html", "├── a.html", "└── b.html (*)", "", Tree.legend] := by
  decide +kernel

end Analysis

end ImportTree
