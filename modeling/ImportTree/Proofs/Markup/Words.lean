import ImportTree.Text.Ascii
import Mathlib.Data.List.SplitBy

/-!
# Words of a text

The words of a text are what stands in it between blanks.
-/

namespace ImportTree.Text

variable {cs word : List Char}

/-- Whether two neighbours belong to one word. -/
def joins (a b : Char) : Bool :=
  !isAsciiBlank a && !isAsciiBlank b

theorem asciiWords_eq (cs : List Char) :
    asciiWords cs = (cs.splitBy joins).filter fun w => !w.any isAsciiBlank := rfl

theorem joins_right {a b : Char} (h : joins a b = false) (ha : isAsciiBlank a = false) : isAsciiBlank b = true := by
  simpa [joins, ha] using h

theorem joins_left {a b : Char} (h : joins a b = false) (hb : isAsciiBlank b = false) : isAsciiBlank a = true := by
  simpa [joins, hb] using h

theorem getLast?_flatten_append (l : List (List Char)) {g : List Char} (hg : g ≠ []) :
    (l ++ [g]).flatten.getLast? = g.getLast? := by
  cases h : g.getLast? with
  | none => exact absurd (List.getLast?_eq_none_iff.mp h) hg
  | some c => simp [h]

theorem head?_flatten_cons (l : List (List Char)) {g : List Char} (hg : g ≠ []) :
    (g :: l).flatten.head? = g.head? := by
  cases g with
  | nil => exact absurd rfl hg
  | cons c g => rfl

/-- A word stands between blanks, or at an end of the text. -/
theorem mem_asciiWords (hne : word ≠ []) (hword : ∀ c ∈ word, isAsciiBlank c = false) :
    word ∈ asciiWords cs ↔ ∃ before after, cs = before ++ (word ++ after) ∧
      (∀ c ∈ before.getLast?, isAsciiBlank c = true) ∧ ∀ c ∈ after.head?, isAsciiBlank c = true := by
  have hkept : (!word.any isAsciiBlank) = true := by simpa using hword
  rw [asciiWords_eq, List.mem_filter, and_iff_left hkept]
  constructor
  · intro hmem
    have hchain := List.isChain_getLast_head_splitBy joins cs
    have hnil := List.nil_notMem_splitBy joins cs
    have hflat := List.flatten_splitBy joins cs
    obtain ⟨l₁, l₂, hsplit⟩ := List.append_of_mem hmem
    rw [hsplit] at hchain hnil hflat
    refine ⟨l₁.flatten, l₂.flatten, by rw [← hflat]; simp, fun c hc => ?_, fun c hc => ?_⟩
    · rcases List.eq_nil_or_concat l₁ with rfl | ⟨l, g, rfl⟩
      · cases hc
      · rw [List.concat_eq_append] at hc hchain hnil
        have hg : g ≠ [] := by rintro rfl; simp at hnil
        rw [getLast?_flatten_append l hg] at hc
        obtain ⟨_, hw, hj⟩ := (List.isChain_append.mp hchain).2.2 g (by simp) word (by simp)
        rw [List.getLast_of_mem_getLast? hc] at hj
        exact joins_left hj (hword _ (List.head_mem hw))
    · cases l₂ with
      | nil => cases hc
      | cons g l =>
          have hg : g ≠ [] := by rintro rfl; simp at hnil
          rw [head?_flatten_cons l hg] at hc
          obtain ⟨hw, _, hj⟩ := (List.isChain_cons.mp (List.isChain_append.mp hchain).2.1).1 g (by simp)
          rw [List.head_of_mem_head? hc] at hj
          exact joins_right hj (hword _ (List.getLast_mem hw))
  · rintro ⟨before, after, rfl, hbefore, hafter⟩
    have hjoined : word.Pairwise fun a b => joins a b = true :=
      List.pairwise_of_forall_mem_list fun a ha b hb => by simp [joins, hword a ha, hword b hb]
    rw [List.splitBy_append fun a ha b hb => by simp [joins, hbefore a ha],
      List.splitBy_append fun a ha b hb => by simp [joins, hafter b hb], List.splitBy_of_isChain hne hjoined.isChain]
    simp

theorem toLower_of_blank {c : Char} (h : isAsciiBlank c = true) : c.toLower = c := by
  simp only [isAsciiBlank, Bool.or_eq_true, beq_iff_eq, or_assoc] at h
  rcases h with rfl | rfl | rfl | rfl | rfl <;> decide

/-- A blank is no letter in any case. -/
theorem not_blank_of_lower {mark : List Char} (h : lower cs = mark) (hmark : ∀ c ∈ mark, isAsciiBlank c = false) :
    ∀ c ∈ cs, isAsciiBlank c = false := by
  intro c hc
  by_contra hblank
  rw [Bool.not_eq_false] at hblank
  have hmem : c ∈ mark := h ▸ List.mem_map.mpr ⟨c, hc, toLower_of_blank hblank⟩
  rw [hmark c hmem] at hblank
  cases hblank

end ImportTree.Text
