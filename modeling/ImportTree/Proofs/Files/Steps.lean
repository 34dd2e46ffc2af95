import ImportTree.Address.Path
import ImportTree.Files.Place

/-!
# The components of a path

A path is split into components, which are joined to it again. They lead from a place to a place, one directory up or
down at a time.
-/

namespace ImportTree

/-! ## Splitting and joining -/

namespace Text

variable {separator : Char} {part cs : List Char} {parts : List (List Char)}

theorem mem_of_mem_splitOn {α : Type} {p : α → Bool} {part cs : List α} (h : part ∈ splitOn p cs) :
    ∀ c ∈ part, c ∈ cs ∧ p c = false := by
  induction cs generalizing part with
  | nil =>
      obtain rfl : part = [] := List.mem_singleton.mp h
      simp
  | cons d cs ih =>
      have hrest {part : List α} (h : part ∈ splitOn p cs) : ∀ c ∈ part, c ∈ d :: cs ∧ p c = false :=
        fun c hc => ⟨List.mem_cons_of_mem _ (ih h c hc).1, (ih h c hc).2⟩
      cases hs : splitOn p cs with
      | nil => exact absurd hs (splitOn_ne_nil _ _)
      | cons first others =>
          rw [hs] at hrest
          rw [splitOn, hs] at h
          cases hd : p d with
          | true =>
              rcases List.mem_cons.mp (by simpa [hd] using h : part ∈ [] :: first :: others) with rfl | h
              · simp
              · exact hrest h
          | false =>
              rcases List.mem_cons.mp (by simpa [hd] using h : part ∈ (d :: first) :: others) with rfl | h
              · exact List.forall_mem_cons.mpr ⟨⟨List.mem_cons_self .., hd⟩, hrest (List.mem_cons_self ..)⟩
              · exact hrest (List.mem_cons_of_mem _ h)

theorem not_mem_of_mem_splitOn {α : Type} {p : α → Bool} {part cs : List α} (h : part ∈ splitOn p cs) {c : α}
    (hc : p c = true) : c ∉ part :=
  fun hmem => Bool.eq_false_iff.mp (mem_of_mem_splitOn h c hmem).2 hc

theorem splitOn_append_separator (a b : List Char) :
    splitOn (· == separator) (a ++ separator :: b) = splitOn (· == separator) a ++ splitOn (· == separator) b := by
  induction a with
  | nil =>
      cases hs : splitOn (· == separator) b with
      | nil => exact absurd hs (splitOn_ne_nil _ _)
      | cons first others => simp [splitOn, hs]
  | cons c a ih =>
      rw [List.cons_append, splitOn, ih, splitOn]
      cases hs : splitOn (· == separator) a with
      | nil => exact absurd hs (splitOn_ne_nil _ _)
      | cons first others =>
          by_cases hc : c = separator <;> simp [hc]

theorem splitOn_of_not_mem (h : separator ∉ cs) : splitOn (· == separator) cs = [cs] := by
  induction cs with
  | nil => rfl
  | cons c cs ih =>
      simp only [List.mem_cons, not_or] at h
      rw [splitOn, ih h.2]
      simp [Ne.symm h.1]

theorem splitOn_joinWith (hne : parts ≠ []) (h : ∀ part ∈ parts, separator ∉ part) :
    splitOn (· == separator) (joinWith separator parts) = parts := by
  induction parts with
  | nil => exact absurd rfl hne
  | cons part parts ih =>
      cases parts with
      | nil => exact splitOn_of_not_mem (h part (List.mem_cons_self ..))
      | cons next parts =>
          rw [joinWith, splitOn_append_separator, splitOn_of_not_mem (h part (List.mem_cons_self ..)),
            ih (by simp) fun p hp => h p (List.mem_cons_of_mem _ hp)]
          · rfl
          · simp

theorem mem_joinWith {c : Char} (h : c ∈ joinWith separator parts) : c = separator ∨ ∃ part ∈ parts, c ∈ part := by
  induction parts with
  | nil => cases h
  | cons part parts ih =>
      cases parts with
      | nil => exact .inr ⟨part, List.mem_cons_self .., h⟩
      | cons next parts =>
          rw [joinWith] at h
          · rcases List.mem_append.mp h with h | h
            · exact .inr ⟨part, List.mem_cons_self .., h⟩
            · rcases List.mem_cons.mp h with rfl | h
              · exact .inl rfl
              · refine (ih h).imp_right fun hmem => ?_
                obtain ⟨p, hp, hc⟩ := hmem
                exact ⟨p, List.mem_cons_of_mem _ hp, hc⟩
          · simp

theorem head?_joinWith (h : ∀ part ∈ parts, part ≠ [] ∧ separator ∉ part) :
    (joinWith separator parts).head? ≠ some separator := by
  cases parts with
  | nil => simp [joinWith]
  | cons part parts =>
      obtain ⟨hne, hpart⟩ := h part (List.mem_cons_self ..)
      obtain ⟨c, part, rfl⟩ := List.exists_cons_of_ne_nil hne
      have hhead : c ≠ separator := fun heq => hpart (heq ▸ List.mem_cons_self ..)
      cases parts <;> simpa [joinWith] using hhead

theorem throughLast_prefix (separator : Char) (cs : List Char) : throughLast separator cs <+: cs := by
  rw [throughLast, ← List.reverse_suffix, List.reverse_reverse]
  exact List.dropWhile_suffix _

/-- What stands before the last separator ends with it. -/
theorem throughLast_end (separator : Char) (cs : List Char) :
    throughLast separator cs = [] ∨ ∃ before, throughLast separator cs = before ++ [separator] := by
  unfold throughLast
  have hhead := List.head?_dropWhile_not (· != separator) cs.reverse
  cases hs : cs.reverse.dropWhile (· != separator) with
  | nil => exact .inl rfl
  | cons c rest =>
      rw [hs] at hhead
      obtain rfl : c = separator := by simpa using hhead
      exact .inr ⟨rest.reverse, List.reverse_cons⟩

end Text

namespace Files

/-! ## Walks -/

/-- The components of a path, from left to right. -/
def components (path : List Char) : List (List Char) :=
  Text.splitOn (· == '/') path

theorem components_slash (cs : List Char) : components ('/' :: cs) = [] :: components cs :=
  Text.splitOn_append_separator [] cs

/-- Where the components of a path lead from a place. Two dots lead up, but not from the top. -/
inductive Reaches : Place → List (List Char) → Place → Prop where
  | done (place : Place) : Reaches place [] place
  | stay {part : List Char} {rest : List (List Char)} {place next : Place} (h : part = [] ∨ part = ['.']) :
      Reaches place rest next → Reaches place (part :: rest) next
  | up {rest : List (List Char)} {place next : Place} (name : Name) :
      Reaches place rest next → Reaches (place ++ [name]) (['.', '.'] :: rest) next
  | down {part : List Char} {rest : List (List Char)} {place next : Place}
      (h : part ≠ [] ∧ part ≠ ['.'] ∧ part ≠ ['.', '.']) :
      Reaches (place ++ [.text part]) rest next → Reaches place (part :: rest) next

variable {part : List Char} {parts rest : List (List Char)} {place next : Place}

/-! ## Steps -/

/-- The steps among the components of a path. -/
def stepsIn (parts : List (List Char)) : List Name :=
  (parts.map Name.text).filter Name.isStep

theorem stepsIn_append (a b : List (List Char)) : stepsIn (a ++ b) = stepsIn a ++ stepsIn b := by
  simp [stepsIn]

theorem isStep_text : Name.isStep (.text part) = true ↔ part ≠ [] ∧ part ≠ ['.'] := by
  simp [Name.isStep, Name.here]

theorem stepsIn_idle (h : part = [] ∨ part = ['.']) (rest : List (List Char)) :
    stepsIn (part :: rest) = stepsIn rest := by
  rcases h with rfl | rfl <;> rfl

theorem stepsIn_step (h : part ≠ [] ∧ part ≠ ['.']) (rest : List (List Char)) :
    stepsIn (part :: rest) = .text part :: stepsIn rest := by
  simp [stepsIn, isStep_text.mpr h]

/-- The components of a path that was joined from components without slashes. -/
theorem steps_joinWith (h : ∀ part ∈ parts, '/' ∉ part) : steps (Text.joinWith '/' parts) = stepsIn parts := by
  by_cases hne : parts = []
  · subst hne
    rfl
  · rw [steps, names, Text.splitOn_joinWith hne h]
    rfl

theorem steps_slash (cs : List Char) : steps ('/' :: cs) = steps cs := by
  change stepsIn (components ('/' :: cs)) = _
  rw [components_slash]
  rfl

/-- A path that is written behind the directory of another one goes on where the directory leads. -/
theorem steps_behind (base target : List Char) :
    steps (Text.throughLast '/' base ++ target) = steps (Text.throughLast '/' base) ++ steps target := by
  rcases Text.throughLast_end '/' base with h | ⟨before, h⟩
  · rw [h]
    rfl
  · have hsplit (cs : List Char) : steps (before ++ '/' :: cs) = steps before ++ steps cs := by
      rw [steps, names, Text.splitOn_append_separator]
      exact stepsIn_append _ _
    rw [h, List.append_assoc, List.singleton_append, hsplit, hsplit]
    simp [steps, names, Text.splitOn, Name.isStep]

theorem below?_isSome {above place : Place} : (below? above place).isSome = true ↔ above <+: place := by
  rw [Option.isSome_iff_exists]
  exact exists_congr fun rest => below?_eq_some_iff.trans eq_comm

theorem follow?_up (place : Place) (name : Name) (names : List Name) :
    follow? (place ++ [name]) (.above :: names) = follow? place names := by
  simp [follow?]

theorem follow?_down (h : part ≠ ['.', '.']) (place : Place) (names : List Name) :
    follow? place (.text part :: names) = follow? (place ++ [.text part]) names := by
  rw [follow?, if_neg (by simpa [Name.above] using h)]

/-- A component that leads down is undone by two dots. -/
theorem follow?_cancel (h : part ≠ [] ∧ part ≠ ['.'] ∧ part ≠ ['.', '.']) (place : Place) (parts : List (List Char)) :
    follow? place (stepsIn (parts ++ [part, ['.', '.']])) = follow? place (stepsIn parts) := by
  rw [stepsIn_append, follow?_append, stepsIn_step ⟨h.1, h.2.1⟩, stepsIn_step (by simp)]
  cases follow? place (stepsIn parts) with
  | none => rfl
  | some next => rw [Option.bind_some, follow?_down h.2.2, ← Name.above, follow?_up]; rfl

theorem reaches_iff : Reaches place parts next ↔ follow? place (stepsIn parts) = some next := by
  constructor
  · intro h
    induction h with
    | done place => rfl
    | stay h _ ih => rwa [stepsIn_idle h]
    | up name _ ih => rwa [stepsIn_step (by simp), ← Name.above, follow?_up]
    | down h _ ih => rwa [stepsIn_step ⟨h.1, h.2.1⟩, follow?_down h.2.2]
  · intro h
    induction parts generalizing place with
    | nil =>
        obtain rfl := Option.some.inj h
        exact .done place
    | cons part parts ih =>
        by_cases hidle : part = [] ∨ part = ['.']
        · rw [stepsIn_idle hidle] at h
          exact .stay hidle (ih h)
        · rw [not_or] at hidle
          rw [stepsIn_step hidle] at h
          by_cases habove : part = ['.', '.']
          · subst habove
            rcases List.eq_nil_or_concat place with rfl | ⟨parent, name, rfl⟩
            · simp [follow?, Name.above] at h
            · rw [← Name.above, List.concat_eq_append, follow?_up] at h
              rw [List.concat_eq_append]
              exact .up name (ih h)
          · rw [follow?_down habove] at h
            exact .down ⟨hidle.1, hidle.2, habove⟩ (ih h)

end Files

end ImportTree
