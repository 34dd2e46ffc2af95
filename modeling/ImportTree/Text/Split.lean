/-!
# Splitting and joining

A text is split at every separator, and joined again with it.
-/
namespace ImportTree.Text

/-- The parts of a text between the separators; there is always one more part than separators. -/
def splitOn {α : Type} (separator : α → Bool) : List α → List (List α)
  | [] => [[]]
  | c :: cs =>
    match splitOn separator cs with
    | [] => [[c]]
    | part :: parts => if separator c then [] :: part :: parts else (c :: part) :: parts

/-- The parts with a separator between any two of them. -/
def joinWith (separator : Char) : List (List Char) → List Char
  | [] => []
  | [part] => part
  | part :: parts => part ++ separator :: joinWith separator parts

theorem splitOn_ne_nil {α : Type} (separator : α → Bool) (cs : List α) : splitOn separator cs ≠ [] := by
  cases cs with
  | nil => simp [splitOn]
  | cons c cs =>
    simp only [splitOn]
    split
    · simp
    · split <;> simp

theorem joinWith_splitOn (separator : Char) (cs : List Char) :
    joinWith separator (splitOn (· == separator) cs) = cs := by
  induction cs with
  | nil => rfl
  | cons c cs ih =>
    cases hs : splitOn (· == separator) cs with
    | nil => exact absurd hs (splitOn_ne_nil _ _)
    | cons part parts =>
      simp only [splitOn, hs]
      rw [hs] at ih
      split
      · rename_i hc
        simp_all [joinWith]
      · cases parts <;> simp_all [joinWith]

/-- The part of a text up to and with its last separator. -/
def throughLast (separator : Char) (cs : List Char) : List Char :=
  (cs.reverse.dropWhile (· != separator)).reverse

end ImportTree.Text
