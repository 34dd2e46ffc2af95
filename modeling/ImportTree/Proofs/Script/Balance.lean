import ImportTree.Script.Mask

/-!
# Balanced brackets

The brackets of a script form a word. Followed with a stack, it comes to an end with nothing open if and only if it is
balanced, and only then the script is masked.
-/

namespace ImportTree.Script

/-- A bracket at its place in a script. -/
inductive Mark where
  | opens (bracket : Bracket)
  | closes (bracket : Bracket)
deriving DecidableEq, Repr

/-- Every bracket is closed by one of its kind, with a balanced word between them and another one behind. -/
inductive Balanced : List Mark → Prop where
  | nil : Balanced []
  | nest {u w : List Mark} (b : Bracket) : Balanced u → Balanced w → Balanced (.opens b :: (u ++ .closes b :: w))

/-- Whether a word closes the given brackets in their order, with balanced words around the closing ones. -/
inductive ClosesAll : List Bracket → List Mark → Prop where
  | nil {w : List Mark} : Balanced w → ClosesAll [] w
  | cons {b : Bracket} {opened : List Bracket} {u w : List Mark} : Balanced u → ClosesAll opened w →
      ClosesAll (b :: opened) (u ++ .closes b :: w)

variable {opened : List Bracket} {w : List Mark} {b : Bracket}

/-! ## Words -/

theorem closesAll_empty : ClosesAll [] w ↔ Balanced w :=
  ⟨fun h => by cases h with | nil h => exact h, .nil⟩

theorem closesAll_nil : ClosesAll opened [] ↔ opened = [] := by
  constructor
  · intro h
    generalize hw : ([] : List Mark) = w at h
    cases h with
    | nil _ => rfl
    | cons _ _ => simp at hw
  · rintro rfl
    exact .nil .nil

theorem closesAll_opens : ClosesAll opened (.opens b :: w) ↔ ClosesAll (b :: opened) w := by
  constructor
  · intro h
    generalize hv : Mark.opens b :: w = v at h
    cases h with
    | nil h =>
        cases h with
        | nil => cases hv
        | nest _ hu hw =>
            cases hv
            exact .cons hu (.nil hw)
    | @cons b' opened u w' hu h =>
        cases hu with
        | nil => cases hv
        | @nest u₁ u₂ _ h₁ h₂ =>
            cases hv
            have hw := ClosesAll.cons (b := b) h₁ (ClosesAll.cons (b := b') h₂ h)
            simpa using hw
  · intro h
    generalize hs : b :: opened = s at h
    cases h with
    | nil _ => cases hs
    | cons hu h =>
        cases hs
        cases h with
        | nil hw => exact .nil (.nest b hu hw)
        | @cons b' opened u' w' hu' h =>
            have hw := ClosesAll.cons (b := b') (.nest b hu hu') h
            simpa using hw

theorem closesAll_closes : ClosesAll opened (.closes b :: w) ↔ ∃ outer, opened = b :: outer ∧ ClosesAll outer w := by
  constructor
  · intro h
    generalize hv : Mark.closes b :: w = v at h
    cases h with
    | nil h => cases h <;> cases hv
    | cons hu h =>
        cases hu with
        | nil =>
            cases hv
            exact ⟨_, rfl, h⟩
        | nest => cases hv
  · rintro ⟨outer, rfl, h⟩
    exact .cons .nil h

/-! ## Pieces -/

def Piece.mark? : Piece → Option Mark
  | .opening bracket => some (.opens bracket)
  | .closing bracket => some (.closes bracket)
  | _ => none

def marks (ps : List Piece) : List Mark :=
  ps.filterMap Piece.mark?

/-- Nothing is left open after pieces whose brackets close those that are open. -/
theorem balance_iff {line : Nat} {opened : OpenBrackets} {ps : List Piece} :
    (∃ last, balance line opened ps = .ok (last, [])) ↔ ClosesAll (opened.map Prod.fst) (marks ps) := by
  induction ps generalizing line opened with
  | nil =>
      cases opened with
      | nil => simp [balance, marks, closesAll_nil]
      | cons o opened => simp [balance, marks, closesAll_nil]
  | cons p ps ih =>
      cases p with
      | opening bracket =>
          have hmarks : marks (.opening bracket :: ps) = .opens bracket :: marks ps := rfl
          rw [balance, hmarks, closesAll_opens, ih]
          rfl
      | closing bracket =>
          have hmarks : marks (.closing bracket :: ps) = .closes bracket :: marks ps := rfl
          rw [hmarks, closesAll_closes]
          cases opened with
          | nil => simp [balance]
          | cons o opened =>
              obtain ⟨expected, openedOn⟩ := o
              by_cases hb : bracket = expected
              · subst hb
                simp [balance, ih]
              · simp [balance, hb, Ne.symm hb]
      | _ => exact ih

/-- A script is masked if and only if nothing in it is cut off and its brackets are balanced. -/
theorem mask_eq_ok_iff {text : String} {masked : List Char} : mask text = .ok masked ↔
    (Piece.readAll none text.toList).2 = none ∧ Balanced (marks (Piece.readAll none text.toList).1) ∧
      masked = (Piece.readAll none text.toList).1.flatMap Piece.masked := by
  rw [mask, pieces?]
  obtain ⟨ps, cut?⟩ := Piece.readAll none text.toList
  rw [← closesAll_empty]
  have hbalance : (∃ last, balance 1 [] ps = .ok (last, [])) ↔ ClosesAll [] (marks ps) := balance_iff
  rw [← hbalance]
  cases hb : balance 1 [] ps with
  | error fault => simp [hb]
  | ok state =>
      obtain ⟨line, opened⟩ := state
      cases cut? with
      | some cut => simp [hb]
      | none => cases opened <;> simp [hb, eq_comm]

end ImportTree.Script
