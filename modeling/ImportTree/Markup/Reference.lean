import ImportTree.Text.Digit

/-!
# Character references

Five named references and the numeric ones stand for a character in attribute values.
Every other ampersand stands for itself, and what a reference stands for is not read again.
-/
namespace ImportTree.Markup.Reference

/-! ## Numbers -/

/-- Reads a number of at least one digit; a plus sign may stand before it. -/
def number? (base : Nat) : List Char → Option Nat
  | [] => none
  | '+' :: c :: cs => Text.digits? base 0 (c :: cs)
  | cs => Text.digits? base 0 cs

/-- The character with this number, if there is one. -/
def scalar? (n : Nat) : Option Char :=
  if n.isValidChar then some (Char.ofNat n) else none

/-! ## References -/

/-- The character that the text between an ampersand and a semicolon names. -/
def meaning? : List Char → Option Char
  | ['a', 'm', 'p'] => some '&'
  | ['l', 't'] => some '<'
  | ['g', 't'] => some '>'
  | ['q', 'u', 'o', 't'] => some '"'
  | ['a', 'p', 'o', 's'] => some '\''
  | '#' :: 'x' :: cs => (number? 16 cs).bind scalar?
  | '#' :: 'X' :: cs => (number? 16 cs).bind scalar?
  | '#' :: cs => (number? 10 cs).bind scalar?
  | _ => none

/-- Reads the reference whose ampersand has just been passed, with the text after its semicolon. -/
def read? (cs : List Char) : Option (Char × List Char) :=
  match cs.dropWhile (· != ';') with
  | [] => none
  | _ :: rest =>
    match meaning? (cs.takeWhile (· != ';')) with
    | some c => some (c, rest)
    | none => none

theorem read?_length {cs rest : List Char} {c : Char} (h : read? cs = some (c, rest)) :
    rest.length < cs.length := by
  have hl : (cs.dropWhile (· != ';')).length ≤ cs.length := (List.dropWhile_sublist _).length_le
  simp only [read?] at h
  split at h
  · simp at h
  · rename_i heq
    rw [heq, List.length_cons] at hl
    split at h
    · simp only [Option.some.injEq, Prod.mk.injEq] at h
      rw [← h.2]
      omega
    · simp at h

/-- Replaces every reference by its character, from left to right in one pass. -/
def decode : List Char → List Char
  | [] => []
  | c :: cs =>
    if c = '&' then
      match _h : read? cs with
      | some (d, rest) => d :: decode rest
      | none => c :: decode cs
    else c :: decode cs
termination_by cs => cs.length
decreasing_by
  · exact Nat.lt_succ_of_lt (read?_length _h)
  · exact Nat.lt_succ_self _
  · exact Nat.lt_succ_self _

end ImportTree.Markup.Reference
