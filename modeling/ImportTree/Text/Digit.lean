/-!
# Digits

Numbers written with digits of a base of at most sixteen.
-/
namespace ImportTree.Text

/-- The value of a digit in a base of at most sixteen. -/
def digit? (base : Nat) (c : Char) : Option Nat :=
  let n := c.toNat
  let value? :=
    if '0' ≤ c ∧ c ≤ '9' then some (n - 48)
    else if 'a' ≤ c ∧ c ≤ 'f' then some (n - 87)
    else if 'A' ≤ c ∧ c ≤ 'F' then some (n - 55)
    else none
  value?.filter (· < base)

def digits? (base : Nat) : Nat → List Char → Option Nat
  | acc, [] => some acc
  | acc, c :: cs =>
    match digit? base c with
    | some d => digits? base (acc * base + d) cs
    | none => none

end ImportTree.Text
