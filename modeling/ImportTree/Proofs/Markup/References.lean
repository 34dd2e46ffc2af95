import ImportTree.Markup.Reference
import ImportTree.Proofs.Markup.Search
import Mathlib.Data.List.Forall2
import Mathlib.Data.Nat.Digits.Defs
import Mathlib.Tactic.Ring

/-!
# References

The meaning of a reference is said here without a reader, and the reader of values follows it.
-/

namespace ImportTree

variable {base n : Nat} {cs : List Char} {c : Char}

namespace Text

/-! ## Numerals -/

/-- Whether a character is the digit of a value, in either case of letters. -/
def IsDigit (base : Nat) (c : Char) (d : Nat) : Prop :=
  d < base ∧ (c = d.digitChar ∨ c = d.digitChar.toUpper)

/-- Whether digits write a number, the highest first. -/
def Numeral (base : Nat) (cs : List Char) (n : Nat) : Prop :=
  ∃ ds, List.Forall₂ (IsDigit base) cs ds ∧ Nat.ofDigits base ds.reverse = n

theorem digit?_of_le (hbase : base ≤ 16) : digit? base c = (digit? 16 c).filter (· < base) := by
  have hlt : (fun d : Nat => decide (d < base)) = fun d => decide (d < 16) && decide (d < base) := by
    funext d
    rw [← Bool.decide_and, decide_eq_decide]
    omega
  unfold digit?
  rw [Option.filter_filter, ← hlt]

theorem toNat_of_digit? {d : Nat} (h : digit? base c = some d) : c.toNat ≤ 102 := by
  have hvalue := (Option.filter_eq_some_iff.mp h).1
  split at hvalue
  next hr => exact le_trans (show c.toNat ≤ 57 from hr.2) (by decide)
  next =>
    split at hvalue
    next hr => exact hr.2
    next =>
      split at hvalue
      next hr => exact le_trans (show c.toNat ≤ 70 from hr.2) (by decide)
      next => cases hvalue

theorem digit?_digitChar : ∀ d < 16, digit? 16 d.digitChar = some d ∧ digit? 16 d.digitChar.toUpper = some d := by
  decide

theorem digitChar_of_digit? : ∀ n ≤ 102, ∀ d ∈ digit? 16 (Char.ofNat n),
    Char.ofNat n = d.digitChar ∨ Char.ofNat n = d.digitChar.toUpper := by
  decide

theorem digit?_eq_some_iff (hbase : base ≤ 16) {d : Nat} : digit? base c = some d ↔ IsDigit base c d := by
  rw [digit?_of_le hbase, Option.filter_eq_some_iff, decide_eq_true_eq, IsDigit, and_comm]
  refine and_congr_right fun hd => ⟨fun h => ?_, ?_⟩
  · have hchar := digitChar_of_digit? c.toNat (toNat_of_digit? h) d
    rw [Char.ofNat_toNat] at hchar
    exact hchar h
  · rintro (rfl | rfl)
    · exact (digit?_digitChar d (hd.trans_le hbase)).1
    · exact (digit?_digitChar d (hd.trans_le hbase)).2

/-- Digits read after a number shift it by their places. -/
theorem digits?_eq_some_iff (hbase : base ≤ 16) {acc : Nat} : digits? base acc cs = some n ↔
    ∃ ds, List.Forall₂ (IsDigit base) cs ds ∧ acc * base ^ ds.length + Nat.ofDigits base ds.reverse = n := by
  induction cs generalizing acc with
  | nil => simp [digits?, List.forall₂_nil_left_iff]
  | cons c cs ih =>
      have hshift (d : Nat) (ds : List Nat) : acc * base ^ (d :: ds).length + Nat.ofDigits base (d :: ds).reverse =
          (acc * base + d) * base ^ ds.length + Nat.ofDigits base ds.reverse := by
        rw [List.reverse_cons, Nat.ofDigits_append, Nat.ofDigits_singleton, List.length_reverse, List.length_cons]
        ring
      rw [digits?]
      constructor
      · intro h
        split at h
        next d hd =>
          obtain ⟨ds, hds, rfl⟩ := ih.mp h
          exact ⟨d :: ds, .cons ((digit?_eq_some_iff hbase).mp hd) hds, hshift d ds⟩
        next => cases h
      · rintro ⟨_, hdigits, rfl⟩
        cases hdigits with
        | @cons _ d _ ds hd hds =>
            rw [(digit?_eq_some_iff hbase).mpr hd]
            exact ih.mpr ⟨ds, hds, (hshift d ds).symm⟩

theorem digits?_zero (hbase : base ≤ 16) : digits? base 0 cs = some n ↔ Numeral base cs n := by
  simp [digits?_eq_some_iff hbase, Numeral]

end Text

namespace Markup.Reference

/-! ## Meanings -/

/-- Whether a text writes a number as a reference does: with a digit at least, and perhaps a plus sign before it. -/
def Number (base : Nat) (cs : List Char) (n : Nat) : Prop :=
  ∃ sign digits, cs = sign ++ digits ∧ (sign = [] ∨ sign = ['+']) ∧ digits ≠ [] ∧ Text.Numeral base digits n

/-- The character that a reference names. -/
inductive Names : List Char → Char → Prop where
  | ampersand : Names "amp".toList '&'
  | less : Names "lt".toList '<'
  | greater : Names "gt".toList '>'
  | quote : Names "quot".toList '"'
  | apostrophe : Names "apos".toList '\''
  | decimal {cs : List Char} {c : Char} (h : Number 10 cs c.toNat) : Names ('#' :: cs) c
  | hexadecimal {x : Char} {cs : List Char} {c : Char} (hx : x = 'x' ∨ x = 'X') (h : Number 16 cs c.toNat) :
      Names ('#' :: x :: cs) c

theorem number?_eq_some_iff (hbase : base ≤ 16) : number? base cs = some n ↔ Number base cs n := by
  constructor
  · intro h
    unfold number? at h
    split at h
    next => cases h
    next c cs => exact ⟨['+'], c :: cs, rfl, .inr rfl, List.cons_ne_nil _ _, (Text.digits?_zero hbase).mp h⟩
    next cs hne _ => exact ⟨[], _, rfl, .inl rfl, hne, (Text.digits?_zero hbase).mp h⟩
  · rintro ⟨sign, digits, rfl, hsign, hne, hdigits⟩
    have hread := (Text.digits?_zero hbase).mpr hdigits
    obtain ⟨d, ds, rfl⟩ := List.exists_cons_of_ne_nil hne
    rcases hsign with rfl | rfl
    · -- A plus sign is no digit.
      have hd : d ≠ '+' := by
        rintro rfl
        cases hread
      rw [List.nil_append, number?]
      · exact hread
      · exact hne
      · rintro _ _ ⟨⟩
        exact hd rfl
    · exact hread

theorem scalar?_eq_some_iff : scalar? n = some c ↔ n = c.toNat := by
  unfold scalar?
  constructor
  · intro h
    split at h
    next hn =>
      cases h
      rw [Char.ofNat, dif_pos hn]
      rfl
    next => cases h
  · rintro rfl
    have hvalid : c.toNat.isValidChar := c.valid
    rw [if_pos hvalid, Char.ofNat_toNat]

theorem meaning?_eq_some_iff : meaning? cs = some c ↔ Names cs c := by
  have hnumber {base : Nat} {cs : List Char} (hbase : base ≤ 16) :
      (number? base cs).bind scalar? = some c ↔ Number base cs c.toNat := by
    simp [Option.bind_eq_some_iff, number?_eq_some_iff hbase, scalar?_eq_some_iff]
  constructor
  · intro h
    unfold meaning? at h
    split at h
    next => cases h; exact .ampersand
    next => cases h; exact .less
    next => cases h; exact .greater
    next => cases h; exact .quote
    next => cases h; exact .apostrophe
    next => exact .hexadecimal (.inl rfl) ((hnumber le_rfl).mp h)
    next => exact .hexadecimal (.inr rfl) ((hnumber le_rfl).mp h)
    next => exact .decimal ((hnumber (by decide)).mp h)
    next => cases h
  · intro h
    cases h with
    | ampersand | less | greater | quote | apostrophe => rfl
    | @decimal cs _ h =>
        have hread := (hnumber (by decide)).mpr h
        rw [meaning?]
        · exact hread
        all_goals
          rintro _ rfl
          cases hread
    | hexadecimal hx h =>
        rcases hx with rfl | rfl <;> exact (hnumber le_rfl).mpr h

/-! ## Decoding -/

theorem decode_plain (hc : c ≠ '&') (cs : List Char) : decode (c :: cs) = c :: decode cs := by
  rw [decode, if_neg hc]

theorem decode_reference {name : List Char} (hwhole : ';' ∉ name) (hc : Names name c) (cs : List Char) :
    decode ('&' :: (name ++ ';' :: cs)) = c :: decode cs := by
  have hname : ∀ d ∈ name, (d != ';') = true := fun d hd => bne_iff_ne.mpr fun h => hwhole (h ▸ hd)
  have hstop : ∀ d ∈ (';' :: cs).head?, (d != ';') = false := by simp
  have hread : read? (name ++ ';' :: cs) = some (c, cs) := by
    rw [read?, dropWhile_run hname hstop, takeWhile_run hname hstop]
    simp [meaning?_eq_some_iff.mpr hc]
  rw [decode, if_pos rfl]
  split
  next d rest h =>
    cases hread.symm.trans h
    rfl
  next h => cases hread.symm.trans h

end Markup.Reference

end ImportTree
