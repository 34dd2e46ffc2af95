import ImportTree.Text.Utf8

/-!
# UTF-8 read back

Every character is read back from the bytes that it is written as, whatever stands behind them. What the first byte asks
for decides the four cases, one for each number of bytes.
-/

namespace ImportTree.Text.Utf8

variable {b : UInt8} {bytes rest : List UInt8} {low high acc more n : Nat}

/-! ## Bytes -/

theorem followUp_cons (h : low ≤ b.toNat ∧ b.toNat ≤ high) : followUp low high acc (more + 1) (b :: bytes) =
    followUp 0x80 0xBF (acc * 64 + (b.toNat - 0x80)) more bytes :=
  if_pos h

theorem readAll_lead (hlead : lead? b = some (more, low, high, acc))
    (hfollow : followUp low high acc more bytes = (some n, rest)) :
    readAll (b :: bytes) = some (Char.ofNat n) :: readAll rest := by
  rw [readAll, hlead]
  simp only [hfollow, Option.map_some]

theorem lead?_one (h : b.toNat < 0x80) : lead? b = some (0, 0, 0, b.toNat) :=
  if_pos h

theorem lead?_two (h : 0xC2 ≤ b.toNat ∧ b.toNat < 0xE0) : lead? b = some (1, 0x80, 0xBF, b.toNat - 0xC0) := by
  rw [lead?, if_neg (by omega), if_neg (by omega), if_pos h.2]

theorem lead?_three (h : 0xE0 ≤ b.toNat ∧ b.toNat < 0xF0) : lead? b =
    some (2, if b.toNat = 0xE0 then 0xA0 else 0x80, if b.toNat = 0xED then 0x9F else 0xBF, b.toNat - 0xE0) := by
  rw [lead?, if_neg (by omega), if_neg (by omega), if_neg (by omega)]
  by_cases hfirst : b.toNat = 0xE0
  · simp [hfirst]
  · by_cases hlast : b.toNat = 0xED
    · simp [hlast]
    · simp [hfirst, hlast, h.2]

theorem lead?_four (h : 0xF0 ≤ b.toNat ∧ b.toNat ≤ 0xF4) : lead? b =
    some (3, if b.toNat = 0xF0 then 0x90 else 0x80, if b.toNat = 0xF4 then 0x8F else 0xBF, b.toNat - 0xF0) := by
  rw [lead?, if_neg (by omega), if_neg (by omega), if_neg (by omega), if_neg (by omega), if_neg (by omega),
    if_neg (by omega)]
  by_cases hfirst : b.toNat = 0xF0
  · simp [hfirst]
  · by_cases hlast : b.toNat = 0xF4
    · simp [hlast]
    · rw [if_neg hfirst, if_pos (by omega), if_neg hfirst, if_neg hlast]

theorem toNat_low (n : Nat) : (UInt8.ofNat (n % 0x40 + 0x80)).toNat = n % 64 + 0x80 := by
  rw [UInt8.toNat_ofNat']
  omega

theorem readAll_utf8EncodeChar (c : Char) (bytes : List UInt8) :
    readAll (String.utf8EncodeChar c ++ bytes) = some c :: readAll bytes := by
  have hvalid : c.val.toNat < 0xD800 ∨ 0xDFFF < c.val.toNat ∧ c.val.toNat < 0x110000 := c.valid
  have hc : some c = some (Char.ofNat c.val.toNat) := congrArg some (Char.ofNat_toNat c).symm
  rw [hc, String.utf8EncodeChar]
  generalize c.val.toNat = v at hvalid ⊢
  -- The number of a character says how many bytes it has, and each case gives the range of the first one.
  split
  next hv =>
    have hfirst : (UInt8.ofNat v).toNat = v := by
      rw [UInt8.toNat_ofNat']
      omega
    exact readAll_lead (lead?_one (by omega)) (by rw [hfirst]; rfl)
  next =>
    split
    next =>
      have hfirst : (UInt8.ofNat (v / 64 % 0x20 + 0xC0)).toNat = v / 64 + 0xC0 := by
        rw [UInt8.toNat_ofNat']
        omega
      simp only [List.cons_append, List.nil_append]
      refine readAll_lead (lead?_two (by omega)) ?_
      rw [followUp_cons (by rw [toNat_low]; omega), hfirst, toNat_low]
      exact Prod.ext (congrArg some (by omega)) rfl
    next =>
      split
      next =>
        have hfirst : (UInt8.ofNat (v / 4096 % 0x10 + 0xE0)).toNat = v / 4096 + 0xE0 := by
          rw [UInt8.toNat_ofNat']
          omega
        simp only [List.cons_append, List.nil_append]
        refine readAll_lead (lead?_three (by omega)) ?_
        rw [followUp_cons (by rw [toNat_low, hfirst]; constructor <;> split <;> omega),
          followUp_cons (by rw [toNat_low]; omega), hfirst, toNat_low, toNat_low]
        exact Prod.ext (congrArg some (by omega)) rfl
      next =>
        have hfirst : (UInt8.ofNat (v / 262144 % 0x08 + 0xF0)).toNat = v / 262144 + 0xF0 := by
          rw [UInt8.toNat_ofNat']
          omega
        simp only [List.cons_append, List.nil_append]
        refine readAll_lead (lead?_four (by omega)) ?_
        rw [followUp_cons (by rw [toNat_low, hfirst]; constructor <;> split <;> omega),
          followUp_cons (by rw [toNat_low]; omega), followUp_cons (by rw [toNat_low]; omega), hfirst,
          toNat_low, toNat_low, toNat_low]
        exact Prod.ext (congrArg some (by omega)) rfl

/-! ## Texts -/

theorem encodeChar_eq (c : Char) : encodeChar c = String.utf8EncodeChar c := by
  have hvalid : c.val.toNat < 0xD800 ∨ 0xDFFF < c.val.toNat ∧ c.val.toNat < 0x110000 := c.valid
  have hbyte {m n : Nat} (h : m = n) : UInt8.ofNat m = UInt8.ofNat n := congrArg _ h
  rw [encodeChar, String.utf8EncodeChar, Char.toNat]
  generalize c.val.toNat = v at hvalid ⊢
  simp only [Nat.shiftRight_eq_div_pow]
  by_cases hone : v < 0x80
  · rw [if_pos hone, if_pos (by omega : v ≤ 0x7F)]
  · rw [if_neg hone, if_neg (by omega : ¬v ≤ 0x7F)]
    by_cases htwo : v < 0x800
    · rw [if_pos htwo, if_pos (by omega : v ≤ 0x7FF), hbyte (by omega : 0xC0 + v / 64 = v / 64 % 0x20 + 0xC0),
        hbyte (by omega : 0x80 + v / 2 ^ 0 % 64 = v % 0x40 + 0x80)]
    · rw [if_neg htwo, if_neg (by omega : ¬v ≤ 0x7FF)]
      by_cases hthree : v < 0x10000
      · rw [if_pos hthree, if_pos (by omega : v ≤ 0xFFFF), hbyte (by omega : 0xE0 + v / 4096 = v / 4096 % 0x10 + 0xE0),
          hbyte (by omega : 0x80 + v / 2 ^ 6 % 64 = v / 64 % 0x40 + 0x80),
          hbyte (by omega : 0x80 + v / 2 ^ 0 % 64 = v % 0x40 + 0x80)]
      · rw [if_neg hthree, if_neg (by omega : ¬v ≤ 0xFFFF),
          hbyte (by omega : 0xF0 + v / 262144 = v / 262144 % 0x08 + 0xF0),
          hbyte (by omega : 0x80 + v / 2 ^ 12 % 64 = v / 4096 % 0x40 + 0x80),
          hbyte (by omega : 0x80 + v / 2 ^ 6 % 64 = v / 64 % 0x40 + 0x80),
          hbyte (by omega : 0x80 + v / 2 ^ 0 % 64 = v % 0x40 + 0x80)]

theorem readAll_encode (cs : List Char) : readAll (encode cs) = cs.map some := by
  induction cs with
  | nil => simp [encode, readAll]
  | cons c cs ih =>
      rw [encode, List.flatMap_cons, encodeChar_eq, readAll_utf8EncodeChar]
      exact congrArg _ ih

/-- A text is read back from its bytes. -/
theorem decode?_encode (cs : List Char) : decode? (encode cs) = some cs := by
  rw [decode?, readAll_encode]
  induction cs with
  | nil => rfl
  | cons c cs ih => simp [ih]

/-- No character of a text is replaced. -/
theorem decodeLossy_encode (cs : List Char) : decodeLossy (encode cs) = cs := by
  rw [decodeLossy, readAll_encode, List.map_map]
  exact List.map_id _

end ImportTree.Text.Utf8
