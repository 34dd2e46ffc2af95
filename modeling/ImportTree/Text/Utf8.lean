/-!
# UTF-8

Characters as bytes. Reading bytes back either refuses what is no UTF-8, or puts a replacement
character for each longest beginning of a character that is not continued.
-/
namespace ImportTree.Text.Utf8

/-! ## Writing -/

def encodeChar (c : Char) : List UInt8 :=
  let n := c.toNat
  let tail := fun shift => UInt8.ofNat (0x80 + (n >>> shift) % 64)
  if n < 0x80 then [UInt8.ofNat n]
  else if n < 0x800 then [UInt8.ofNat (0xC0 + n / 64), tail 0]
  else if n < 0x10000 then [UInt8.ofNat (0xE0 + n / 4096), tail 6, tail 0]
  else [UInt8.ofNat (0xF0 + n / 262144), tail 12, tail 6, tail 0]

def encode (cs : List Char) : List UInt8 :=
  cs.flatMap encodeChar

/-! ## Reading -/

/-- What a first byte asks for: how many bytes follow it, the range of the next one, and the bits
that the first byte brings. -/
def lead? (b : UInt8) : Option (Nat × Nat × Nat × Nat) :=
  let n := b.toNat
  if n < 0x80 then some (0, 0, 0, n)
  else if n < 0xC2 then none
  else if n < 0xE0 then some (1, 0x80, 0xBF, n - 0xC0)
  else if n = 0xE0 then some (2, 0xA0, 0xBF, 0)
  else if n = 0xED then some (2, 0x80, 0x9F, 0xD)
  else if n < 0xF0 then some (2, 0x80, 0xBF, n - 0xE0)
  else if n = 0xF0 then some (3, 0x90, 0xBF, 0)
  else if n < 0xF4 then some (3, 0x80, 0xBF, n - 0xF0)
  else if n = 0xF4 then some (3, 0x80, 0x8F, 4)
  else none

/-- Reads the bytes that continue a character: its number, or nothing where they are missing, and
the bytes not used. -/
def followUp (low high acc : Nat) : Nat → List UInt8 → Option Nat × List UInt8
  | 0, bytes => (some acc, bytes)
  | _ + 1, [] => (none, [])
  | more + 1, b :: bytes =>
    if low ≤ b.toNat ∧ b.toNat ≤ high then followUp 0x80 0xBF (acc * 64 + (b.toNat - 0x80)) more bytes
    else (none, b :: bytes)

theorem followUp_length (low high acc more : Nat) (bytes : List UInt8) :
    (followUp low high acc more bytes).2.length ≤ bytes.length := by
  induction more generalizing low high acc bytes with
  | zero => simp [followUp]
  | succ more ih =>
    cases bytes with
    | nil => simp [followUp]
    | cons b bytes =>
      simp only [followUp]
      split
      · exact Nat.le_succ_of_le (ih ..)
      · exact Nat.le_refl _

/-- Reads bytes character by character; nothing stands for bytes that are no character. -/
def readAll : List UInt8 → List (Option Char)
  | [] => []
  | b :: bytes =>
    match lead? b with
    | some (more, low, high, acc) =>
      (followUp low high acc more bytes).1.map Char.ofNat :: readAll (followUp low high acc more bytes).2
    | none => none :: readAll bytes
termination_by bytes => bytes.length
decreasing_by
  · exact Nat.lt_succ_of_le (followUp_length ..)
  · exact Nat.lt_succ_self _

def decode? (bytes : List UInt8) : Option (List Char) :=
  (readAll bytes).mapM id

/-- The text of bytes, with replacement characters for what is no UTF-8. -/
def decodeLossy (bytes : List UInt8) : List Char :=
  (readAll bytes).map (·.getD '\uFFFD')

end ImportTree.Text.Utf8
