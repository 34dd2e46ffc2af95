import ImportTree.Text.Utf8

/-!
# Byte order marks

Bytes that begin with a byte order mark are read in the encoding that it names, and the mark is
dropped. All others are read as UTF-8. A replacement character stands for what is no character.
-/
namespace ImportTree.Text

/-! ## UTF-16 -/

/-- The sixteen-bit units of bytes, the high byte first or last; nothing stands for a single last byte. -/
def units16 (highFirst : Bool) : List UInt8 → List (Option Nat)
  | a :: b :: bytes =>
    some (if highFirst then a.toNat * 256 + b.toNat else b.toNat * 256 + a.toNat) :: units16 highFirst bytes
  | [_] => [none]
  | [] => []

/-- Whether a unit is the first half of a character. -/
def isHighHalf (u : Nat) : Bool :=
  0xD800 ≤ u && u < 0xDC00

/-- Whether a unit is the second half of a character. -/
def isLowHalf (u : Nat) : Bool :=
  0xDC00 ≤ u && u < 0xE000

def ofUnits16 : List (Option Nat) → List Char
  | some u :: some v :: units =>
    if isHighHalf u ∧ isLowHalf v then
      Char.ofNat (0x10000 + (u - 0xD800) * 0x400 + (v - 0xDC00)) :: ofUnits16 units
    else (if isHighHalf u ∨ isLowHalf u then '\uFFFD' else Char.ofNat u) :: ofUnits16 (some v :: units)
  | some u :: units => (if isHighHalf u ∨ isLowHalf u then '\uFFFD' else Char.ofNat u) :: ofUnits16 units
  | none :: units => '\uFFFD' :: ofUnits16 units
  | [] => []

/-! ## Marks -/

/-- The text of bytes, in the encoding that their byte order mark names. -/
def decodeMarked : List UInt8 → List Char
  | 0xEF :: 0xBB :: 0xBF :: bytes => Utf8.decodeLossy bytes
  | 0xFF :: 0xFE :: bytes => ofUnits16 (units16 false bytes)
  | 0xFE :: 0xFF :: bytes => ofUnits16 (units16 true bytes)
  | bytes => Utf8.decodeLossy bytes

end ImportTree.Text
