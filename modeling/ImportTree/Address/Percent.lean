import ImportTree.Text.Digit
import ImportTree.Text.Utf8

/-!
# Percent encoding

Characters that may not stand in a part of an address are written as their bytes, each a percent sign
and two digits.
-/
namespace ImportTree.Address.Percent

/-! ## Encoding -/

/-- The upper-case hexadecimal digit of a number below sixteen. -/
def hexDigit (n : Nat) : Char :=
  if n < 10 then Char.ofNat (48 + n) else Char.ofNat (55 + n)

def encodeByte (b : UInt8) : List Char :=
  ['%', hexDigit (b.toNat / 16), hexDigit (b.toNat % 16)]

/-- Writes the characters that `unsafeChar` picks as their encoded bytes. -/
def encode (unsafeChar : Char → Bool) (cs : List Char) : List Char :=
  cs.flatMap fun c => if unsafeChar c then (Text.Utf8.encodeChar c).flatMap encodeByte else [c]

/-! ## Character sets -/

/-- Control characters and everything outside ASCII. -/
def inControls (c : Char) : Bool :=
  c.toNat < 0x20 || 0x7F ≤ c.toNat

def inPath (c : Char) : Bool :=
  inControls c || c ∈ [' ', '"', '<', '>', '`', '#', '?', '\x7b', '\x7d']

def inUserInfo (c : Char) : Bool :=
  inPath c || c ∈ ['/', ':', ';', '=', '@', '[', '\\', ']', '^', '|']

def inQuery (c : Char) : Bool :=
  inControls c || c ∈ [' ', '"', '#', '<', '>']

/-- What is encoded in the query of a special scheme. -/
def inSpecialQuery (c : Char) : Bool :=
  inQuery c || c == '\''

/-! ## Decoding -/

/-- The bytes of a text, of which those written as a percent sign and two digits are decoded. -/
def decode : List Char → List UInt8
  | '%' :: a :: b :: cs =>
    match Text.digit? 16 a, Text.digit? 16 b with
    | some x, some y => UInt8.ofNat (x * 16 + y) :: decode cs
    | _, _ => Text.Utf8.encodeChar '%' ++ decode (a :: b :: cs)
  | c :: cs => Text.Utf8.encodeChar c ++ decode cs
  | [] => []

end ImportTree.Address.Percent
