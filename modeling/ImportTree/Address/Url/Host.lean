import ImportTree.Address.Percent
import ImportTree.Text.Ascii
import ImportTree.Text.Split

/-!
# Hosts

A host is a name, possibly empty, or an address of four or of sixteen bytes. Names are restricted to
ASCII.
-/
namespace ImportTree.Address.Url

/-- The host of an address. -/
inductive Host where
  | name (text : List Char)
  | v4 (number : Nat)
  /-- The eight pieces of sixteen bits. -/
  | v6 (pieces : List Nat)
deriving DecidableEq, Repr

namespace Host

/-! ## Addresses of four bytes -/

/-- Reads a part of an address of four bytes, in base eight, ten or sixteen by its first digits. -/
def part? : List Char → Option Nat
  | [] => none
  | '0' :: 'x' :: cs => Text.digits? 16 0 cs
  | '0' :: 'X' :: cs => Text.digits? 16 0 cs
  | '0' :: c :: cs => Text.digits? 8 0 (c :: cs)
  | cs => Text.digits? 10 0 cs

/-- The parts of a dotted name; an empty part at the end does not count. -/
def dottedParts (cs : List Char) : List (List Char) :=
  let parts := Text.splitOn (· == '.') cs
  if 2 ≤ parts.length ∧ parts.getLast? = some [] then parts.dropLast else parts

/-- Whether a name is to be read as an address of four bytes: its last part is a number. -/
def endsInNumber (cs : List Char) : Bool :=
  match (dottedParts cs).getLast? with
  | some last => (!last.isEmpty && last.all Char.isDigit) || (part? last).isSome
  | none => false

/-- Adds the bytes in front to the number that the last part of an address gives. -/
def addBytes (acc : Nat) : Nat → List Nat → Nat
  | _, [] => acc
  | weight, b :: bytes => addBytes (acc + b * weight) (weight / 256) bytes

/-- Reads an address of four bytes; its last part stands for all bytes not written. -/
def v4? (cs : List Char) : Option Nat :=
  let parts := dottedParts cs
  if 4 < parts.length then none
  else
    match parts.mapM part? with
    | none => none
    | some numbers =>
      match numbers.getLast? with
      | none => none
      | some last =>
        let front := numbers.dropLast
        if 1 <<< (8 * (4 - front.length)) ≤ last ∨ front.any (255 < ·) then none
        else some (addBytes last 16777216 front)

/-! ## Addresses of sixteen bytes -/

/-- Reads at most `n` hexadecimal digits: their value, whether there are any, and the rest. -/
def hexDigits : Nat → Nat → Bool → List Char → Nat × Bool × List Char
  | n + 1, acc, any, c :: cs =>
    match Text.digit? 16 c with
    | some d => hexDigits n (acc * 16 + d) true cs
    | none => (acc, any, c :: cs)
  | _, acc, any, cs => (acc, any, cs)

theorem hexDigits_length (n acc : Nat) (any : Bool) (cs : List Char) :
    (hexDigits n acc any cs).2.2.length ≤ cs.length := by
  induction n generalizing acc any cs with
  | zero => cases cs <;> simp [hexDigits]
  | succ n ih =>
    cases cs with
    | nil => simp [hexDigits]
    | cons c cs =>
      simp only [hexDigits]
      split
      · exact Nat.le_succ_of_le (ih ..)
      · exact Nat.le_refl _

/-- A byte in base ten without leading zeros. -/
def decimalByte? (cs : List Char) : Option Nat :=
  if 1 < cs.length ∧ cs.head? = some '0' then none
  else if cs.isEmpty then none
  else (Text.digits? 10 0 cs).filter (· ≤ 255)

/-- Reads the two pieces that an address of four bytes at the end stands for. -/
def embeddedV4? (cs : List Char) : Option (Nat × Nat) :=
  match (Text.splitOn (· == '.') cs).mapM decimalByte? with
  | some [a, b, c, d] => some (a * 256 + b, c * 256 + d)
  | _ => none

/-- Reads pieces up to the end; `gap?` is the place of the double colon among the pieces before. -/
def pieces? (before : List Nat) (gap? : Option Nat) (cs : List Char) : Option (List Nat × Option Nat) :=
  match cs with
  | [] => some (before, gap?)
  | c :: cs =>
    if before.length = 8 then none
    else if c = ':' then
      if gap?.isSome then none else pieces? (before ++ [0]) (some (before.length + 1)) cs
    else
      match _h : hexDigits 4 0 false (c :: cs) with
      | (value, true, []) => some (before ++ [value], gap?)
      | (value, true, ':' :: d :: rest) => pieces? (before ++ [value]) gap? (d :: rest)
      | (_, true, '.' :: _) =>
        if 6 < before.length then none
        else (embeddedV4? (c :: cs)).map fun (a, b) => (before ++ [a, b], gap?)
      | _ => none
termination_by cs.length
decreasing_by
  · exact Nat.lt_succ_self _
  · have hl := hexDigits_length 4 0 false (c :: cs)
    rw [_h] at hl
    exact Nat.lt_of_succ_le hl

/-- Reads an address of sixteen bytes; a double colon stands for the zeros not written. -/
def v6? (cs : List Char) : Option (List Nat) :=
  let read? := match cs with
    | ':' :: ':' :: rest => pieces? [0] (some 1) rest
    | [] => none
    | [_] => none
    | ':' :: _ => none
    | _ => pieces? [] none cs
  match read? with
  | some (pieces, some gap) =>
    some (pieces.take gap ++ List.replicate (8 - pieces.length) 0 ++ pieces.drop gap)
  | some (pieces, none) => if pieces.length = 8 then some pieces else none
  | none => none

/-! ## Reading -/

/-- Characters that no name of a special scheme may hold. -/
def forbiddenInDomain (c : Char) : Bool :=
  c.toNat ≤ 0x20 || 0x7F ≤ c.toNat || c ∈ ['%', '#', '/', ':', '<', '>', '?', '@', '[', '\\', ']', '^', '|']

/-- Characters that no name of any other scheme may hold. -/
def forbiddenInName (c : Char) : Bool :=
  c ∈ ['\x00', '\t', '\n', '\r', ' ', '#', '/', ':', '<', '>', '?', '@', '[', '\\', ']', '^', '|']

/-- Reads an address of sixteen bytes in its square brackets. -/
def bracketed? (cs : List Char) : Option Host :=
  if cs.getLast? = some ']' then (v6? cs.tail.dropLast).map .v6 else none

/-- Reads the host of an address with a special scheme. -/
def special? (cs : List Char) : Option Host :=
  if cs.head? = some '[' then bracketed? cs
  else
    let domain := Text.lower (Text.Utf8.decodeLossy (Percent.decode cs))
    if domain.isEmpty ∨ domain.any forbiddenInDomain then none
    else if endsInNumber domain then (v4? domain).map .v4
    else some (.name domain)

/-- Reads the host of an address with any other scheme. -/
def general? (cs : List Char) : Option Host :=
  if cs.head? = some '[' then bracketed? cs
  else if cs.any forbiddenInName then none
  else some (.name (Percent.encode Percent.inControls cs))

/-! ## Writing -/

def decimal (n : Nat) : List Char :=
  (toString n).toList

def hexadecimal (n : Nat) : List Char :=
  Nat.toDigits 16 n

def leadingZeros (pieces : List Nat) : Nat :=
  (pieces.takeWhile (· == 0)).length

/-- Start and length of the first of the longest runs of zeros. -/
def longestZeros (start : Nat) : List Nat → Nat × Nat
  | [] => (start, 0)
  | p :: pieces =>
    let here := leadingZeros (p :: pieces)
    let later := longestZeros (start + 1) pieces
    if later.2 ≤ here then (start, here) else later

/-- An address of sixteen bytes, in which a double colon replaces the longest run of zeros. -/
def v6Text (pieces : List Nat) : List Char :=
  let written := fun (ps : List Nat) => Text.joinWith ':' (ps.map hexadecimal)
  match longestZeros 0 pieces with
  | (start, length) =>
    if length < 2 then written pieces
    else written (pieces.take start) ++ ':' :: ':' :: written (pieces.drop (start + length))

def v4Text (n : Nat) : List Char :=
  Text.joinWith '.' ([n / 16777216, n / 65536 % 256, n / 256 % 256, n % 256].map decimal)

def text : Host → List Char
  | .name text => text
  | .v4 number => v4Text number
  | .v6 pieces => '[' :: (v6Text pieces ++ [']'])

end Host

end ImportTree.Address.Url
