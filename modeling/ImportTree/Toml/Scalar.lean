import ImportTree.Text.Ascii
import ImportTree.Text.Digit
import ImportTree.Text.Split
import ImportTree.Toml.Value

/-!
# Unquoted values of TOML

Booleans, numbers, and moments in time.
-/
namespace ImportTree.Toml

/-! ## Numbers -/

/-- A number whose digits may be grouped by single underscores. -/
def grouped? (base : Nat) (cs : List Char) : Option Nat :=
  let groups := Text.splitOn (· == '_') cs
  if groups.all (!·.isEmpty) then Text.digits? base 0 groups.flatten else none

/-- A whole number in base ten without needless zeros at the front. -/
def whole? (cs : List Char) : Option Nat :=
  if cs.head? = some '0' ∧ cs ≠ ['0'] then none else grouped? 10 cs

/-- Cuts a sign off a number; it tells whether the number is negative. -/
def cutSign : List Char → Bool × List Char
  | '-' :: cs => (true, cs)
  | '+' :: cs => (false, cs)
  | cs => (false, cs)

/-- A whole number, in base ten with a sign or in one of three other bases. -/
def integer? : List Char → Option Int
  | '0' :: 'x' :: cs => (grouped? 16 cs).map Int.ofNat
  | '0' :: 'o' :: cs => (grouped? 8 cs).map Int.ofNat
  | '0' :: 'b' :: cs => (grouped? 2 cs).map Int.ofNat
  | cs => (whole? (cutSign cs).2).map fun n => if (cutSign cs).1 then -Int.ofNat n else Int.ofNat n

/-- Whether a text is a number with a point or an exponent, or one that is not finite. -/
def isDecimal (cs : List Char) : Bool :=
  let body := (cutSign cs).2
  let isExponent := fun (c : Char) => c == 'e' || c == 'E'
  let isGroup := fun cs => (grouped? 10 cs).isSome
  match Text.splitOn isExponent body with
  | [mantissa] =>
    body == "inf".toList || body == "nan".toList ||
      (match Text.splitOn (· == '.') mantissa with
      | [whole, fraction] => (whole? whole).isSome && isGroup fraction
      | _ => false)
  | [mantissa, exponent] =>
    isGroup (cutSign exponent).2 &&
      (match Text.splitOn (· == '.') mantissa with
      | [whole] => (whole? whole).isSome
      | [whole, fraction] => (whole? whole).isSome && isGroup fraction
      | _ => false)
  | _ => false

/-! ## Moments -/

/-- A number of exactly so many digits. -/
def fixed? (count : Nat) (cs : List Char) : Option Nat :=
  if cs.length = count then Text.digits? 10 0 cs else none

def daysOf (year month : Nat) : Nat :=
  if month = 2 then if year % 4 = 0 ∧ (year % 100 ≠ 0 ∨ year % 400 = 0) then 29 else 28
  else if month ∈ [4, 6, 9, 11] then 30
  else 31

def isDate (cs : List Char) : Bool :=
  match Text.splitOn (· == '-') cs with
  | [year, month, day] =>
    match fixed? 4 year, fixed? 2 month, fixed? 2 day with
    | some year, some month, some day =>
      decide (1 ≤ month ∧ month ≤ 12 ∧ 1 ≤ day ∧ day ≤ daysOf year month)
    | _, _, _ => false
  | _ => false

/-- Whether a text is a number of two digits up to a limit. -/
def isTwoDigits (limit : Nat) (cs : List Char) : Bool :=
  (fixed? 2 cs).any (· ≤ limit)

/-- Whether a text is seconds, perhaps with a fraction. -/
def isSeconds (cs : List Char) : Bool :=
  match Text.splitOn (· == '.') cs with
  | [seconds] => isTwoDigits 60 seconds
  | [seconds, fraction] => isTwoDigits 60 seconds && !fraction.isEmpty && fraction.all Char.isDigit
  | _ => false

def isTime (cs : List Char) : Bool :=
  match Text.splitOn (· == ':') cs with
  | [hour, minute] => isTwoDigits 23 hour && isTwoDigits 59 minute
  | [hour, minute, seconds] => isTwoDigits 23 hour && isTwoDigits 59 minute && isSeconds seconds
  | _ => false

/-- Whether a text is a time of the day, perhaps with its distance from universal time. -/
def isZonedTime (cs : List Char) : Bool :=
  let isSign := fun (c : Char) => c == '+' || c == '-'
  match Text.splitOn isSign cs with
  | [time] => isTime time || (time.getLast?.any (fun c => c == 'Z' || c == 'z') && isTime time.dropLast)
  | [time, offset] =>
    isTime time &&
      (match Text.splitOn (· == ':') offset with
      | [hour, minute] => isTwoDigits 23 hour && isTwoDigits 59 minute
      | _ => false)
  | _ => false

def isMoment (cs : List Char) : Bool :=
  isTime cs || isDate cs ||
    (isDate (cs.take 10) && (cs[10]?).any (fun c => c == 'T' || c == 't' || c == ' ') && isZonedTime (cs.drop 11))

/-! ## Reading -/

/-- The value that is written without quotes. -/
def scalar? (cs : List Char) : Option Value :=
  if cs = "true".toList then some (.boolean true)
  else if cs = "false".toList then some (.boolean false)
  else
    match integer? cs with
    | some n => some (.integer n)
    | none =>
      if isDecimal cs then some (.decimal (String.ofList cs))
      else if isMoment cs then some (.moment (String.ofList cs))
      else none

/-- Whether a character can belong to an unquoted value. -/
def inScalar (c : Char) : Bool :=
  c.isAlphanum || c ∈ ['_', '+', '-', '.', ':']

/-- The unquoted value at the front of a text. A single space may stand between date and time. -/
def scalarText (cs : List Char) : List Char :=
  let first := cs.takeWhile inScalar
  match cs.drop first.length with
  | ' ' :: c :: rest => if isDate first ∧ c.isDigit then first ++ ' ' :: (c :: rest).takeWhile inScalar else first
  | _ => first

/-- Reads the unquoted value at the front of a text. -/
def readScalar? (cs : List Char) : Option (Value × List Char) :=
  (scalar? (scalarText cs)).map fun value => (value, cs.drop (scalarText cs).length)

end ImportTree.Toml
