import ImportTree.Text.Digit

/-!
# Quoted texts of TOML

A text stands between single or double quotes, and over several lines between three of them. In double
quotes a backslash begins an escape.
-/
namespace ImportTree.Toml

/-! ## Ends -/

/-- Cuts a text at the first quote that is not escaped. -/
def cutAtQuote (quote : Char) (escapes : Bool) : List Char → Option (List Char × List Char)
  | [] => none
  | c :: cs =>
    if c = quote then some ([], cs)
    else if escapes ∧ c = '\\' then
      match cs with
      | [] => none
      | d :: cs =>
        match cutAtQuote quote escapes cs with
        | some (inner, rest) => some (c :: d :: inner, rest)
        | none => none
    else
      match cutAtQuote quote escapes cs with
      | some (inner, rest) => some (c :: inner, rest)
      | none => none

/-- Cuts a text at the first three quotes that are not escaped. Up to two quotes before them belong to
the text. -/
def cutAtQuotes (quote : Char) (escapes : Bool) : List Char → Option (List Char × List Char)
  | [] => none
  | c :: cs =>
    if [quote, quote, quote].isPrefixOf (c :: cs) then
      let extra := min 2 ((cs.drop 2).takeWhile (· == quote)).length
      some (List.replicate extra quote, cs.drop (2 + extra))
    else if escapes ∧ c = '\\' then
      match cs with
      | [] => none
      | d :: cs =>
        match cutAtQuotes quote escapes cs with
        | some (inner, rest) => some (c :: d :: inner, rest)
        | none => none
    else
      match cutAtQuotes quote escapes cs with
      | some (inner, rest) => some (c :: inner, rest)
      | none => none

/-! ## Contents -/

/-- Whether a character may stand for itself: no control character other than a tab. -/
def isPlain (c : Char) : Bool :=
  c == '\t' || (' ' ≤ c && c != '\x7f')

def isBlank (c : Char) : Bool :=
  c == ' ' || c == '\t'

/-- The character that a single letter after a backslash stands for. -/
def escaped? (c : Char) : Option Char :=
  [('b', '\x08'), ('t', '\t'), ('n', '\n'), ('f', '\x0c'), ('r', '\r'), ('e', '\x1b'), ('"', '"'),
    ('\\', '\\')].lookup c

/-- The number of digits that follow a letter after a backslash. -/
def escapeDigits? (c : Char) : Option Nat :=
  [('x', 2), ('u', 4), ('U', 8)].lookup c

/-- The character with a number of so many hexadecimal digits. -/
def numbered? (count : Nat) (digits : List Char) : Option Char :=
  if digits.length = count then
    match Text.digits? 16 0 digits with
    | some n => if n.isValidChar then some (Char.ofNat n) else none
    | none => none
  else none

def cutLineEnd? : List Char → Option (List Char)
  | '\n' :: cs => some cs
  | '\r' :: '\n' :: cs => some cs
  | _ => none

/-- Whether a character is a blank or belongs to a line end. -/
def isGap (c : Char) : Bool :=
  isBlank c || c == '\n' || c == '\r'

/-- Reads what stands between quotes. A backslash at the end of a line drops it with all blanks and
line ends that follow. -/
def unquote (escapes lines : Bool) : List Char → Option (List Char)
  | [] => some []
  | c :: cs =>
    if escapes ∧ c = '\\' then
      match cs with
      | [] => none
      | d :: cs =>
        match escaped? d, escapeDigits? d with
        | some e, _ => (unquote escapes lines cs).map (e :: ·)
        | none, some count =>
          match numbered? count (cs.take count) with
          | some e => (unquote escapes lines (cs.drop count)).map (e :: ·)
          | none => none
        | none, none =>
          if lines ∧ (cutLineEnd? ((d :: cs).dropWhile isBlank)).isSome then
            unquote escapes lines (cs.dropWhile isGap)
          else none
    else if lines ∧ c = '\n' then (unquote escapes lines cs).map ('\n' :: ·)
    else if lines ∧ c = '\r' then
      match cs with
      | '\n' :: cs => (unquote escapes lines cs).map ('\n' :: ·)
      | _ => none
    else if isPlain c then (unquote escapes lines cs).map (c :: ·)
    else none
termination_by cs => cs.length
decreasing_by
  all_goals simp_wf
  all_goals try omega
  have h := (List.dropWhile_sublist isGap (l := cs)).length_le
  omega

/-! ## Reading -/

def readQuoted? (quote : Char) (cs : List Char) : Option (String × List Char) :=
  match cutAtQuote quote (quote == '"') cs with
  | some (inner, rest) => (unquote (quote == '"') false inner).map fun text => (String.ofList text, rest)
  | none => none

/-- Reads a text of several lines after its opening quotes; a line end there does not belong to it. -/
def readLines? (quote : Char) (cs : List Char) : Option (String × List Char) :=
  match cutAtQuotes quote (quote == '"') ((cutLineEnd? cs).getD cs) with
  | some (inner, rest) => (unquote (quote == '"') true inner).map fun text => (String.ofList text, rest)
  | none => none

end ImportTree.Toml
