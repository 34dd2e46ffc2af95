/-!
# JSON

Values, and the text of a value over several lines with two blanks for every level.
-/
namespace ImportTree.Report

/-- A value. -/
inductive Json where
  | text (s : String)
  | number (n : Nat)
  | array (items : List Json)
  | object (fields : List (String × Json))

namespace Json

/-! ## Texts -/

/-- The lower-case hexadecimal digit of a number below sixteen. -/
def hexDigit (n : Nat) : Char :=
  if n < 10 then Char.ofNat (48 + n) else Char.ofNat (87 + n)

/-- A character inside quotes. Only quotes, backslashes and control characters are escaped. -/
def escape (c : Char) : List Char :=
  match [('"', '"'), ('\\', '\\'), ('\n', 'n'), ('\r', 'r'), ('\t', 't'), ('\x08', 'b'), ('\x0c', 'f')].lookup c with
  | some letter => ['\\', letter]
  | none =>
    if c.toNat < 0x20 then ['\\', 'u', '0', '0', hexDigit (c.toNat / 16), hexDigit (c.toNat % 16)] else [c]

def quoted (s : String) : String :=
  "\"" ++ String.ofList (s.toList.flatMap escape) ++ "\""

/-! ## Values -/

/-- A list of parts, each on a line of its own, between brackets. -/
def block (opening closing indent : String) (parts : List String) : String :=
  if parts.isEmpty then opening ++ closing
  else
    opening ++ "\n" ++ String.intercalate ",\n" (parts.map fun part => indent ++ "  " ++ part) ++
      "\n" ++ indent ++ closing

mutual

/-- The text of a value whose lines, after the first, are indented. -/
def write (indent : String) : Json → String
  | .text s => quoted s
  | .number n => Nat.repr n
  | .array items => block "[" "]" indent (writeItems (indent ++ "  ") items)
  | .object fields => block "\x7b" "\x7d" indent (writeFields (indent ++ "  ") fields)

def writeItems (indent : String) : List Json → List String
  | [] => []
  | item :: items => write indent item :: writeItems indent items

def writeFields (indent : String) : List (String × Json) → List String
  | [] => []
  | (key, value) :: fields => (quoted key ++ ": " ++ write indent value) :: writeFields indent fields

end

def pretty (j : Json) : String :=
  write "" j

end Json

end ImportTree.Report
