import ImportTree.Proofs.Script.Balance

/-!
# Well-formed scripts

A well-formed script is written item by item: blanks, brackets, comments, literals, slashes that divide, and runs of
other characters. What is left of it when its comments are blanked is said here of the items themselves.
-/

namespace ImportTree.Script

/-! ## Literals -/

/-- What stands in a literal: a backslash escapes the character behind it, all other characters are plain ones. -/
inductive Escaped (plain : Char → Prop) : List Char → Prop where
  | nil : Escaped plain []
  | plain {c : Char} {cs : List Char} : c ≠ '\\' → plain c → Escaped plain cs → Escaped plain (c :: cs)
  | escape {c : Char} {cs : List Char} : Escaped plain cs → Escaped plain ('\\' :: c :: cs)

/-- What stands in a regular expression: a slash is escaped, or it is in a character class. -/
inductive RegexBody : List Char → Prop where
  | nil : RegexBody []
  | plain {c : Char} {cs : List Char} : c ∉ ['\\', '/', '['] → RegexBody cs → RegexBody (c :: cs)
  | escape {c : Char} {cs : List Char} : RegexBody cs → RegexBody ('\\' :: c :: cs)
  | charClass {inner cs : List Char} : Escaped (· ≠ ']') inner → RegexBody cs →
      RegexBody ('[' :: (inner ++ ']' :: cs))

/-! ## Items -/

inductive Item where
  | blanks (run : List Char) (h : ∀ c ∈ run, Text.isAsciiBlank c = true)
  | opening (bracket : Bracket)
  | closing (bracket : Bracket)
  | lineComment (body : List Char) (h : '\n' ∉ body)
  | blockComment (body : List Char) (h : ¬['*', '/'] <:+: body)
  | string (quote : Char) (body : List Char) (hquote : quote = '\'' ∨ quote = '"')
      (h : Escaped (fun c => c ≠ quote ∧ c ≠ '\n') body)
  | template (body : List Char) (h : Escaped (· ≠ '`') body)
  | regex (body flags : List Char) (filled : body ≠ []) (start : ∀ c ∈ body.head?, c ≠ '/' ∧ c ≠ '*')
      (oneLine : '\n' ∉ body) (h : RegexBody body) (hflags : ∀ c ∈ flags, c.isAlpha = true)
  /-- A slash that divides. -/
  | slash
  | others (run : List Char)
      (h : ∀ c ∈ run, Text.isAsciiBlank c = false ∧ c ∉ ['\'', '"', '`', '/', '(', ')', '[', ']', '\x7b', '\x7d'])

namespace Item

def written : Item → List Char
  | .blanks run _ => run
  | .opening bracket => [bracket.opener]
  | .closing bracket => [bracket.closer]
  | .lineComment body _ => '/' :: '/' :: body
  | .blockComment body _ => '/' :: '*' :: (body ++ ['*', '/'])
  | .string quote body _ _ => quote :: (body ++ [quote])
  | .template body _ => '`' :: (body ++ ['`'])
  | .regex body flags _ _ _ _ _ => '/' :: (body ++ '/' :: flags)
  | .slash => ['/']
  | .others run _ => run

def isComment : Item → Bool
  | .lineComment .. | .blockComment .. => true
  | _ => false

/-- What an item shows that is neither blank nor part of a comment. -/
def solid : Item → List Char
  | .blanks .. => []
  | item => if item.isComment then [] else item.written

def mark? : Item → Option Mark
  | .opening bracket => some (.opens bracket)
  | .closing bracket => some (.closes bracket)
  | _ => none

end Item

def writtenItems (items : List Item) : List Char :=
  items.flatMap Item.written

/-! ## Places -/

/-- Whether a regular expression may stand behind a character, the last one that is neither blank nor part of a comment,
or at the start of a script. -/
def RegexPlace : Option Char → Prop
  | none => True
  | some c => c ∈ ['(', ',', '=', ':', '[', '!', '&', '|', '?', '\x7b', '\x7d', ';']

/-- Whether an item may stand between the last solid character before it and the text behind it. -/
def Item.Fits (before : Option Char) (rest : List Char) : Item → Prop
  | .lineComment .. => ∀ c ∈ rest.head?, c = '\n'
  | .regex .. => RegexPlace before
  | .slash => ¬RegexPlace before ∧ ∀ c ∈ rest.head?, c ≠ '/' ∧ c ≠ '*'
  | _ => True

/-- Whether items behind a solid character all stand where they may. -/
def Placed (before : Option Char) : List Item → Prop
  | [] => True
  | item :: items => item.Fits before (writtenItems items) ∧ Placed (item.solid.getLast?.or before) items

theorem getLast?_cons_or (c : Char) (run : List Char) (before : Option Char) :
    (c :: run).getLast?.or before = run.getLast?.or (some c) := by
  cases h : run.getLast? <;> simp [List.getLast?_cons, h]

/-! ## What is left -/

/-- The bytes of a text. -/
def bytes (cs : List Char) : List UInt8 :=
  cs.flatMap String.utf8EncodeChar

/-- A space for every byte except a line feed. -/
def blankByte (b : UInt8) : UInt8 :=
  if b = 0x0A then b else 0x20

/-- The bytes of an item, with those of a comment blanked. -/
def Item.maskedBytes (item : Item) : List UInt8 :=
  if item.isComment then (bytes item.written).map blankByte else bytes item.written

end ImportTree.Script
