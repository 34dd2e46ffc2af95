import ImportTree.Proofs.Script.Written
import ImportTree.Script.Declarations

/-!
# Scripts with registration calls

A script is written call by call, with comments and other code between the calls and inside them. What it declares is
said here of the calls themselves.
-/

namespace ImportTree.Script

/-! ## Code with comments -/

/-- A stretch of a script, which is code or a single comment. -/
inductive Stretch where
  | code (cs : List Char)
  | lineComment (body : List Char)
  | blockComment (body : List Char)

namespace Stretch

def written : Stretch → List Char
  | .code cs => cs
  | .lineComment body => '/' :: '/' :: body
  | .blockComment body => '/' :: '*' :: (body ++ ['*', '/'])

/-- The text of a stretch, with that of a comment blanked. -/
def masked : Stretch → List Char
  | .code cs => cs
  | s => s.written.flatMap blankOut

end Stretch

abbrev Layout := List Stretch

namespace Layout

def written (l : Layout) : List Char :=
  l.flatMap Stretch.written

def masked (l : Layout) : List Char :=
  l.flatMap Stretch.masked

/-- Whether there is nothing but white space and comments. -/
def IsGap (l : Layout) : Prop :=
  ∀ cs, .code cs ∈ l → ∀ c ∈ cs, Text.isSpace c = true

end Layout

/-! ## Keywords -/

inductive Keyword where
  | polymer
  | modulate
  | define
deriving DecidableEq, Repr

def Keyword.word : Keyword → List Char
  | .polymer => "Polymer".toList
  | .modulate => "modulate".toList
  | .define => "define".toList

/-- Whether no keyword stands in a text. -/
def Mute (cs : List Char) : Prop :=
  ∀ k : Keyword, ¬k.word <:+: cs

/-- Whether the word `is` stands before a colon, which white space may separate from it. -/
def HasIsField (cs : List Char) : Prop :=
  ∃ before after, cs = before ++ 'i' :: 's' :: after ∧ (∀ c ∈ before.getLast?, Text.isWord c = false) ∧
    (after.dropWhile Text.isSpace).head? = some ':'

/-! ## Calls -/

/-- What stands in an object before the value of its `is` field. No field before that one is an object itself. -/
structure ObjectStart where
  beforeBrace : Layout
  beforeBrace_gap : beforeBrace.IsGap
  fields : Layout
  fields_end : ∀ c ∈ fields.masked.getLast?, c = ','
  fields_flat : '\x7b' ∉ fields.masked ∧ '\x7d' ∉ fields.masked
  fields_other : ¬HasIsField fields.masked
  fields_mute : Mute fields.masked
  beforeIs : Layout
  beforeIs_gap : beforeIs.IsGap
  beforeColon : Layout
  beforeColon_gap : beforeColon.IsGap

/-- How a call gives the name it declares: in a field of an object, or as its first argument. -/
inductive Form where
  | object (start : ObjectStart)
  | named (keyword : Keyword)

namespace Form

def keyword : Form → Keyword
  | .object _ => .polymer
  | .named k => k

/-- What stands between the bracket of a call and the gap before its name, in the given view of code. -/
def text (view : Layout → List Char) : Form → List Char
  | .object start => view start.beforeBrace ++ '\x7b' :: (view start.fields ++ (view start.beforeIs ++
      'i' :: 's' :: (view start.beforeColon ++ [':'])))
  | .named _ => []

end Form

/-- A call that declares a name, with the code behind the name up to the next call. -/
structure Registration where
  form : Form
  beforeParen : Layout
  beforeParen_gap : beforeParen.IsGap
  beforeName : Layout
  beforeName_gap : beforeName.IsGap
  quote : Char
  quote_mark : quote = '\'' ∨ quote = '"'
  name : List Char
  name_ne : name ≠ []
  name_chars : ∀ c ∈ name, c.isAlphanum = true ∨ c ∈ ['-', '_', '.']
  rest : Layout
  rest_mute : Mute rest.masked

namespace Registration

/-- What stands between the keyword and the code behind the name. -/
def inner (r : Registration) (view : Layout → List Char) : List Char :=
  view r.beforeParen ++ '(' :: (r.form.text view ++ (view r.beforeName ++ r.quote :: (r.name ++ [r.quote])))

def text (r : Registration) (view : Layout → List Char) : List Char :=
  r.form.keyword.word ++ (r.inner view ++ view r.rest)

def isElement (r : Registration) : Bool :=
  r.form.keyword = .polymer

end Registration

/-- Whether every call begins at a word boundary, given the code before the first one. -/
def Separated (before : Layout) : List Registration → Prop
  | [] => True
  | r :: rs => (∀ c ∈ before.masked.getLast?, Text.isWord c = false) ∧ Separated r.rest rs

/-! ## Scripts -/

structure Source where
  lead : Layout
  lead_mute : Mute lead.masked
  calls : List Registration
  separated : Separated lead calls

namespace Source

def text (s : Source) (view : Layout → List Char) : List Char :=
  view s.lead ++ s.calls.flatMap (Registration.text · view)

def written (s : Source) : List Char :=
  s.text Layout.written

/-- The script with its comments blanked, and nothing else. -/
def masked (s : Source) : List Char :=
  s.text Layout.masked

/-- Calls with the lines of their keywords, the first of them on the given line. -/
def locate (line : Nat) : List Registration → List (Nat × Registration)
  | [] => []
  | r :: rs => (line, r) :: locate (line + (r.text Layout.written).count '\n') rs

def located (s : Source) : List (Nat × Registration) :=
  locate (1 + s.lead.written.count '\n') s.calls

/-- What a call on a line declares. -/
def declared (script? : Option String) (call : Nat × Registration) : Declaration :=
  { name := String.ofList call.2.name, line := call.1, script? }

/-- What the calls of a script declare, each kind in the order of the calls. -/
def metadata (s : Source) (script? : Option String) : Metadata where
  elements := (s.located.filter (·.2.isElement)).map fun call => { declared script? call with }
  modules := (s.located.filter (!·.2.isElement)).map (declared script?)

end Source

end ImportTree.Script
