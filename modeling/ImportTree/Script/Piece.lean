import ImportTree.Text.Ascii

/-!
# Pieces of a script

A script is cut into comments, literals, brackets, blanks and other characters. `Piece.written` writes
a piece back. Whether a slash begins a regular expression or divides is decided by the last character
before it that is neither blank nor part of a comment.
-/
namespace ImportTree.Script

/-! ## Pieces -/

/-- The three pairs of brackets. -/
inductive Bracket where
  | round
  | square
  | curly
deriving DecidableEq, Repr

def Bracket.opener : Bracket → Char
  | .round => '('
  | .square => '['
  | .curly => '\x7b'

def Bracket.closer : Bracket → Char
  | .round => ')'
  | .square => ']'
  | .curly => '\x7d'

/-- A lexeme of a script. -/
inductive Piece where
  /-- A character that leaves open what a slash means. -/
  | blank (c : Char)
  /-- From two slashes up to the end of the line, without the slashes. -/
  | lineComment (body : List Char)
  | blockComment (body : List Char)
  | regex (body flags : List Char)
  | string (quote : Char) (body : List Char)
  | template (body : List Char)
  | opening (bracket : Bracket)
  | closing (bracket : Bracket)
  | other (c : Char)
deriving DecidableEq, Repr

/-- A piece that the end of its line or of the script cuts off. -/
inductive Unterminated where
  | comment
  | string
  | template
deriving DecidableEq, Repr

def Unterminated.reason : Unterminated → String
  | .comment => "unterminated block comment"
  | .string => "unterminated string literal"
  | .template => "unterminated template literal"

namespace Piece

def written : Piece → List Char
  | .blank c => [c]
  | .lineComment body => '/' :: '/' :: body
  | .blockComment body => '/' :: '*' :: (body ++ ['*', '/'])
  | .regex body flags => '/' :: (body ++ '/' :: flags)
  | .string quote body => quote :: (body ++ [quote])
  | .template body => '`' :: (body ++ ['`'])
  | .opening bracket => [bracket.opener]
  | .closing bracket => [bracket.closer]
  | .other c => [c]

/-- The last character that decides what a slash after the piece means, given that before it. -/
def significant? (before : Option Char) : Piece → Option Char
  | .blank _ => before
  | .lineComment _ => before
  | .blockComment _ => before
  | .regex _ _ => some '/'
  | .string quote _ => some quote
  | .template _ => some '`'
  | .opening bracket => some bracket.opener
  | .closing bracket => some bracket.closer
  | .other c => some c

theorem written_ne_nil (p : Piece) : p.written ≠ [] := by
  cases p <;> simp [written]

/-! ## Literals -/

/-- Whether a slash after this character begins a regular expression. -/
def regexMayFollow : Option Char → Bool
  | none => true
  | some c => c ∈ ['(', ',', '=', ':', '[', '!', '&', '|', '?', '\x7b', '\x7d', ';']

/-- Cuts a text around the first quote that no backslash escapes. A line feed that no backslash
escapes ends the search if `oneLine` is set. -/
def cutQuote? (quote : Char) (oneLine : Bool) : List Char → Option (List Char × List Char)
  | [] => none
  | [c] => if c = quote ∧ c ≠ '\\' then some ([], []) else none
  | c :: d :: cs =>
    if c = '\\' then
      match cutQuote? quote oneLine cs with
      | some (body, rest) => some (c :: d :: body, rest)
      | none => none
    else if c = quote then some ([], d :: cs)
    else if oneLine ∧ c = '\n' then none
    else
      match cutQuote? quote oneLine (d :: cs) with
      | some (body, rest) => some (c :: body, rest)
      | none => none

/-- Cuts a text around the slash that ends a regular expression on the same line. Inside a character
class a slash stands for itself. -/
def cutRegex? (inClass : Bool) : List Char → Option (List Char × List Char)
  | [] => none
  | [c] => if c = '/' ∧ !inClass then some ([], []) else none
  | c :: d :: cs =>
    if c = '\n' then none
    else if c = '\\' then
      match cutRegex? inClass cs with
      | some (body, rest) => some (c :: d :: body, rest)
      | none => none
    else if c = '/' ∧ !inClass then some ([], d :: cs)
    else
      match cutRegex? (if c = '[' then true else if c = ']' then false else inClass) (d :: cs) with
      | some (body, rest) => some (c :: body, rest)
      | none => none

theorem cutQuote?_append {quote : Char} {oneLine : Bool} {cs body rest : List Char}
    (h : cutQuote? quote oneLine cs = some (body, rest)) : body ++ quote :: rest = cs := by
  fun_induction cutQuote? quote oneLine cs generalizing body <;> grind

theorem cutRegex?_append {inClass : Bool} {cs body rest : List Char}
    (h : cutRegex? inClass cs = some (body, rest)) : body ++ '/' :: rest = cs := by
  fun_induction cutRegex? inClass cs generalizing body <;> grind

/-! ## Reading -/

def opened? (c : Char) : Option Bracket :=
  [Bracket.round, .square, .curly].find? fun b => b.opener == c

def closed? (c : Char) : Option Bracket :=
  [Bracket.round, .square, .curly].find? fun b => b.closer == c

/-- Reads the piece that begins with the slash just passed. -/
def readSlash (before : Option Char) (cs : List Char) : Except Unterminated (Piece × List Char) :=
  match cs with
  | '/' :: rest => .ok (.lineComment (rest.takeWhile (· != '\n')), rest.dropWhile (· != '\n'))
  | '*' :: rest =>
    match Text.cutAround? ['*', '/'] rest with
    | some (body, rest) => .ok (.blockComment body, rest)
    | none => .error .comment
  | _ =>
    match if regexMayFollow before then cutRegex? false cs else none with
    | some (body, rest) => .ok (.regex body (rest.takeWhile Char.isAlpha), rest.dropWhile Char.isAlpha)
    | none => .ok (.other '/', cs)

def read (before : Option Char) (c : Char) (cs : List Char) : Except Unterminated (Piece × List Char) :=
  if c = '/' then readSlash before cs
  else if c = '\'' ∨ c = '"' then
    match cutQuote? c true cs with
    | some (body, rest) => .ok (.string c body, rest)
    | none => .error .string
  else if c = '`' then
    match cutQuote? c false cs with
    | some (body, rest) => .ok (.template body, rest)
    | none => .error .template
  else if Text.isAsciiBlank c then .ok (.blank c, cs)
  else
    match opened? c, closed? c with
    | some bracket, _ => .ok (.opening bracket, cs)
    | none, some bracket => .ok (.closing bracket, cs)
    | none, none => .ok (.other c, cs)

theorem opener_of_opened? {c : Char} {b : Bracket} (h : opened? c = some b) : b.opener = c := by
  simpa using List.find?_some h

theorem closer_of_closed? {c : Char} {b : Bracket} (h : closed? c = some b) : b.closer = c := by
  simpa using List.find?_some h

theorem readSlash_written {before : Option Char} {cs rest : List Char} {p : Piece}
    (h : readSlash before cs = .ok (p, rest)) : p.written ++ rest = '/' :: cs := by
  simp only [readSlash] at h
  split at h
  · simp only [Except.ok.injEq, Prod.mk.injEq] at h
    obtain ⟨rfl, rfl⟩ := h
    simp [written]
  · split at h
    · rename_i hcut
      simp only [Except.ok.injEq, Prod.mk.injEq] at h
      obtain ⟨rfl, rfl⟩ := h
      rw [← Text.cutAround?_append hcut]
      simp [written]
    · simp at h
  · split at h
    · rename_i hcut
      simp only [Except.ok.injEq, Prod.mk.injEq] at h
      obtain ⟨rfl, rfl⟩ := h
      split at hcut
      · rw [← cutRegex?_append hcut]
        simp [written]
      · simp at hcut
    · simp only [Except.ok.injEq, Prod.mk.injEq] at h
      obtain ⟨rfl, rfl⟩ := h
      rfl

theorem read_written {before : Option Char} {c : Char} {cs rest : List Char} {p : Piece}
    (h : read before c cs = .ok (p, rest)) : p.written ++ rest = c :: cs := by
  simp only [read] at h
  split at h
  · rename_i hc
    rw [readSlash_written h, hc]
  · split at h
    · split at h
      · rename_i hcut
        simp only [Except.ok.injEq, Prod.mk.injEq] at h
        obtain ⟨rfl, rfl⟩ := h
        rw [← cutQuote?_append hcut]
        simp [written]
      · simp at h
    · split at h
      · rename_i hc
        split at h
        · rename_i hcut
          simp only [Except.ok.injEq, Prod.mk.injEq] at h
          obtain ⟨rfl, rfl⟩ := h
          rw [← cutQuote?_append hcut, hc]
          simp [written]
        · simp at h
      · split at h
        · simp only [Except.ok.injEq, Prod.mk.injEq] at h
          obtain ⟨rfl, rfl⟩ := h
          rfl
        · split at h
          · rename_i hb
            simp only [Except.ok.injEq, Prod.mk.injEq] at h
            obtain ⟨rfl, rfl⟩ := h
            simp [written, opener_of_opened? hb]
          · rename_i hb
            simp only [Except.ok.injEq, Prod.mk.injEq] at h
            obtain ⟨rfl, rfl⟩ := h
            simp [written, closer_of_closed? hb]
          · simp only [Except.ok.injEq, Prod.mk.injEq] at h
            obtain ⟨rfl, rfl⟩ := h
            rfl

theorem read_length {before : Option Char} {c : Char} {cs rest : List Char} {p : Piece}
    (h : read before c cs = .ok (p, rest)) : rest.length < (c :: cs).length := by
  have hl := congrArg List.length (read_written h)
  have hp := List.length_pos_iff.2 p.written_ne_nil
  rw [List.length_append] at hl
  omega

/-- The pieces of a text, and the piece that its end or the end of a line cuts off. -/
def readAll (before : Option Char) : List Char → List Piece × Option Unterminated
  | [] => ([], none)
  | c :: cs =>
    match _h : read before c cs with
    | .ok (p, rest) =>
      let tail := readAll (p.significant? before) rest
      (p :: tail.1, tail.2)
    | .error cut => ([], some cut)
termination_by cs => cs.length
decreasing_by exact read_length _h

end Piece

end ImportTree.Script
