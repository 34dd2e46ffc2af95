import ImportTree.Markup.Fault
import ImportTree.Script.Piece

/-!
# Masked scripts

A script whose literals and comments end and whose brackets balance is masked: its comments become
blanks of the same length, so that what is declared in it can be looked for in the text alone.
-/
namespace ImportTree.Script

/-! ## Faults -/

/-- Why a script is refused. -/
inductive Fault where
  | cutOff (piece : Unterminated)
  /-- A closing bracket with nothing open. -/
  | unexpected (bracket : Bracket)
  /-- A closing bracket where another one, opened on the given line, had to close first. -/
  | mismatched (bracket expected : Bracket) (openedOn : Nat)
  | unclosed (bracket : Bracket)
deriving DecidableEq, Repr

def Fault.reason : Fault → String
  | .cutOff piece => piece.reason
  | .unexpected bracket => "unexpected '" ++ String.singleton bracket.closer ++ "'"
  | .mismatched bracket expected openedOn =>
    "unexpected '" ++ String.singleton bracket.closer ++ "' (expected closer for '" ++
      String.singleton expected.opener ++ "' opened on line " ++ toString openedOn ++ ")"
  | .unclosed bracket => "unclosed '" ++ String.singleton bracket.opener ++ "'"

/-! ## Lines -/

/-- The line feeds of a text that no backslash escapes. -/
def unescapedNewlines : List Char → Nat
  | [] => 0
  | [c] => if c = '\n' then 1 else 0
  | c :: d :: cs =>
    if c = '\\' then unescapedNewlines cs
    else (if c = '\n' then 1 else 0) + unescapedNewlines (d :: cs)

/-- The line feeds of a piece that count for the lines of faults: those escaped in a literal do not. -/
def Piece.newlines : Piece → Nat
  | .blank c => if c = '\n' then 1 else 0
  | .blockComment body => Text.newlines body
  | .template body => unescapedNewlines body
  | _ => 0

/-! ## Brackets -/

/-- The open brackets with their lines, the innermost first. -/
abbrev OpenBrackets := List (Bracket × Nat)

/-- Follows the brackets of pieces of which the first begins on the given line. -/
def balance (line : Nat) (opened : OpenBrackets) : List Piece → Except (Nat × Fault) (Nat × OpenBrackets)
  | [] => .ok (line, opened)
  | .opening bracket :: ps => balance line ((bracket, line) :: opened) ps
  | .closing bracket :: ps =>
    match opened with
    | [] => .error (line, .unexpected bracket)
    | (expected, openedOn) :: opened =>
      if bracket = expected then balance line opened ps
      else .error (line, .mismatched bracket expected openedOn)
  | p :: ps => balance (line + p.newlines) opened ps

/-- The pieces of a script whose literals and comments end and whose brackets balance. -/
def pieces? (cs : List Char) : Except (Nat × Fault) (List Piece) :=
  match Piece.readAll none cs with
  | (ps, cut?) =>
    match balance 1 [] ps, cut? with
    | .error fault, _ => .error fault
    | .ok (line, _), some cut => .error (line, .cutOff cut)
    | .ok (_, (bracket, openedOn) :: _), none => .error (openedOn, .unclosed bracket)
    | .ok (_, []), none => .ok ps

/-! ## Masking -/

/-- As many blanks as a character has bytes; a line feed stays. -/
def blankOut (c : Char) : List Char :=
  if c = '\n' then [c] else List.replicate c.utf8Size ' '

def Piece.masked : Piece → List Char
  | .lineComment body => ' ' :: ' ' :: body.flatMap blankOut
  | .blockComment body => ' ' :: ' ' :: (body.flatMap blankOut ++ [' ', ' '])
  | p => p.written

/-- The text of a script with its comments blanked out. -/
def mask (text : String) : Except SyntaxFault (List Char) :=
  match pieces? text.toList with
  | .ok ps => .ok (ps.flatMap Piece.masked)
  | .error (line, fault) => .error ⟨line, fault.reason⟩

end ImportTree.Script
