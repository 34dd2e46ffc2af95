import ImportTree.Text.Ascii

/-!
# Constructs of markup

A document is cut into constructs: tags, comments, declarations, elements whose content is not markup,
and the characters between them. `Construct.text` writes a construct back, and the constructs of a
document write the document up to the first one that does not end.
-/
namespace ImportTree.Markup

/-! ## Constructs -/

/-- A lexeme of a document. -/
inductive Construct where
  /-- A character outside all markup. -/
  | text (c : Char)
  /-- A comment, without its delimiters. -/
  | comment (body : List Char)
  /-- A declaration, a processing instruction or an end tag, without its angle brackets. -/
  | declaration (body : List Char)
  /-- A start tag: its name as written, and the text between name and closing bracket. -/
  | startTag (name attributes : List Char)
  /-- A script element up to its end: start tag, content, and the end tag as written. -/
  | script (name attributes body closing : List Char)
  /-- An element whose content is plain text, up to its end tag. -/
  | rawText (name attributes content : List Char)
deriving DecidableEq, Repr

/-- A construct that the end of the document cuts off. -/
inductive Unterminated where
  | comment
  | declaration
  /-- A start tag of this lower-case name. -/
  | startTag (name : List Char)
  | script
deriving DecidableEq, Repr

def Unterminated.reason : Unterminated → String
  | .comment => "unterminated comment"
  | .declaration => "unterminated tag"
  | .startTag name => "unterminated <" ++ String.ofList name ++ "> tag"
  | .script => "unterminated <script> element"

namespace Construct

def writtenTag (name attributes : List Char) : List Char :=
  '<' :: (name ++ attributes ++ ['>'])

def written : Construct → List Char
  | .text c => [c]
  | .comment body => '<' :: '!' :: '-' :: '-' :: (body ++ ['-', '-', '>'])
  | .declaration body => '<' :: (body ++ ['>'])
  | .startTag name attributes => writtenTag name attributes
  | .script name attributes body closing => writtenTag name attributes ++ body ++ closing
  | .rawText name attributes content => writtenTag name attributes ++ content

theorem written_ne_nil (k : Construct) : k.written ≠ [] := by
  cases k <;> simp [written, writtenTag]

end Construct

/-! ## The end of a tag -/

/-- Where a reader stands inside a start tag. -/
inductive TagState where
  | plain
  /-- After an equals sign and any blanks: only here a quote opens a value. -/
  | afterEquals
  | quoted (quote : Char)
deriving DecidableEq, Repr

namespace TagState

def next : TagState → Char → TagState
  | .quoted quote, c => if c = quote then .plain else .quoted quote
  | .plain, c => if c = '=' then .afterEquals else .plain
  | .afterEquals, c =>
    if c = '"' ∨ c = '\'' then .quoted c
    else if c = '=' ∨ Text.isAsciiBlank c then .afterEquals
    else .plain

def closes : TagState → Bool
  | .quoted _ => false
  | _ => true

end TagState

/-- Cuts a text around the bracket that ends the tag. -/
def cutTag? : TagState → List Char → Option (List Char × List Char)
  | _, [] => none
  | state, c :: cs =>
    if c = '>' ∧ state.closes then some ([], cs)
    else match cutTag? (state.next c) cs with
      | some (attributes, rest) => some (c :: attributes, rest)
      | none => none

/-! ## Reading -/

namespace Construct

def isTagNameChar (c : Char) : Bool :=
  c.isAlphanum || c == '-' || c == '_' || c == ':' || c == '.'

/-- The lower-case names of the elements whose content is plain text. -/
def rawTextNames : List (List Char) :=
  ["style".toList, "textarea".toList, "title".toList]

/-- A text up to and with its first closing bracket, and the rest. -/
def throughBracket : List Char → List Char × List Char
  | [] => ([], [])
  | c :: cs =>
    if c = '>' then ([c], cs)
    else (c :: (throughBracket cs).1, (throughBracket cs).2)

/-- Reads what belongs to the element after its start tag. -/
def readContent (name attributes rest : List Char) : Except Unterminated (Construct × List Char) :=
  if Text.lower name = "script".toList then
    match Text.cutBefore? (Text.startsWithLetters "</script".toList) rest with
    | some (body, after) =>
      .ok (.script name attributes body (throughBracket after).1, (throughBracket after).2)
    | none => .error .script
  else if Text.lower name ∈ rawTextNames then
    match Text.cutBefore? (Text.startsWithLetters ('<' :: '/' :: Text.lower name)) rest with
    | some (content, after) => .ok (.rawText name attributes content, after)
    | none => .ok (.rawText name attributes rest, [])
  else .ok (.startTag name attributes, rest)

/-- Reads the element whose opening bracket has just been passed. -/
def readElement (cs : List Char) : Except Unterminated (Construct × List Char) :=
  let name := cs.takeWhile isTagNameChar
  match cutTag? .plain (cs.dropWhile isTagNameChar) with
  | some (attributes, rest) => readContent name attributes rest
  | none => .error (.startTag (Text.lower name))

/-- Reads the comment whose opening delimiter has just been passed. -/
def readComment (cs : List Char) : Except Unterminated (Construct × List Char) :=
  match Text.cutAround? ['-', '-', '>'] cs with
  | some (body, rest) => .ok (.comment body, rest)
  | none => .error .comment

/-- Reads the declaration whose opening bracket has just been passed. -/
def readDeclaration (cs : List Char) : Except Unterminated (Construct × List Char) :=
  match Text.cutAround? ['>'] cs with
  | some (body, rest) => .ok (.declaration body, rest)
  | none => .error .declaration

/-- Reads the construct that begins with `c`. An opening bracket that begins no tag is text. -/
def read (c : Char) (cs : List Char) : Except Unterminated (Construct × List Char) :=
  if c = '<' then
    match cs with
    | '!' :: '-' :: '-' :: rest => readComment rest
    | '!' :: _ => readDeclaration cs
    | '?' :: _ => readDeclaration cs
    | '/' :: _ => readDeclaration cs
    | d :: _ => if d.isAlpha then readElement cs else .ok (.text c, cs)
    | [] => .ok (.text c, cs)
  else .ok (.text c, cs)

end Construct

/-! ## Nothing is lost -/

theorem cutTag?_append {state : TagState} {cs attributes rest : List Char}
    (h : cutTag? state cs = some (attributes, rest)) : attributes ++ '>' :: rest = cs := by
  induction cs generalizing state attributes with
  | nil => simp [cutTag?] at h
  | cons c cs ih => grind [cutTag?]

namespace Construct

theorem throughBracket_append (cs : List Char) : (throughBracket cs).1 ++ (throughBracket cs).2 = cs := by
  induction cs with
  | nil => rfl
  | cons c cs ih => grind [throughBracket]

theorem readContent_written {name attributes rest rest' : List Char} {k : Construct}
    (h : readContent name attributes rest = .ok (k, rest')) :
    k.written ++ rest' = writtenTag name attributes ++ rest := by
  simp only [readContent] at h
  split at h
  · split at h
    · rename_i body after hcut
      simp only [Except.ok.injEq, Prod.mk.injEq] at h
      obtain ⟨rfl, rfl⟩ := h
      rw [← Text.cutBefore?_append hcut]
      simp [written, throughBracket_append]
    · simp at h
  · split at h
    · split at h
      · rename_i content after hcut
        simp only [Except.ok.injEq, Prod.mk.injEq] at h
        obtain ⟨rfl, rfl⟩ := h
        rw [← Text.cutBefore?_append hcut]
        simp [written]
      · simp only [Except.ok.injEq, Prod.mk.injEq] at h
        obtain ⟨rfl, rfl⟩ := h
        simp [written]
    · simp only [Except.ok.injEq, Prod.mk.injEq] at h
      obtain ⟨rfl, rfl⟩ := h
      rfl

theorem readElement_written {cs rest : List Char} {k : Construct}
    (h : readElement cs = .ok (k, rest)) : k.written ++ rest = '<' :: cs := by
  simp only [readElement] at h
  split at h
  · rename_i attributes after hcut
    have hsplit : cs.takeWhile isTagNameChar ++ cs.dropWhile isTagNameChar = cs :=
      List.takeWhile_append_dropWhile
    rw [readContent_written h, writtenTag]
    rw [← cutTag?_append hcut] at hsplit
    simpa using hsplit
  · simp at h

theorem readComment_written {cs rest : List Char} {k : Construct}
    (h : readComment cs = .ok (k, rest)) : k.written ++ rest = '<' :: '!' :: '-' :: '-' :: cs := by
  simp only [readComment] at h
  split at h
  · rename_i body after hcut
    simp only [Except.ok.injEq, Prod.mk.injEq] at h
    obtain ⟨rfl, rfl⟩ := h
    rw [← Text.cutAround?_append hcut]
    simp [written]
  · simp at h

theorem readDeclaration_written {cs rest : List Char} {k : Construct}
    (h : readDeclaration cs = .ok (k, rest)) : k.written ++ rest = '<' :: cs := by
  simp only [readDeclaration] at h
  split at h
  · rename_i body after hcut
    simp only [Except.ok.injEq, Prod.mk.injEq] at h
    obtain ⟨rfl, rfl⟩ := h
    rw [← Text.cutAround?_append hcut]
    simp [written]
  · simp at h

theorem read_written {c : Char} {cs rest : List Char} {k : Construct}
    (h : read c cs = .ok (k, rest)) : k.written ++ rest = c :: cs := by
  simp only [read] at h
  split at h
  · rename_i hc
    subst hc
    split at h
    · exact readComment_written h
    · exact readDeclaration_written h
    · exact readDeclaration_written h
    · exact readDeclaration_written h
    · split at h
      · exact readElement_written h
      · simp only [Except.ok.injEq, Prod.mk.injEq] at h
        obtain ⟨rfl, rfl⟩ := h
        rfl
    · simp only [Except.ok.injEq, Prod.mk.injEq] at h
      obtain ⟨rfl, rfl⟩ := h
      rfl
  · simp only [Except.ok.injEq, Prod.mk.injEq] at h
    obtain ⟨rfl, rfl⟩ := h
    rfl

theorem read_length {c : Char} {cs rest : List Char} {k : Construct}
    (h : read c cs = .ok (k, rest)) : rest.length < (c :: cs).length := by
  have hl := congrArg List.length (read_written h)
  have hk := List.length_pos_iff.2 k.written_ne_nil
  rw [List.length_append] at hl
  omega

/-! ## Whole documents -/

/-- The constructs of a text, and the construct that its end cuts off. -/
def readAll : List Char → List Construct × Option Unterminated
  | [] => ([], none)
  | c :: cs =>
    match _h : read c cs with
    | .ok (k, rest) => (k :: (readAll rest).1, (readAll rest).2)
    | .error cut => ([], some cut)
termination_by cs => cs.length
decreasing_by all_goals exact read_length _h

def writtenAll (ks : List Construct) : List Char :=
  ks.flatMap written

end Construct

end ImportTree.Markup
