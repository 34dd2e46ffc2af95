import ImportTree.Markup.Structure
import ImportTree.Proofs.Markup.References
import ImportTree.Proofs.Markup.Words

/-!
# Well-formed documents

A well-formed document is written item by item: texts, comments, declarations, and elements with their attributes.
What stands in it for scripts, import links and templates is said here of the items themselves.
-/

namespace ImportTree.Markup

/-! ## Values -/

/-- A character of a value: as itself, or as a reference that names it. -/
inductive Glyph where
  | plain (c : Char) (h : c ≠ '&')
  | reference (name : List Char) (c : Char) (whole : ';' ∉ name) (names : Reference.Names name c)

def Glyph.written : Glyph → List Char
  | .plain c _ => [c]
  | .reference name _ _ _ => '&' :: (name ++ [';'])

def Glyph.char : Glyph → Char
  | .plain c _ => c
  | .reference _ c _ _ => c

def writtenText (glyphs : List Glyph) : List Char :=
  glyphs.flatMap Glyph.written

def Blanks (cs : List Char) : Prop :=
  ∀ c ∈ cs, Text.isAsciiBlank c = true

/-- What follows the name of an attribute, with the blanks around its equals sign. -/
inductive WrittenValue where
  | missing
  | quoted (before after : List Char) (quote : Char) (glyphs : List Glyph) (hbefore : Blanks before)
      (hafter : Blanks after) (hquote : quote = '"' ∨ quote = '\'') (inside : quote ∉ writtenText glyphs)
  | bare (before after : List Char) (glyphs : List Glyph) (hbefore : Blanks before) (hafter : Blanks after)
      (filled : writtenText glyphs ≠ [])
      (inside : ∀ c ∈ writtenText glyphs, Text.isAsciiBlank c = false ∧ c ∉ ['"', '\'', '=', '<', '>'])

namespace WrittenValue

def written : WrittenValue → List Char
  | .missing => []
  | .quoted before after quote glyphs _ _ _ _ => before ++ '=' :: (after ++ quote :: (writtenText glyphs ++ [quote]))
  | .bare before after glyphs _ _ _ _ => before ++ '=' :: (after ++ writtenText glyphs)

/-- The value that is meant. -/
def meant : WrittenValue → List Char
  | .missing => []
  | .quoted _ _ _ glyphs _ _ _ _ => glyphs.map Glyph.char
  | .bare _ _ glyphs _ _ _ _ => glyphs.map Glyph.char

def isBare : WrittenValue → Bool
  | .bare .. => true
  | _ => false

end WrittenValue

/-! ## Start tags -/

/-- An attribute with the blanks before it. -/
structure WrittenAttribute where
  gap : List Char
  gap_ne : gap ≠ []
  gap_blank : Blanks gap
  name : List Char
  name_ne : name ≠ []
  name_chars : ∀ c ∈ name, Text.isAsciiBlank c = false ∧ c ∉ ['=', '>', '/', '"', '\'']
  value : WrittenValue

namespace WrittenAttribute

def written (a : WrittenAttribute) : List Char :=
  a.gap ++ (a.name ++ a.value.written)

/-- The name in lower case with the value that is meant. -/
def entry (a : WrittenAttribute) : String × String :=
  (String.ofList (Text.lower a.name), String.ofList a.value.meant)

end WrittenAttribute

/-- A start tag. After its attributes there may be blanks and slashes; a slash that followed a bare value at once would
belong to it. -/
structure StartTag where
  initial : Char
  initial_letter : initial.isAlpha = true
  others : List Char
  others_chars : ∀ c ∈ others, c.isAlphanum = true ∨ c ∈ ['-', '_', ':', '.']
  attributes : List WrittenAttribute
  tail : List Char
  tail_chars : ∀ c ∈ tail, Text.isAsciiBlank c = true ∨ c = '/'
  apart : ∀ a ∈ attributes.getLast?, a.value.isBare = true → ∀ c ∈ tail.head?, Text.isAsciiBlank c = true

namespace StartTag

def name (t : StartTag) : List Char :=
  t.initial :: t.others

/-- What stands between the name and the closing bracket. -/
def inner (t : StartTag) : List Char :=
  t.attributes.flatMap WrittenAttribute.written ++ t.tail

def written (t : StartTag) : List Char :=
  '<' :: (t.name ++ (t.inner ++ ['>']))

def lowerName (t : StartTag) : List Char :=
  Text.lower t.name

def node (t : StartTag) (text? : Option String) (line : Nat) : Node :=
  ⟨String.ofList t.lowerName, t.attributes.map WrittenAttribute.entry, text?, line⟩

end StartTag

/-! ## Items -/

/-- An element whose content ends at its first end tag, in any case of letters. -/
structure ClosedElement where
  start : StartTag
  content : List Char
  closing : List Char
  junk : List Char
  closes : Text.lower closing = start.lowerName
  inside : ¬('<' :: '/' :: start.lowerName <:+: Text.lower content)
  junk_open : '>' ∉ junk

def ClosedElement.written (e : ClosedElement) : List Char :=
  e.start.written ++ (e.content ++ '<' :: '/' :: (e.closing ++ (e.junk ++ ['>'])))

/-- The names of the elements whose content is plain text. -/
def plainNames : List (List Char) :=
  ["style".toList, "textarea".toList, "title".toList]

inductive Item where
  | text (run : List Char) (h : '<' ∉ run)
  | comment (body : List Char) (h : ¬['-', '-', '>'] <:+: body)
  /-- A declaration, a processing instruction or an end tag. -/
  | declaration (mark : Char) (body : List Char) (hmark : mark = '!' ∨ mark = '?' ∨ mark = '/')
      (hdashes : mark = '!' → ¬['-', '-'] <+: body) (h : '>' ∉ body)
  | script (e : ClosedElement) (h : e.start.lowerName = "script".toList)
  | rawText (e : ClosedElement) (h : e.start.lowerName ∈ plainNames)
  | element (start : StartTag) (hscript : start.lowerName ≠ "script".toList) (h : start.lowerName ∉ plainNames)

def Item.written : Item → List Char
  | .text run _ => run
  | .comment body _ => '<' :: '!' :: '-' :: '-' :: (body ++ ['-', '-', '>'])
  | .declaration mark body _ _ _ => '<' :: mark :: (body ++ ['>'])
  | .script e _ => e.written
  | .rawText e _ => e.written
  | .element start _ _ => start.written

def writtenItems (items : List Item) : List Char :=
  items.flatMap Item.written

/-! ## What is to be found -/

/-- Whether a link is one to a document to import: `import` is among the words of its relation, in any case of
letters. -/
def NamesImport (node : Node) : Prop :=
  ∃ rel, node.attribute? "rel" = some rel ∧ ∃ before word after, rel.toList = before ++ (word ++ after) ∧
    Text.lower word = "import".toList ∧ (∀ c ∈ before.getLast?, Text.isAsciiBlank c = true) ∧
    ∀ c ∈ after.head?, Text.isAsciiBlank c = true

theorem isImportLink_iff {node : Node} : Structure.isImportLink node = true ↔ NamesImport node := by
  have himport : ∀ c ∈ "import".toList, Text.isAsciiBlank c = false := by simp [Text.isAsciiBlank]
  unfold Structure.isImportLink NamesImport
  cases node.attribute? "rel" with
  | none => simp
  | some rel =>
      simp only [List.any_eq_true, Option.some.injEq, exists_eq_left', Text.sameLetters, beq_iff_eq]
      constructor
      · rintro ⟨word, hmem, hword⟩
        have hlower : Text.lower word = "import".toList := hword.symm
        have hne : word ≠ [] := by rintro rfl; cases hlower
        obtain ⟨before, after, hrel, hends⟩ :=
          (Text.mem_asciiWords hne (Text.not_blank_of_lower hlower himport)).mp hmem
        exact ⟨before, word, after, hrel, hlower, hends⟩
      · rintro ⟨before, word, after, hrel, hlower, hends⟩
        have hne : word ≠ [] := by rintro rfl; cases hlower
        have hmem := (Text.mem_asciiWords hne (Text.not_blank_of_lower hlower himport)).mpr ⟨before, after, hrel, hends⟩
        exact ⟨word, hmem, hlower.symm⟩

instance : DecidablePred NamesImport := fun _ =>
  decidable_of_iff _ isImportLink_iff

/-- What a start tag on a line adds to the structure, besides that of a script. -/
def StartTag.found (t : StartTag) (line : Nat) : Structure :=
  if t.lowerName = "link".toList ∧ NamesImport (t.node none line) then { imports := [t.node none line] }
  else if t.lowerName = "dom-module".toList then { templates := [t.node none line] }
  else {}

/-- What an item on a line adds to the structure. The content of a script is kept unless it is blank. -/
def Item.found (line : Nat) : Item → Structure
  | .script e _ =>
    { scripts := [e.start.node (if Text.isAllSpace e.content then none else some (String.ofList e.content)) line] }
  | .element start _ _ => start.found line
  | _ => {}

/-- The structure of items of which the first begins on the given line. -/
def foundItems (line : Nat) : List Item → Structure
  | [] => {}
  | item :: items => (item.found line).append (foundItems (line + item.written.count '\n') items)

end ImportTree.Markup
