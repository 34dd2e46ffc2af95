import ImportTree.Markup.Reference
import ImportTree.Text.Ascii

/-!
# Attributes of a start tag

The text between a tag name and the closing angle bracket is cut into parts: attributes, and single
characters that stand between them. `Part.written` writes a part back, and the parts of a text write the
whole text.
-/
namespace ImportTree.Markup.Attribute

/-! ## Parts -/

/-- The value after an equals sign. -/
inductive Value where
  | missing
  | bare (text : List Char)
  | quoted (quote : Char) (text : List Char) (closed : Bool)
deriving DecidableEq, Repr

/-- A part of the text of a start tag. -/
inductive Part where
  /-- A blank, a slash, or a quote or equals sign that no name precedes. -/
  | gap (c : Char)
  /-- A name with no equals sign after it. -/
  | flag (name : List Char)
  /-- A name and its value, with the blanks before and after the equals sign. -/
  | assign (name before after : List Char) (value : Value)
deriving DecidableEq, Repr

def Value.written : Value → List Char
  | .missing => []
  | .bare text => text
  | .quoted quote text closed => quote :: text ++ (if closed then [quote] else [])

def Part.written : Part → List Char
  | .gap c => [c]
  | .flag name => name
  | .assign name before after value => name ++ before ++ '=' :: after ++ value.written

def isNameChar (c : Char) : Bool :=
  !Text.isAsciiBlank c && c != '=' && c != '>' && c != '/' && c != '"' && c != '\''

/-! ## Reading -/

/-- Reads the value after an equals sign and its blanks. -/
def readValue : List Char → Value × List Char
  | [] => (.missing, [])
  | c :: cs =>
    if c = '"' ∨ c = '\'' then
      match cs.dropWhile (· != c) with
      | [] => (.quoted c (cs.takeWhile (· != c)) false, [])
      | _ :: rest => (.quoted c (cs.takeWhile (· != c)) true, rest)
    else (.bare ((c :: cs).takeWhile (!Text.isAsciiBlank ·)), (c :: cs).dropWhile (!Text.isAsciiBlank ·))

def readPart (c : Char) (cs : List Char) : Part × List Char :=
  if isNameChar c then
    let name := c :: cs.takeWhile isNameChar
    let rest := cs.dropWhile isNameChar
    match rest.dropWhile Text.isAsciiBlank with
    | '=' :: rest' =>
      let (value, after) := readValue (rest'.dropWhile Text.isAsciiBlank)
      (.assign name (rest.takeWhile Text.isAsciiBlank) (rest'.takeWhile Text.isAsciiBlank) value, after)
    | _ => (.flag name, rest)
  else (.gap c, cs)

theorem readValue_written (cs : List Char) : (readValue cs).1.written ++ (readValue cs).2 = cs := by
  cases cs with
  | nil => rfl
  | cons c cs =>
    simp only [readValue]
    split
    · have hsplit : cs.takeWhile (· != c) ++ cs.dropWhile (· != c) = cs := List.takeWhile_append_dropWhile
      split
      · rename_i heq
        rw [heq] at hsplit
        simpa [Value.written] using hsplit
      · rename_i d rest heq
        have hd : d = c := by
          have hne : cs.dropWhile (· != c) ≠ [] := by simp [heq]
          have := List.head_dropWhile_not (fun x => x != c) hne
          simpa [heq] using this
        rw [heq, hd] at hsplit
        simpa [Value.written] using hsplit
    · exact List.takeWhile_append_dropWhile

theorem readPart_written (c : Char) (cs : List Char) :
    (readPart c cs).1.written ++ (readPart c cs).2 = c :: cs := by
  simp only [readPart]
  split
  · have hname : cs.takeWhile isNameChar ++ cs.dropWhile isNameChar = cs :=
      List.takeWhile_append_dropWhile
    split
    · rename_i rest' heq
      have hblank : (cs.dropWhile isNameChar).takeWhile Text.isAsciiBlank ++
          (cs.dropWhile isNameChar).dropWhile Text.isAsciiBlank = cs.dropWhile isNameChar :=
        List.takeWhile_append_dropWhile
      have hafter : rest'.takeWhile Text.isAsciiBlank ++ rest'.dropWhile Text.isAsciiBlank = rest' :=
        List.takeWhile_append_dropWhile
      have hvalue := readValue_written (rest'.dropWhile Text.isAsciiBlank)
      have hall : c :: cs = c :: (cs.takeWhile isNameChar ++
          ((cs.dropWhile isNameChar).takeWhile Text.isAsciiBlank ++ '=' :: (rest'.takeWhile Text.isAsciiBlank ++
            ((readValue (rest'.dropWhile Text.isAsciiBlank)).1.written ++
              (readValue (rest'.dropWhile Text.isAsciiBlank)).2)))) := by
        rw [hvalue, hafter, ← heq, hblank, hname]
      rw [hall]
      simp [Part.written]
    · simp [Part.written, hname]
  · rfl

theorem readPart_length (c : Char) (cs : List Char) : (readPart c cs).2.length < (c :: cs).length := by
  have h := congrArg List.length (readPart_written c cs)
  have hpos : 0 < (readPart c cs).1.written.length := by
    simp only [readPart]
    split
    · split <;> simp [Part.written]
    · simp [Part.written]
  rw [List.length_append] at h
  omega

def parts : List Char → List Part
  | [] => []
  | c :: cs => (readPart c cs).1 :: parts (readPart c cs).2
termination_by cs => cs.length
decreasing_by exact readPart_length c cs

/-! ## Attributes -/

def Value.decoded : Value → List Char
  | .missing => []
  | .bare text => Reference.decode text
  | .quoted _ text _ => Reference.decode text

/-- The attribute that a part holds, its name in lower case. -/
def Part.attribute? : Part → Option (String × String)
  | .gap _ => none
  | .flag name => some (String.ofList (Text.lower name), "")
  | .assign name _ _ value => some (String.ofList (Text.lower name), String.ofList value.decoded)

/-- The attributes in the text of a start tag, in order. -/
def ofText (cs : List Char) : List (String × String) :=
  (parts cs).filterMap Part.attribute?

end ImportTree.Markup.Attribute
