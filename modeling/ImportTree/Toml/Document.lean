import ImportTree.Toml.Quoted
import ImportTree.Toml.Scalar

/-!
# TOML documents

A document is a list of statements, each on lines of its own: headers, and entries of the table under
the last header.
-/
namespace ImportTree.Toml

/-! ## Gaps -/

def skipGap (inComment : Bool) : List Char → Option (List Char)
  | [] => some []
  | '\r' :: '\n' :: cs => skipGap false cs
  | c :: cs =>
    if c = '\n' then skipGap false cs
    else if inComment then if isPlain c then skipGap true cs else none
    else if isBlank c then skipGap false cs
    else if c = '#' then skipGap true cs
    else some (c :: cs)

/-- Skips the rest of a line, which may hold a comment. -/
def skipLine? (cs : List Char) : Option (List Char) :=
  match cs.dropWhile isBlank with
  | [] => some []
  | '#' :: comment =>
    match comment.dropWhile isPlain with
    | [] => some []
    | rest => cutLineEnd? rest
  | rest => cutLineEnd? rest

/-! ## Keys -/

/-- Whether a character can belong to an unquoted key. -/
def inKey (c : Char) : Bool :=
  c.isAlphanum || c == '_' || c == '-'

/-- Reads a key without dots. -/
def readKey? : List Char → Option (String × List Char)
  | '"' :: cs => readQuoted? '"' cs
  | '\'' :: cs => readQuoted? '\'' cs
  | cs =>
    match cs.takeWhile inKey with
    | [] => none
    | key => some (String.ofList key, cs.dropWhile inKey)

/-- Reads a key with at most `n` dots: the keys before the last one, and that one. -/
def readKeys? : Nat → List Char → Option ((List String × String) × List Char)
  | 0, _ => none
  | n + 1, cs =>
    match readKey? cs with
    | none => none
    | some (key, rest) =>
      match rest.dropWhile isBlank with
      | '.' :: more =>
        match readKeys? n (more.dropWhile isBlank) with
        | some ((path, last), rest) => some ((key :: path, last), rest)
        | none => none
      | rest => some (([], key), rest)

/-- Reads what stands before the value of an entry. -/
def readEntryKey? (cs : List Char) : Option ((List String × String) × List Char) :=
  match readKeys? (cs.length + 1) cs with
  | some (key, '=' :: rest) => some (key, rest.dropWhile isBlank)
  | _ => none

/-! ## Values -/

mutual

/-- Reads a value. The number bounds how deep and how long it is. -/
def readValue? : Nat → List Char → Option (Value × List Char)
  | 0, _ => none
  | n + 1, '[' :: cs => (readItems? n cs).map fun (items, rest) => (.array items, rest)
  | n + 1, '\x7b' :: cs =>
    match readEntries? n cs .closed [] with
    | some (entries, rest) => some (.table .closed entries, rest)
    | none => none
  | _ + 1, '"' :: '"' :: '"' :: cs => (readLines? '"' cs).map fun (text, rest) => (.text text, rest)
  | _ + 1, '"' :: cs => (readQuoted? '"' cs).map fun (text, rest) => (.text text, rest)
  | _ + 1, '\'' :: '\'' :: '\'' :: cs => (readLines? '\'' cs).map fun (text, rest) => (.text text, rest)
  | _ + 1, '\'' :: cs => (readQuoted? '\'' cs).map fun (text, rest) => (.text text, rest)
  | _ + 1, cs => readScalar? cs

/-- Reads the items of an array, up to its end. -/
def readItems? : Nat → List Char → Option (List Value × List Char)
  | 0, _ => none
  | n + 1, cs =>
    match skipGap false cs with
    | none => none
    | some (']' :: rest) => some ([], rest)
    | some cs =>
      match readValue? n cs with
      | none => none
      | some (item, rest) =>
        match skipGap false rest with
        | some (',' :: rest) => (readItems? n rest).map fun (items, rest) => (item :: items, rest)
        | some (']' :: rest) => some ([item], rest)
        | _ => none

/-- Reads the entries of a table in braces, up to its end. -/
def readEntries? : Nat → List Char → Origin → Entries → Option (Entries × List Char)
  | 0, _, _, _ => none
  | n + 1, cs, origin, entries =>
    match skipGap false cs with
    | none => none
    | some ('\x7d' :: rest) => some (entries, rest)
    | some cs =>
      match readEntryKey? cs with
      | none => none
      | some ((path, key), rest) =>
        match readValue? n rest with
        | none => none
        | some (value, rest) =>
          match entries.put path key value origin, skipGap false rest with
          | some (origin, entries), some (',' :: rest) => readEntries? n rest origin entries
          | some (_, entries), some ('\x7d' :: rest) => some (entries, rest)
          | _, _ => none

end

/-! ## Statements -/

/-- A statement of a document. -/
inductive Statement where
  | entry (path : List String) (key : String) (value : Value)
  /-- The header of a table. -/
  | header (path : List String) (key : String)
  /-- The header of one more table of a name. -/
  | next (path : List String) (key : String)

/-- Reads what stands between the brackets of a header. -/
def readHeader? (cs : List Char) : Option ((List String × String) × List Char) :=
  match readKeys? (cs.length + 1) (cs.dropWhile isBlank) with
  | some (key, ']' :: rest) => some (key, rest)
  | _ => none

def readStatement? : List Char → Option (Statement × List Char)
  | '[' :: '[' :: cs =>
    match readHeader? cs with
    | some ((path, key), ']' :: rest) => some (.next path key, rest)
    | _ => none
  | '[' :: cs =>
    match readHeader? cs with
    | some ((path, key), rest) => some (.header path key, rest)
    | none => none
  | cs =>
    match readEntryKey? cs with
    | none => none
    | some ((path, key), rest) =>
      match readValue? (2 * cs.length + 2) rest with
      | some (value, rest) => some (.entry path key value, rest)
      | none => none

/-- Reads at most `n` statements. -/
def readStatements? : Nat → List Char → Option (List Statement)
  | 0, _ => none
  | n + 1, cs =>
    match skipGap false cs with
    | none => none
    | some [] => some []
    | some cs =>
      match readStatement? cs with
      | none => none
      | some (statement, rest) =>
        match skipLine? rest with
        | none => none
        | some rest => (readStatements? n rest).map (statement :: ·)

/-! ## Documents -/

/-- The document so far, and the path to the table under the last header. -/
structure Draft where
  entries : Entries := []
  current : List String := []

def Draft.take (d : Draft) : Statement → Option Draft
  | .entry path key value =>
    match d.entries.change .implied (fun o inner => inner.put path key value o) d.current .header with
    | some (_, entries) => some { d with entries }
    | none => none
  | .header path key =>
    match d.entries.change .implied (fun o inner => inner.start key o) path .header with
    | some (_, entries) => some ⟨entries, path ++ [key]⟩
    | none => none
  | .next path key =>
    match d.entries.change .implied (fun o inner => inner.startNext key o) path .header with
    | some (_, entries) => some ⟨entries, path ++ [key]⟩
    | none => none

/-- Reads a document; a byte order mark at its front does not count. -/
def read? (text : String) : Option Entries :=
  let cs := match text.toList with | '\uFEFF' :: cs => cs | cs => cs
  match readStatements? (cs.length + 1) cs with
  | some statements => (statements.foldlM Draft.take {}).map (·.entries)
  | none => none

end ImportTree.Toml
