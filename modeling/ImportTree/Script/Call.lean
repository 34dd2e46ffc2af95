import ImportTree.Text.Space
import ImportTree.Text.Word

/-!
# Registration calls

The three forms of calls that declare a name, and the search for all calls of a form in a masked
script. Calls of one form do not overlap, and the leftmost wins.
-/
namespace ImportTree.Script

/-! ## Forms of calls -/

/-- Reads what a form of call consists of, and gives the declared name and the rest of the text. -/
abbrev CallForm := List Char → Option (List Char × List Char)

/-- Passes the given character after any white space. -/
def passChar? (c : Char) (cs : List Char) : Option (List Char) :=
  match cs.dropWhile Text.isSpace with
  | d :: rest => if d = c then some rest else none
  | [] => none

def passWord? (word cs : List Char) : Option (List Char) :=
  if word.isPrefixOf cs then some (cs.drop word.length) else none

/-- Reads a quoted name after any white space; it is not empty and stays on one line. -/
def quotedName? (cs : List Char) : Option (List Char × List Char) :=
  match cs.dropWhile Text.isSpace with
  | [] => none
  | quote :: rest =>
    if quote = '\'' ∨ quote = '"' then
      let inName := fun c => c != quote && c != '\n'
      match rest.takeWhile inName, rest.dropWhile inName with
      | c :: name, d :: rest => if d = quote then some (c :: name, rest) else none
      | _, _ => none
    else none

/-- Reads the name after a keyword and an opening bracket. -/
def namedCall (keyword : List Char) : CallForm := fun cs =>
  match passWord? keyword cs with
  | some rest =>
    match passChar? '(' rest with
    | some rest => quotedName? rest
    | none => none
  | none => none

/-- Reads the name of an `is` field at the beginning of a text. -/
def isField? (cs : List Char) : Option (List Char × List Char) :=
  match passWord? ['i', 's'] cs with
  | some rest =>
    match passChar? ':' rest with
    | some rest => quotedName? rest
    | none => none
  | none => none

/-- Finds the first `is` field with a quoted name before any brace. -/
def findIsField? (before : Option Char) : List Char → Option (List Char × List Char)
  | [] => none
  | c :: cs =>
    match if Text.wordMayStartAfter before then isField? (c :: cs) else none with
    | some found => some found
    | none => if c = '\x7b' ∨ c = '\x7d' then none else findIsField? (some c) cs

/-- Reads the name in the object that is passed to a keyword. -/
def objectCall (keyword : List Char) : CallForm := fun cs =>
  match passWord? keyword cs with
  | some rest =>
    match passChar? '(' rest with
    | some rest =>
      match passChar? '\x7b' rest with
      | some rest => findIsField? (some '\x7b') rest
      | none => none
    | none => none
  | none => none

def elementObject : CallForm :=
  objectCall "Polymer".toList

def elementNamed : CallForm :=
  namedCall "Polymer".toList

def moduleDefinition : CallForm := fun cs =>
  match namedCall "modulate".toList cs with
  | some found => some found
  | none => namedCall "define".toList cs

/-! ## Search -/

/-- A call found in a masked script. -/
structure Call where
  /-- The number of characters before the keyword. -/
  offset : Nat
  /-- The line of the keyword, counted from one. -/
  line : Nat
  name : String
deriving DecidableEq, Repr

/-- The calls of a form, from left to right. A call starts at a word boundary, and after a call the
search goes on behind it. `skip` characters at the front belong to the last call found. -/
def callsFrom (form : CallForm) : Nat → Option Char → Nat → Nat → List Char → List Call
  | _, _, _, _, [] => []
  | skip + 1, _, offset, line, c :: cs =>
    callsFrom form skip (some c) (offset + 1) (if c = '\n' then line + 1 else line) cs
  | 0, before, offset, line, c :: cs =>
    let next := if c = '\n' then line + 1 else line
    match if Text.wordMayStartAfter before then form (c :: cs) else none with
    | some (name, rest) =>
      ⟨offset, line, String.ofList name⟩ ::
        callsFrom form (cs.length - rest.length) (some c) (offset + 1) next cs
    | none => callsFrom form 0 (some c) (offset + 1) next cs

def calls (form : CallForm) (masked : List Char) : List Call :=
  callsFrom form 0 none 0 1 masked

/-- The calls of two forms in the order of their offsets. -/
def merge (a b : List Call) : List Call :=
  (a ++ b).mergeSort fun x y => x.offset ≤ y.offset

end ImportTree.Script
