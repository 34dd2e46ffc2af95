import ImportTree.Text.Split
import ImportTree.Text.Utf8

/-!
# Places in a file system

A place is the list of names from the top directory down. A written path may also hold dots, and it may
start at a directory of its own.
-/
namespace ImportTree.Files

/-! ## Names -/

/-- The name of a file or directory: a text, or bytes that are no text. -/
inductive Name where
  | text (cs : List Char)
  | bytes (raw : List UInt8)
deriving DecidableEq, Repr

namespace Name

def ofBytes (raw : List UInt8) : Name :=
  match Text.Utf8.decode? raw with
  | some cs => .text cs
  | none => .bytes raw

def raw : Name → List UInt8
  | .text cs => Text.Utf8.encode cs
  | .bytes raw => raw

def shown : Name → List Char
  | .text cs => cs
  | .bytes raw => Text.Utf8.decodeLossy raw

def here : Name :=
  .text ['.']

def above : Name :=
  .text ['.', '.']

/-- Whether a name of a written path changes where the path leads. -/
def isStep (n : Name) : Bool :=
  n != .text [] && n != here

end Name

/-! ## Places -/

abbrev Place := List Name

def Place.shown (place : Place) : List Char :=
  '/' :: Text.joinWith '/' (place.map Name.shown)

/-- Follows the steps of a path from a place, without a look at what is there. No step leads above the top. -/
def follow? (place : Place) : List Name → Option Place
  | [] => some place
  | name :: names =>
    if name = .above then if place = [] then none else follow? place.dropLast names
    else follow? (place ++ [name]) names

theorem follow?_append (place : Place) (a b : List Name) :
    follow? place (a ++ b) = (follow? place a).bind fun next => follow? next b := by
  induction a generalizing place with
  | nil => rfl
  | cons name names ih =>
    simp only [List.cons_append, follow?]
    split
    · split
      · rfl
      · exact ih _
    · exact ih _

/-- The names that lead from a directory to a place below it. -/
def below? : Place → Place → Option (List Name)
  | [], place => some place
  | _ :: _, [] => none
  | a :: above, b :: place => if a = b then below? above place else none

theorem below?_eq_some_iff {above place rest : Place} : below? above place = some rest ↔ place = above ++ rest := by
  induction above generalizing place with
  | nil => simp [below?, eq_comm]
  | cons a above ih =>
    cases place with
    | nil => simp [below?]
    | cons b place =>
      by_cases h : a = b
      · simp [below?, h, ih]
      · simp [below?, h, Ne.symm h]

/-! ## Written paths -/

def isAbsolute (path : List Char) : Bool :=
  path.head? == some '/'

/-- All names of a written path, also those that are no steps. -/
def names (path : List Char) : List Name :=
  (Text.splitOn (· == '/') path).map .text

def steps (path : List Char) : List Name :=
  (names path).filter Name.isStep

/-- The place that a written path leads to from the current directory, without a look at what is there. -/
def place? (current : Place) (path : List Char) : Option Place :=
  follow? (if isAbsolute path then [] else current) (steps path)

/-- A path that is written relative to a directory. -/
def joined (directory path : List Char) : List Char :=
  if isAbsolute path ∨ directory = [] then path
  else if directory.getLast? = some '/' then directory ++ path
  else directory ++ '/' :: path

def directoryOf (path : List Char) : List Char :=
  let lead := if isAbsolute path then ['/'] else if (names path).head? = some .here then ['.'] else []
  let isIdle := fun (part : List Char) => part == [] || part == ['.']
  let parts := (Text.splitOn (· == '/') (path.drop lead.length)).reverse
  lead ++ Text.joinWith '/' (((parts.dropWhile isIdle).drop 1).dropWhile isIdle).reverse

end ImportTree.Files
