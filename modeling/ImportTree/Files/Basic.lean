import ImportTree.Files.Place

/-!
# Files

What is known of a file system: for some places whether there is a file or a directory. There is nothing
at any other place. Paths are followed directory by directory, so a path through a missing directory
leads nowhere even if it climbs out of it again.
-/
namespace ImportTree

namespace Files

/-! ## Errors -/

/-- Why a file cannot be reached or read. -/
inductive Fault where
  | notFound
  /-- The path goes on below a file. -/
  | notDirectory
  | isDirectory
  /-- A name has more than 255 bytes. -/
  | nameTooLong
  /-- A name contains a zero character. -/
  | zeroInName
  | notText
deriving DecidableEq, Repr

def Fault.message : Fault → String
  | .notFound => "No such file or directory (os error 2)"
  | .notDirectory => "Not a directory (os error 20)"
  | .isDirectory => "Is a directory (os error 21)"
  | .nameTooLong => "File name too long (os error 36)"
  | .zeroInName => "file name contained an unexpected NUL byte"
  | .notText => "stream did not contain valid UTF-8"

/-- What is at a place. -/
inductive Entry where
  | file (content : List UInt8)
  | directory
deriving DecidableEq, Repr

end Files

/-- A file system, as far as it is known. -/
structure Files where
  /-- The directory at which relative paths start. -/
  current : Files.Place := []
  entries : List (Files.Place × Files.Entry) := []

namespace Files

/-! ## Looking -/

def entry? (files : Files) (place : Place) : Option Entry :=
  if place = [] then some .directory else files.entries.lookup place

def add (files : Files) (place : Place) (entry : Entry) : Files :=
  { files with entries := (place, entry) :: files.entries }

def step (files : Files) (place : Place) (name : Name) : Except Fault Place :=
  match files.entry? place with
  | none => .error .notFound
  | some (.file _) => .error .notDirectory
  | some .directory =>
    if name = .above then .ok place.dropLast
    else if !name.isStep then .ok place
    else if 255 < name.raw.length then .error .nameTooLong
    else .ok (place ++ [name])

/-- Follows names from a place, and finds something at the end. -/
def walk (files : Files) (place : Place) : List Name → Except Fault Place
  | [] => if (files.entry? place).isSome then .ok place else .error .notFound
  | name :: names =>
    match files.step place name with
    | .ok next => walk files next names
    | .error fault => .error fault

/-- Follows names from a place unless they contain a zero. -/
def find (files : Files) (place : Place) (names : List Name) : Except Fault Place :=
  if names.any fun name => name.raw.contains 0 then .error .zeroInName else files.walk place names

/-- The place that a written path leads to. The empty path leads nowhere. -/
def locate (files : Files) (path : List Char) : Except Fault Place :=
  if path = [] then .error .notFound
  else if isAbsolute path then files.find [] (names path)
  else files.find files.current (names path)

/-- The places that names lead through from a place, without a look at what is there. -/
def trailFrom (place : Place) : List Name → List Place
  | [] => [place]
  | name :: names =>
    place :: trailFrom (if name = .above then place.dropLast else if name.isStep then place ++ [name] else place) names

/-- The places that a written path leads through, without a look at what is there. -/
def trail (files : Files) (path : List Char) : List Place :=
  trailFrom (if isAbsolute path then [] else files.current) (names path)

def leads (files : Files) (path : List Char) : Bool :=
  match files.locate path with
  | .ok _ => true
  | .error _ => false

/-! ## Reading -/

/-- The text of the file at a place where there is something. -/
def content (files : Files) (place : Place) : Except Fault String :=
  match files.entry? place with
  | none => .error .notFound
  | some .directory => .error .isDirectory
  | some (.file raw) =>
    match Text.Utf8.decode? raw with
    | some cs => .ok (String.ofList cs)
    | none => .error .notText

def read (files : Files) (place : Place) : Except Fault String :=
  match files.find [] place with
  | .ok place => files.content place
  | .error fault => .error fault

/-- The text of the file that a written path leads to. -/
def readAt (files : Files) (path : List Char) : Except Fault String :=
  match files.locate path with
  | .ok place => files.content place
  | .error fault => .error fault

end Files

end ImportTree
