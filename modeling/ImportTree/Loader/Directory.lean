import ImportTree.Address.Url.Read
import ImportTree.Files.Basic
import ImportTree.Loader.Basic

/-!
# Documents in a directory

A loader that reads files, confined to a root directory. Addresses are paths below the root, or
addresses of files inside it.
-/
namespace ImportTree.Directory

/-! ## Addresses of files -/

/-- Whether an address is written as one of a file. -/
def isFileAddress (address : List Char) : Bool :=
  Text.startsWithLetters "file:".toList address

/-- How the path of a file is read from its address: in bytes, from the top directory down. -/
abbrev PathReader := List Char → Option (List UInt8)

/-- The path of the file that a structured address names. Only a file that no host serves can be named. -/
def filePath? : PathReader := fun address =>
  match Address.Url.read? none address with
  | none => none
  | some url =>
    match url.path, url.authority? with
    | .flat _, _ => none
    | .segments list, none => some (pathOf list)
    | .segments list, some authority => if authority.host = .name [] then some (pathOf list) else none
where
  pathOf (segments : List (List Char)) : List UInt8 :=
    segments.flatMap fun segment => 0x2F :: Address.Percent.decode segment

/-- The steps of a path in bytes. A slash separates steps, whether it was encoded or not. -/
def stepsOf (path : List UInt8) : List Files.Name :=
  ((Text.splitOn (· == 0x2F) path).map Files.Name.ofBytes).filter Files.Name.isStep

/-! ## The root -/

def root (current : Files.Place) (path : String) : Except LoadFailure Files.Place :=
  if path.isEmpty then
    .error { message := "Failed to resolve loader root ", causes := ["cannot make an empty path absolute"] }
  else
    match Files.place? current path.toList with
    | some place => .ok place
    | none => .error { message := "Invalid loader root " ++ path }

/-! ## Places of documents -/

/-- The place that an address asks for, which may be outside the root. -/
def requested (path? : PathReader) (root : Files.Place) (address : String) :
    Except LoadFailure (Option Files.Place) :=
  let cs := address.toList
  if isFileAddress cs then
    match path? cs with
    | some path => .ok (Files.follow? [] (stepsOf path))
    | none => .error { message := "'" ++ address ++ "' is not a valid file URL" }
  else if (Text.cutAround? "://".toList cs).isSome then
    .error { message := "Unsupported address '" ++ address ++ "' for filesystem loader" }
  else .ok (Files.follow? root (Files.steps cs))

/-- The place of the document at an address, which is the root or below it. -/
def placeUnder (path? : PathReader) (root : Files.Place) (address : String) : Except LoadFailure Files.Place :=
  match requested path? root address with
  | .error failure => .error failure
  | .ok place? =>
    match place?.filter fun place => (Files.below? root place).isSome with
    | some place => .ok place
    | none =>
      .error { message := "'" ++ address ++ "' escapes the loader root " ++ String.ofList root.shown }

/-- The place of the document at an address, for a root directory that is written as a path. -/
def placeBy (path? : PathReader) (current : Files.Place) (path address : String) : Except LoadFailure Files.Place :=
  match root current path with
  | .ok root => placeUnder path? root address
  | .error failure => .error failure

def placeOf (current : Files.Place) (path address : String) : Except LoadFailure Files.Place :=
  placeBy filePath? current path address

/-! ## Reading -/

def answer (files : Files) (path address : String) : Except LoadFailure String :=
  match placeOf files.current path address with
  | .error failure => .error failure
  | .ok place =>
    match files.read place with
    | .ok text => .ok text
    | .error fault => .error {
        message := "Failed to read " ++ String.ofList place.shown
        causes := [fault.message] }

/-- How many documents an analysis takes from a directory at most. -/
def capacity : Nat :=
  UInt32.size

/-- A loader of the documents under a root directory. -/
def loader (files : Files) (path : String) : Loader where
  answer := answer files path
  extent := capacity

end ImportTree.Directory
