import ImportTree.Address.Url.Basic

/-!
# Paths of structured addresses

A path is read segment by segment on top of the segments of a base. Dots are resolved, and in paths of
files a drive letter at the front is kept.
-/
namespace ImportTree.Address.Url

/-! ## Drive letters -/

def isDriveLetter : List Char → Bool
  | [letter, mark] => letter.isAlpha && (mark == ':' || mark == '|')
  | _ => false

/-- A drive letter that stands alone or before the end of a segment. -/
def startsWithDrive : List Char → Bool
  | letter :: mark :: rest =>
    isDriveLetter [letter, mark] &&
      (match rest with
        | [] => true
        | c :: _ => c == '/' || c == '\\' || c == '?' || c == '#')
  | _ => false

def isNormalDrive (segment : List Char) : Bool :=
  isDriveLetter segment && segment.getLast? == some ':'

/-! ## Segments -/

def isDoubleDot (segment : List Char) : Bool :=
  ["..".toList, "%2e.".toList, ".%2e".toList, "%2e%2e".toList].contains (Text.lower segment)

def isSingleDot (segment : List Char) : Bool :=
  [".".toList, "%2e".toList].contains (Text.lower segment)

/-- Removes the last segment, unless it is a drive letter. -/
def parent (done : List (List Char)) : List (List Char) :=
  match done.getLast? with
  | some last => if startsWithDrive (last ++ ['/']) then done else done.dropLast
  | none => done

/-- The segments after one more, which is the last one or has a slash after it. -/
def pushSegment (isFile isLast : Bool) (done : List (List Char)) (raw : List Char) : List (List Char) :=
  let segment := Percent.encode Percent.inPath raw
  if isDoubleDot segment then parent done ++ (if isLast then [[]] else [])
  else if isSingleDot segment then done ++ (if isLast then [[]] else [])
  else if isFile ∧ done.isEmpty then
    match segment with
    | letter :: ':' :: c :: rest =>
      if letter.isAlpha then [[letter, ':'], c :: rest] else [segment]
    | _ => if isDriveLetter segment then [segment.take 1 ++ [':']] else [segment]
  else done ++ [segment]

/-- The segments after all segments of a path text. -/
def pushSegments (isFile : Bool) (done : List (List Char)) : List (List Char) → List (List Char)
  | [] => done
  | [raw] => pushSegment isFile true done raw
  | raw :: more => pushSegments isFile (pushSegment isFile false done raw) more

/-- In the path of a file, empty segments at the front do not count. -/
def dropEmptyFront (segments : List (List Char)) : List (List Char) :=
  match segments.dropWhile List.isEmpty with
  | [] => [[]]
  | kept => kept

def isSeparator (scheme : List Char) (c : Char) : Bool :=
  c == '/' || (isSpecial scheme && c == '\\')

/-- The text of a path ends before a query or a fragment. -/
def inPathText (c : Char) : Bool :=
  c != '?' && c != '#'

/-- Reads the path at the front of a text, on top of the segments that are there already. -/
def readPath (scheme : List Char) (done : List (List Char)) (cs : List Char) : List (List Char) :=
  let isFile := scheme == fileScheme
  let segments := pushSegments isFile done (Text.splitOn (isSeparator scheme) (cs.takeWhile inPathText))
  if isFile then dropEmptyFront segments else segments

/-- Whether the path of a file, read on its own, begins with a drive letter. -/
def beginsWithDrive (cs : List Char) : Bool :=
  match Text.splitOn (isSeparator fileScheme) (cs.takeWhile inPathText) with
  | first :: _ => isDriveLetter first
  | [] => false

end ImportTree.Address.Url
