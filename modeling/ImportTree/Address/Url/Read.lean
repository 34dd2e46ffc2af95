import ImportTree.Address.Url.Path

/-!
# Reading structured addresses

Reads an absolute address, or a relative one against a base. The result is in normal form: scheme and
host in lower case, implied ports left out, dots resolved, unsafe characters percent-encoded.
-/
namespace ImportTree.Address.Url

/-! ## Preparation -/

/-- Control characters and blanks around an address, and tabs and line ends inside, do not count. -/
def clean (cs : List Char) : List Char :=
  let outer := fun (c : Char) => decide (c.toNat ≤ 0x20)
  let inner := ((cs.dropWhile outer).reverse.dropWhile outer).reverse
  inner.filter fun c => c != '\t' && c != '\n' && c != '\r'

/-- Cuts a text after its scheme, which is put in lower case. -/
def cutScheme? (cs : List Char) : Option (List Char × List Char) :=
  let inScheme := fun (c : Char) => c.isAlphanum || c == '+' || c == '-' || c == '.'
  if cs.head?.any Char.isAlpha then
    match cs.dropWhile inScheme with
    | ':' :: rest => some (Text.lower (cs.takeWhile inScheme), rest)
    | _ => none
  else none

def isSlash (c : Char) : Bool :=
  c == '/' || c == '\\'

/-! ## The end of an address -/

def readQuery (scheme : List Char) : List Char → Option (List Char)
  | '?' :: cs =>
    let set := if isSpecial scheme then Percent.inSpecialQuery else Percent.inQuery
    some (Percent.encode set (cs.takeWhile (· != '#')))
  | _ => none

/-- An address whose path and query are read from a text, the path on top of given segments. -/
def finish (scheme : List Char) (authority? : Option Authority) (done : List (List Char)) (cs : List Char) : Url where
  scheme := scheme
  authority? := authority?
  path := .segments (readPath scheme done cs)
  query? := readQuery scheme (cs.dropWhile inPathText)

/-- An address whose path begins at the front of a text; a slash there belongs to the path. -/
def finishFromStart (scheme : List Char) (authority? : Option Authority) (cs : List Char) : Url :=
  match cs with
  | [] => if isSpecial scheme then finish scheme authority? [] cs else { scheme, authority?, path := .segments [] }
  | c :: rest =>
    if isSeparator scheme c then finish scheme authority? [] rest
    else if isSpecial scheme ∨ inPathText c then finish scheme authority? [] cs
    else { scheme, authority?, path := .segments [], query? := readQuery scheme cs }

/-! ## Authorities -/

/-- User name and password as they are written in an address. -/
def readCredentials (cs : List Char) : List Char :=
  let encode := Percent.encode Percent.inUserInfo
  let user := encode (cs.takeWhile (· != ':'))
  match cs.dropWhile (· != ':') with
  | _ :: c :: password => user ++ ':' :: encode (c :: password)
  | _ => user

/-- Cuts an authority after the credentials before its last at sign. -/
def cutCredentials? (cs : List Char) : Option (List Char × List Char) :=
  match cs.reverse.dropWhile (· != '@') with
  | _ :: before => some (before.reverse, (cs.reverse.takeWhile (· != '@')).reverse)
  | [] => none

/-- Cuts a text where its host ends; a colon inside square brackets belongs to the host. -/
def cutHost (special : Bool) (inside : Bool) : List Char → List Char × List Char
  | [] => ([], [])
  | c :: cs =>
    if (c = ':' ∧ !inside) ∨ (c = '\\' ∧ special) ∨ c ∈ ['/', '?', '#'] then ([], c :: cs)
    else
      let cut := cutHost special (if c = '[' then true else if c = ']' then false else inside) cs
      (c :: cut.1, cut.2)

/-- Reads a port of at most sixteen bits. Only what may follow an authority may follow it. -/
def cutPort? (cs : List Char) : Option (Option Nat × List Char) :=
  let rest := cs.dropWhile Char.isDigit
  if rest.head?.any fun c => c ∉ ['/', '\\', '?', '#'] then none
  else
    match cs.takeWhile Char.isDigit with
    | [] => some (none, rest)
    | digits =>
      match Text.digits? 10 0 digits with
      | some port => if port ≤ 65535 then some (some port, rest) else none
      | none => none

def readHost? (scheme : List Char) (cs : List Char) : Option (Host × Option Nat × List Char) :=
  let cut := cutHost (isSpecial scheme) false cs
  if isSpecial scheme ∧ cut.1.isEmpty then none
  else
    match if isSpecial scheme then Host.special? cut.1 else Host.general? cut.1 with
    | none => none
    | some host =>
      match cut.2 with
      | ':' :: rest =>
        if host = .name [] then none
        else (cutPort? rest).map fun (port?, rest) => (host, port?.filter (some · != defaultPort? scheme), rest)
      | rest => some (host, none, rest)

/-- Reads what follows the two slashes of an address that is not one of a file. -/
def readAuthority? (scheme : List Char) (cs : List Char) : Option Url :=
  let inAuthority := fun c => c != '/' && c != '?' && c != '#' && !(isSpecial scheme && c == '\\')
  let after := cs.dropWhile inAuthority
  let read := fun credentials cs =>
    match readHost? scheme cs with
    | some (host, port?, rest) =>
      if host = .name [] ∧ credentials ≠ [] then none
      else some (finishFromStart scheme (some { credentials, host, port? }) rest)
    | none => none
  match cutCredentials? (cs.takeWhile inAuthority) with
  | none => read [] cs
  | some ([], host) => if host.isEmpty ∧ !after.isEmpty then none else read [] (host ++ after)
  | some (credentials, host) => read (readCredentials credentials) (host ++ after)

/-! ## Relative addresses -/

/-- The segments below which a relative path starts. -/
def baseSegments (base : Url) : List (List Char) :=
  if base.scheme = fileScheme ∧ base.segments.getLast?.any isNormalDrive then base.segments
  else base.segments.dropLast

/-- Reads an address without a scheme against a base that is not one of a file. -/
def readRelative? (base : Url) (cs : List Char) : Option Url :=
  match cs with
  | [] => some base
  | '?' :: _ => some { base with query? := readQuery base.scheme cs }
  | '#' :: _ => some base
  | c :: rest =>
    if isSlash c then
      if (cs.takeWhile isSlash).length < 2 then some (finish base.scheme base.authority? [] rest)
      else
        match cs with
        | '/' :: '/' :: rest => readAuthority? base.scheme rest
        | _ => readAuthority? base.scheme (cs.dropWhile isSlash)
    else some (finish base.scheme base.authority? (baseSegments base) cs)

/-! ## Files -/

/-- The authority of files that no host serves. -/
def noHost : Authority where
  host := .name []

/-- Whether a text begins with a segment that is a drive letter. -/
def startsWithDriveSegment (cs : List Char) : Bool :=
  startsWithDrive (cs.take 3)

/-- Reads what follows the two slashes of the address of a file. -/
def readFileAuthority? (cs : List Char) : Option Url :=
  let inHost := fun c => !isSlash c && inPathText c
  let host := cs.takeWhile inHost
  let rest := cs.dropWhile inHost
  if isDriveLetter host then some (finish fileScheme (some noHost) [] cs)
  else if host.isEmpty then some (finish fileScheme (some noHost) [] rest)
  else
    match Host.special? host with
    | none => none
    | some host =>
      if host = .name "localhost".toList then some (finish fileScheme (some noHost) [] rest)
      else
        let path := if rest.head?.any isSlash then rest.tail else rest
        some (finish fileScheme (some (if beginsWithDrive path then noHost else { host })) [] path)

/-- Reads the path of a file that begins with a single slash. -/
def readRooted (base? : Option Url) (cs : List Char) : Url :=
  match base? with
  | some base =>
    if startsWithDriveSegment cs then finish fileScheme (some noHost) [] cs
    else
      match base.segments.head? with
      | some drive =>
        if isNormalDrive drive then finish fileScheme (some noHost) [drive] cs
        else finish fileScheme base.authority? [] cs
      | none => finish fileScheme base.authority? [] cs
  | none => finish fileScheme (some noHost) [] cs

/-- Reads the address of a file after its scheme, or one without a scheme against that of a file. -/
def readFile? (base? : Option Url) (cs : List Char) : Option Url :=
  match cs with
  | a :: b :: rest =>
    if isSlash a ∧ isSlash b then readFileAuthority? rest
    else if isSlash a then some (readRooted base? (b :: rest))
    else readFilePath base? cs
  | [a] => if isSlash a then some (readRooted base? []) else readFilePath base? cs
  | [] => readFilePath base? cs
where
  /-- Reads what does not begin with a slash. -/
  readFilePath (base? : Option Url) (cs : List Char) : Option Url :=
    match base?, cs with
    | none, _ => some (finish fileScheme (some noHost) [] cs)
    | some base, [] => some base
    | some base, '?' :: _ => some { base with query? := readQuery fileScheme cs }
    | some base, '#' :: _ => some base
    | some base, _ =>
      if startsWithDriveSegment cs then some (finish fileScheme (some noHost) [] cs)
      else some (finish fileScheme base.authority? (baseSegments base) cs)

/-! ## All addresses -/

/-- Reads what follows a scheme that is not special. -/
def readGeneral? (scheme : List Char) (cs : List Char) : Option Url :=
  match cs with
  | '/' :: '/' :: rest => readAuthority? scheme rest
  | '/' :: rest => some (finish scheme none [] rest)
  | _ => some {
      scheme
      path := .flat (Percent.encode Percent.inControls (cs.takeWhile inPathText))
      query? := readQuery scheme (cs.dropWhile inPathText) }

def readAfterScheme? (base? : Option Url) (scheme : List Char) (cs : List Char) : Option Url :=
  let sameScheme? := base?.filter fun base => base.scheme == scheme
  if scheme = fileScheme then readFile? sameScheme? cs
  else if isSpecial scheme then
    match sameScheme? with
    | some base =>
      if (cs.takeWhile isSlash).length < 2 then readRelative? base cs
      else readAuthority? scheme (cs.dropWhile isSlash)
    | none => readAuthority? scheme (cs.dropWhile isSlash)
  else readGeneral? scheme cs

/-- Reads an address, against a base if there is one. -/
def read? (base? : Option Url) (cs : List Char) : Option Url :=
  let cs := clean cs
  match cutScheme? cs, base? with
  | some (scheme, rest), _ => readAfterScheme? base? scheme rest
  | none, none => none
  | none, some base =>
    if cs.head? = some '#' then some base
    else if !base.isBase then none
    else if base.scheme = fileScheme then readFile? base? cs
    else readRelative? base cs

end ImportTree.Address.Url
