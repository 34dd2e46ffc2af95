import ImportTree.Address.Url.Host

/-!
# Structured addresses

An address with a scheme, in its parts. The fragment is left out, since it never selects another
document. `Url.text` writes an address in its normal form.
-/
namespace ImportTree.Address

/-- Where a resource is served. -/
structure Url.Authority where
  /-- User name and password as they are written. -/
  credentials : List Char := []
  host : Url.Host
  port? : Option Nat := none
deriving DecidableEq, Repr

/-- The path of an address. -/
inductive Url.Path where
  /-- A text without inner structure; nothing is relative to it. -/
  | flat (text : List Char)
  /-- Segments, each written after a slash. -/
  | segments (list : List (List Char))
deriving DecidableEq, Repr

/-- An address with a scheme. -/
structure Url where
  scheme : List Char
  authority? : Option Url.Authority := none
  path : Url.Path
  query? : Option (List Char) := none
deriving DecidableEq, Repr

namespace Url

/-! ## Schemes -/

def fileScheme : List Char :=
  "file".toList

def defaultPort? (scheme : List Char) : Option Nat :=
  [("http".toList, 80), ("https".toList, 443), ("ws".toList, 80), ("wss".toList, 443), ("ftp".toList, 21)].lookup scheme

/-- Whether an address with this scheme always has a host and a path. -/
def isSpecial (scheme : List Char) : Bool :=
  scheme == fileScheme || (defaultPort? scheme).isSome

/-! ## Writing -/

def Path.text : Path → List Char
  | .flat text => text
  | .segments list => list.flatMap ('/' :: ·)

def Authority.text (a : Authority) : List Char :=
  (if a.credentials.isEmpty then [] else a.credentials ++ ['@']) ++ a.host.text ++
    (match a.port? with | some port => ':' :: Host.decimal port | none => [])

/-- What stands between scheme and path. Without an authority the path must not begin with two
slashes, and a dot is put before it. -/
def authorityText (url : Url) : List Char :=
  match url.authority?, url.path with
  | some a, _ => '/' :: '/' :: a.text
  | none, .segments ([] :: _ :: _) => ['/', '.']
  | none, _ => []

def text (url : Url) : List Char :=
  url.scheme ++ ':' :: url.authorityText ++ url.path.text ++
    (match url.query? with | some query => '?' :: query | none => [])

def isBase (url : Url) : Bool :=
  match url.authority?, url.path with
  | some _, _ => true
  | none, .segments _ => true
  | none, .flat _ => false

def segments (url : Url) : List (List Char) :=
  match url.path with
  | .flat _ => []
  | .segments list => list

end Url

end ImportTree.Address
