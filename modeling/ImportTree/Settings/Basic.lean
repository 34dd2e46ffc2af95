import ImportTree.Loader.Remote
import ImportTree.Toml.Document

/-!
# Settings

How documents are analyzed and where they come from. Settings are written as a TOML document, in which
every key is optional and no other key is allowed.
-/
namespace ImportTree

/-- Where documents come from. -/
structure LoaderSettings where
  /-- Whether addresses of the web are requested. -/
  allowRemote : Bool := false
  maxRetries : Nat := Remote.defaultRetries
  /-- The directory that local addresses are confined to. -/
  rootDir? : Option String := none
deriving DecidableEq, Repr

/-- How documents are analyzed. -/
structure Settings where
  /-- Whether declarations keep the scripts that they stand in. -/
  attachScripts : Bool := false
  /-- Whether imports and external scripts are loaded. -/
  followImports : Bool := true
  loader : LoaderSettings := {}
deriving DecidableEq, Repr

namespace LoaderSettings

def keys : List String :=
  ["allow_remote", "max_retries", "root_dir"]

/-- Takes in an entry of the table. A number of retries has at most 64 bits. -/
def set (s : LoaderSettings) : String × Toml.Value → Option LoaderSettings
  | ("allow_remote", .boolean b) => some { s with allowRemote := b }
  | ("max_retries", .integer n) => if 0 ≤ n ∧ n.toNat < UInt64.size then some { s with maxRetries := n.toNat } else none
  | ("root_dir", .text path) => some { s with rootDir? := some path }
  | _ => none

/-- The settings in a table, or in an array of the values of its keys in order. -/
def ofValue? : Toml.Value → Option LoaderSettings
  | .table _ entries => entries.foldlM set {}
  | .array items => (keys.zip items).foldlM set {}
  | _ => none

end LoaderSettings

namespace Settings

def set (s : Settings) : String × Toml.Value → Option Settings
  | ("attach_scripts", .boolean b) => some { s with attachScripts := b }
  | ("follow_imports", .boolean b) => some { s with followImports := b }
  | ("loader", value) =>
    match LoaderSettings.ofValue? value with
    | some loader => some { s with loader }
    | none => none
  | _ => none

def read? (text : String) : Option Settings :=
  match Toml.read? text with
  | some entries => entries.foldlM set {}
  | none => none

/-- The words for a text that holds no settings. -/
def faultText : String :=
  "<toml error>"

end Settings

end ImportTree
