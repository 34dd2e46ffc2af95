import ImportTree.Files.Basic
import ImportTree.Report.Advice
import ImportTree.Settings.Basic

/-!
# Settings files

Settings are read from a file that is named, or from one beside the root document. Without either the
defaults hold.
-/
namespace ImportTree

def Report.Cause.ofFault (fault : Files.Fault) : Report.Cause :=
  .file (if fault = .notFound then .notFound else .other) fault.message

namespace Settings

/-- The name of the settings file beside a root document. -/
def fileName : String :=
  "metatree.toml"

/-- Understands a root directory as relative to the directory of the settings file. -/
def anchored (s : Settings) (path : List Char) : Settings :=
  match s.loader.rootDir? with
  | some dir =>
    let dir := Files.joined (Files.directoryOf path) dir.toList
    { s with loader := { s.loader with rootDir? := some (String.ofList dir) } }
  | none => s

def load (files : Files) (path : String) : Except Report.Trouble Settings :=
  match files.readAt path.toList with
  | .error fault => .error { attempts := ["Failed to read config from " ++ path], cause := .ofFault fault }
  | .ok text =>
    match read? text with
    | none => .error { attempts := ["Failed to parse config from " ++ path], cause := .settings faultText }
    | some s => .ok (s.anchored path.toList)

def pathIn (directory : String) : String :=
  String.ofList (Files.joined directory.toList fileName.toList)

/-- Reads the settings file that is named, or the one in the directory if there is one. -/
def find (files : Files) (explicit? : Option String) (directory : String) : Except Report.Trouble Settings :=
  match explicit? with
  | some path => load files path
  | none => if files.leads (pathIn directory).toList then load files (pathIn directory) else .ok {}

end Settings

end ImportTree
