import ImportTree.Cli.Arguments
import ImportTree.Loader.Directory
import ImportTree.Loader.Routing
import ImportTree.Session.Analysis
import ImportTree.Settings.File
import ImportTree.Tree.Drawing
import ImportTree.Tree.Json
import ImportTree.Tree.Listing

/-!
# Runs of the program

A run finds the document and the settings, analyzes the document below the root directory, and writes
what the command asks for.
-/
namespace ImportTree.Cli

/-! ## Surroundings -/

/-- What a run depends on besides its arguments. -/
structure World where
  files : Files := {}
  network : Remote.Network := Remote.silence
  /-- Whether the output is coloured. -/
  colour : Bool := false

open Report (Trouble)

/-- A failure that is nothing but a message. -/
def plainTrouble (message : String) : Trouble where
  cause := .message message

def fileTrouble (attempt : String) (fault : Files.Fault) : Trouble where
  attempts := [attempt]
  cause := .ofFault fault

def shown (place : Files.Place) : String :=
  String.ofList place.shown

/-! ## Finding documents -/

def directoryOf (document : Files.Place) : String :=
  if document = [] then "." else shown document.dropLast

def addressOf (names : List Files.Name) : String :=
  String.ofList (Text.joinWith '/' (names.map Files.Name.shown))

/-- The failure of a document that is not below the root directory. -/
def outside (document : Files.Place) (root : String) : Trouble where
  attempts := ["Document " ++ shown document ++ " is outside the loader root " ++ root]
  cause := .message "prefix not found"

/-- The root directory: the one that is set, or that of the document. -/
def rootFor (files : Files) (settings : Settings) (document : Files.Place) : Except Trouble Files.Place :=
  match settings.loader.rootDir? with
  | some dir =>
    match files.locate dir.toList with
    | .ok place => .ok place
    | .error fault => .error (fileTrouble ("Loader root " ++ dir ++ " not found") fault)
  | none => if document = [] then .error (outside document ".") else .ok document.dropLast

/-- The settings for a document, with what the arguments add to them. -/
def settingsFor (files : Files) (i : Invocation) (document : Files.Place) : Except Trouble Settings :=
  match Settings.find files i.config? (directoryOf document) with
  | .error t => .error t
  | .ok settings => .ok { settings with
      followImports := settings.followImports && !i.inner.noImports
      attachScripts := settings.attachScripts || i.inner.attachScripts }

/-- The loader that settings describe, if imports are followed at all. -/
def loaderFor (w : World) (settings : Settings) (root : Files.Place) : Option Loader :=
  if settings.followImports then
    some (Loader.routed (Directory.loader w.files (shown root))
      (if settings.loader.allowRemote then some (Remote.loader w.network settings.loader.maxRetries) else none))
  else none

/-- Starts the analysis of a document that has been found. -/
def analysisOf (w : World) (i : Invocation) (document : Files.Place) : Except Trouble Analysis :=
  match settingsFor w.files i document with
  | .error t => .error t
  | .ok settings =>
    match rootFor w.files settings document with
    | .error t => .error t
    | .ok root =>
      match Files.below? root document, w.files.content document with
      | none, _ => .error (outside document (shown root))
      | some _, .error fault => .error (fileTrouble ("Failed to read " ++ shown document) fault)
      | some names, .ok text =>
        match Analysis.start {} (loaderFor w settings root) settings.attachScripts true (addressOf names) text with
        | .ok analysis => .ok analysis
        | .error e => .error { cause := .analysis e }

/-- Starts the analysis that an invocation asks for. -/
def analysis (w : World) (i : Invocation) : Except Trouble Analysis :=
  match w.files.locate i.document.toList with
  | .ok document => analysisOf w i document
  | .error fault => .error (fileTrouble ("Document " ++ i.document ++ " not found") fault)

/-! ## Writing -/

def unlines (lines : List String) : String :=
  String.join (lines.map (· ++ "\n"))

/-- A text without white space at its end, and then a line end. -/
def trimmed (text : String) : String :=
  String.ofList (Text.trimRight text.toList) ++ "\n"

def writeTree (colour : Bool) (format : String) (tree : Tree) : String :=
  if format = "json" then trimmed tree.toJson.pretty
  else if format = "text" then trimmed (unlines tree.listing)
  else trimmed (unlines (tree.drawing colour))

def writeAddresses (format : String) (addresses : List String) : String :=
  if format = "json" then (Report.Json.array (addresses.map .text)).pretty ++ "\n"
  else unlines addresses

/-! ## Commands -/

def Command.formats : Command → List String
  | .tree => ["tree", "json", "text"]
  | .deps => ["text", "json"]

/-- Refuses formats that the command does not have, and trees without any imports. -/
def checkRequest (i : Invocation) : Except Trouble Unit :=
  if i.format ∉ i.command.formats then
    .error (plainTrouble ("Invalid format '" ++ i.format ++ "'. Valid formats are: " ++
      String.intercalate ", " i.command.formats))
  else if i.inner.depth? = some 0 then .error (plainTrouble "Depth must be at least 1")
  else .ok ()

def Command.step : Command → Analysis.Step
  | .tree => .tree
  | .deps => .dependencies

/-- The answer to a command, written as the invocation asks for. -/
def write (w : World) (i : Invocation) : Analysis.Answer → Except Trouble String
  | .tree tree =>
    let tree := match i.inner.depth? with
      | some depth => { tree with imports := tree.imports.limit depth }
      | none => tree
    .ok (writeTree w.colour i.format tree)
  | .addresses list => .ok (writeAddresses i.format list)
  | .failed e => .error { cause := .analysis e }
  | _ => .error (plainTrouble "The analysis did not come to an end")

/-- What an invocation writes to the standard output. -/
def perform (w : World) (i : Invocation) : Except Trouble String :=
  match checkRequest i with
  | .error t => .error t
  | .ok () =>
    match analysis w i with
    | .error t => .error t
    | .ok analysis => write w i (analysis.perform i.command.step).1

/-! ## Outcomes -/

/-- What a run comes to. -/
structure Outcome where
  exitCode : Nat
  output : String := ""
  errors : String := ""
deriving DecidableEq, Repr

def outcome (w : World) (i : Invocation) : Outcome :=
  match perform w i with
  | .ok output => { exitCode := 0, output }
  | .error t => { exitCode := 1, errors := (Report.Advice.ofTrouble t).report w.colour }

/-! ## Files that matter -/

/-- The written paths that a run looks at for its document. -/
def pathsFor (w : World) (i : Invocation) (document : Files.Place) : List String :=
  let config := i.config?.getD (Settings.pathIn (directoryOf document))
  let root? := match settingsFor w.files i document with | .ok settings => settings.loader.rootDir? | .error _ => none
  [shown document, config] ++ root?.toList

/-- The places of the documents that an analysis asks for. -/
def placesFor (w : World) (i : Invocation) (document : Files.Place) : List Files.Place :=
  match settingsFor w.files i document, analysisOf w i document with
  | .ok settings, .ok analysis =>
    match rootFor w.files settings document with
    | .ok root =>
      (analysis.perform i.command.step).2.session.extractor.requests.filterMap fun address =>
        (Directory.placeOf w.files.current (shown root) address).toOption
    | .error _ => []
  | _, _ => []

/-- Every place that a run looks at. What is at these places decides the outcome. -/
def places (w : World) (i : Invocation) : List Files.Place :=
  let ofPath := fun (path : String) => w.files.trail path.toList
  match w.files.locate i.document.toList with
  | .error _ => ofPath i.document
  | .ok document =>
    (ofPath i.document ++ (pathsFor w i document).flatMap ofPath ++
      (placesFor w i document).flatMap fun place => ofPath (shown place))

end ImportTree.Cli
