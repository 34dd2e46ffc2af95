import ImportTree.Markup.Structure
import ImportTree.Script.Declarations
import ImportTree.Session.Walk

/-!
# Analyses

An analysis is a session with a root document. It is driven by steps, each of which answers.
-/
namespace ImportTree

/-! ## Starting -/

/-- How documents and scripts are read. -/
structure Readers where
  markup : String → Except SyntaxFault Structure := Structure.read
  script : String → Bool → Except SyntaxFault Metadata := Script.read

/-- A session with a root document. -/
structure Analysis where
  session : Session
  root : String

namespace Analysis

def start (readers : Readers) (loader? : Option Loader) (attach eager : Bool) (root text : String) :
    Except AnalysisError Analysis :=
  let session : Session :=
    { extractor := { loader?, readScript := readers.script, attach }, readMarkup := readers.markup, eager }
  match session.resolve root text with
  | (.ok (), session) => .ok { session, root }
  | (.error e, _) => .error e

/-! ## Steps -/

/-- What an analysis can be asked to do. -/
inductive Step where
  /-- Builds the tree of the root. -/
  | tree
  /-- Lists what the root imports, directly or not. -/
  | dependencies
  | dependenciesOf (address : String)
  /-- Asks the root document itself for what it declares. -/
  | rootMetadata
  /-- Asks the root document itself for what it imports. -/
  | rootImports
  | metadata (address : String)
  | imports (address : String)
  | resolve (address text : String)
  | load (address : String)
  /-- Changes what the loader answers. -/
  | insert (address text : String)
  | idle
  | sleep (time : Nat)
  | drop
deriving DecidableEq, Repr

/-- What a step answers. -/
inductive Answer where
  | tree (tree : Tree)
  | addresses (list : List String)
  | metadata (declared : Metadata)
  | document (address : String) (markup : Structure)
  | failed (error : AnalysisError)
  /-- The document asked for is not there. -/
  | unknown
  /-- The analysis has been given up. -/
  | gone
  | nothing
  /-- The step ran out of steps of its own. -/
  | unfinished
deriving DecidableEq, Repr

def answer {α : Type} (a : Analysis) (success : α → Answer) : Session.Walk α → Answer × Analysis
  | (some (.ok value), session) => (success value, { a with session })
  | (some (.error e), session) => (.failed e, { a with session })
  | (none, session) => (.unfinished, { a with session })

/-- Waits for a goal about one document, and answers with what it has found. -/
def ask {α : Type} (a : Analysis) (goal : Session.Goal) (address : String) (value? : Document → Option α)
    (success : α → Answer) : Answer × Analysis :=
  match a.session.await goal with
  | (some (.error e), session) => (.failed e, { a with session })
  | (none, session) => (.unfinished, { a with session })
  | (some (.ok ()), session) =>
    match (session.document? address).bind value? with
    | some value => (success value, { a with session })
    | none => (.unfinished, { a with session })

/-- The declarations of a document, once they have been found. -/
def declared? (d : Document) : Option Metadata :=
  match d.extraction.result? with
  | some (.ok declared) => some declared
  | _ => none

/-- The imports of a document, once they have been found. -/
def imports? (d : Document) : Option (List String) :=
  match d.imports.result? with
  | some (.ok targets) => some targets
  | _ => none

def document? (d : Document) : Option (String × Structure) :=
  some (d.address, d.markup)

/-- Performs a step, whether or not the analysis has been given up. -/
def performAnyway (a : Analysis) : Step → Answer × Analysis
  | .tree => a.answer .tree (a.session.tree a.root)
  | .dependencies => a.answer .addresses (a.session.dependencies a.root)
  | .dependenciesOf address => a.answer .addresses (a.session.dependencies address)
  | .rootMetadata => a.ask (.metadata a.root) a.root declared? .metadata
  | .rootImports => a.ask (.imports a.root) a.root imports? .addresses
  | .metadata address =>
    if a.session.holds address then a.ask (.metadata address) address declared? .metadata else (.unknown, a)
  | .imports address =>
    if a.session.holds address then a.ask (.imports address) address imports? .addresses else (.unknown, a)
  | .resolve address text =>
    match a.session.resolve address text with
    | (.ok (), session) =>
      match session.document? address with
      | some d => (.document d.address d.markup, { a with session })
      | none => (.unknown, { a with session })
    | (.error e, session) => (.failed e, { a with session })
  | .load address => a.ask (.load address) address document? fun d => .document d.1 d.2
  | .insert address text => (.nothing, { a with session := a.session.insert address text })
  | .idle => (.nothing, { a with session := a.session.idle })
  | .sleep time => (.nothing, { a with session := a.session.sleep time })
  | .drop => (.nothing, { a with session := a.session.drop })

/-- Whether a step can be performed when the analysis has been given up: its root can still be asked
for what it declares and imports, and the loader and the clock live on. -/
def Step.survivesDrop : Step → Bool
  | .rootMetadata | .rootImports | .insert _ _ | .idle | .sleep _ => true
  | _ => false

/-- Performs a step, if the analysis has not been given up or the step does not need it. -/
def perform (a : Analysis) (step : Step) : Answer × Analysis :=
  if a.session.dropped && !step.survivesDrop then (.gone, a) else a.performAnyway step

def run (a : Analysis) : List Step → List Answer × Analysis
  | [] => ([], a)
  | step :: steps =>
    match a.perform step with
    | (answer, a) =>
      match a.run steps with
      | (answers, a) => (answer :: answers, a)

end Analysis

end ImportTree
