import ImportTree.Address.Resolve
import ImportTree.Loader.Basic
import ImportTree.Markup.Node
import ImportTree.Metadata.Registry
import ImportTree.Markup.Fault

/-!
# Extraction of declarations

The scripts of a document are read in order, external ones after their text has come from the loader,
and what they declare is entered into the registries. An extraction advances as far as it can each time
it is polled; where it waits for a response it is polled again later. Where several scripts are under way,
the failure of one of them may be held back until those before it are done.
-/
namespace ImportTree

/-! ## Tasks that are waited for together -/

/-- When the failure of one of several tasks that are waited for together is reported. Until then it is held back, and
the tasks behind it go on. -/
structure Joining where
  /-- Whether a failure among so many tasks is reported while so many of those before it are not done. -/
  reports : (count pending : Nat) → Bool
  /-- With all tasks before it done, a failure is reported. -/
  prompt : ∀ count, reports count 0 = true

namespace Joining

/-- Up to so many tasks fail together at once, and more of them in their order. -/
def upTo (limit : Nat) : Joining where
  reports count pending := count ≤ limit || pending == 0
  prompt count := by simp

/-- What is reported of a task: its result, unless it is a failure that is held back. -/
def report {α : Type} (j : Joining) (count pending : Nat) :
    Option (Except AnalysisError α) → Option (Except AnalysisError α)
  | some (.error e) => if j.reports count pending then some (.error e) else none
  | result? => result?

end Joining

/-! ## What extractions share -/

/-- What is asked of the loader: the text of a document, or that of a script. -/
inductive Request where
  | document (address : String)
  | script (address : String)
deriving DecidableEq, Repr

def Request.address : Request → String
  | .document address => address
  | .script address => address

/-- The loader, the registries and the clock that all extractions of an analysis share. -/
structure Extractor where
  loader? : Option Loader
  readScript : String → Bool → Except SyntaxFault Metadata
  /-- Whether declarations carry the text of their script. -/
  attach : Bool := false
  /-- How scripts, and fetches of imports, are waited for together. -/
  joining : Joining := .upTo 30
  registries : Registries := {}
  /-- What was requested from the loader, the latest first. -/
  log : List Request := []
  clock : Nat := 0

namespace Extractor

/-- The addresses that were requested from the loader, the latest first. -/
def requests (x : Extractor) : List String :=
  x.log.map Request.address

def request (x : Extractor) (r : Request) : Extractor :=
  { x with log := r :: x.log }

/-- Reads the text of a script and declares its names. -/
def declare (x : Extractor) (base : String) (scriptAddress? : Option String) (text : String) :
    Except AnalysisError Metadata × Extractor :=
  match x.readScript text x.attach with
  | .error fault => (.error (.unreadable (scriptAddress?.getD base) fault.message), x)
  | .ok m =>
    let m := m.locate base scriptAddress?
    match x.registries.registerAll m with
    | (registries, none) => (.ok m, { x with registries })
    | (registries, some e) => (.error e, { x with registries })

/-- Takes the response for the address of a script. -/
def receive (x : Extractor) (base address : String) (loader : Loader) : Except AnalysisError Metadata × Extractor :=
  match loader.answer address with
  | .ok text => x.declare base (some address) text
  | .error failure => (.error (.notLoaded address failure), x)

end Extractor

/-! ## One script -/

def scriptTypes : List String :=
  ["text/javascript", "application/javascript", "application/ecmascript", "text/ecmascript", "module"]

/-- Whether a script is to be read: it has no type, an empty one, or a known one before any parameters. -/
def Node.isReadableScript (node : Node) : Bool :=
  match node.attribute? "type" with
  | none => true
  | some type =>
    let type := Text.trim (type.toList.takeWhile (· != ';'))
    type.isEmpty || scriptTypes.any fun known => Text.sameLetters known.toList type

/-- How far the extraction of a script has come. -/
inductive ScriptTask where
  | fresh (node : Node)
  /-- The response for the address comes at the given time. -/
  | waiting (address : String) (due : Nat)
  | done (declared : Metadata)
  /-- A failure that is held back. -/
  | failed (error : AnalysisError)

namespace ScriptTask

/-- Takes the response for the address of a script. -/
def receive (x : Extractor) (base address : String) (loader : Loader) :
    Except AnalysisError ScriptTask × Extractor :=
  match x.receive base address loader with
  | (.ok declared, x) => (.ok (.done declared), x)
  | (.error e, x) => (.error e, x)

/-- Requests the script at an address, and takes the response if it is there at once. -/
def request (x : Extractor) (base address : String) (loader : Loader) :
    Except AnalysisError ScriptTask × Extractor :=
  let x := x.request (.script address)
  if loader.delay address = 0 then receive x base address loader
  else (.ok (.waiting address (x.clock + loader.delay address)), x)

/-- Begins a script: what it needs is requested, and what is there is read. -/
def begin (x : Extractor) (base : String) (node : Node) : Except AnalysisError ScriptTask × Extractor :=
  match node.isReadableScript, node.text?, node.attribute? "src", x.loader? with
  | false, _, _, _ => (.ok (.done {}), x)
  | true, some text, _, _ =>
    match x.declare base none text with
    | (.ok declared, x) => (.ok (.done declared), x)
    | (.error e, x) => (.error e, x)
  | true, none, some target, some loader =>
    match Address.resolve base target with
    | .ok address => request x base address loader
    | .error e => (.error e, x)
  | true, none, _, _ => (.ok (.done {}), x)

def poll (x : Extractor) (base : String) : ScriptTask → Except AnalysisError ScriptTask × Extractor
  | .fresh node => begin x base node
  | .waiting address due =>
    match x.loader? with
    | some loader => if due ≤ x.clock then receive x base address loader else (.ok (.waiting address due), x)
    | none => (.ok (.waiting address due), x)
  | .done declared => (.ok (.done declared), x)
  | .failed e => (.error e, x)

/-- Advances a script behind so many that are not done, and holds its failure back until it is reported. -/
def advance (x : Extractor) (base : String) (count pending : Nat) (task : ScriptTask) :
    Except AnalysisError ScriptTask × Extractor :=
  match task.poll x base with
  | (.ok task, x) => (.ok task, x)
  | (.error e, x) => if x.joining.reports count pending then (.error e, x) else (.ok (.failed e), x)

def due? : ScriptTask → Option Nat
  | .waiting _ due => some due
  | _ => none

def isDone : ScriptTask → Bool
  | .done _ => true
  | _ => false

end ScriptTask

/-! ## All scripts of a document -/

/-- The declarations of a document, or how far its scripts have come. -/
inductive Extraction where
  | running (tasks : List ScriptTask)
  | done (result : Except AnalysisError Metadata)

namespace Extraction

/-- An extraction that has not begun. -/
def start (scripts : List Node) : Extraction :=
  .running (scripts.map .fresh)

/-- Advances scripts in order behind so many that are not done, up to the first failure that is reported. -/
def pollTasks (x : Extractor) (base : String) (count pending : Nat) :
    List ScriptTask → Except AnalysisError (List ScriptTask) × Extractor
  | [] => (.ok [], x)
  | task :: tasks =>
    match task.advance x base count pending with
    | (.error e, x) => (.error e, x)
    | (.ok task, x) =>
      match pollTasks x base count (if task.isDone then pending else pending + 1) tasks with
      | (.error e, x) => (.error e, x)
      | (.ok tasks, x) => (.ok (task :: tasks), x)

/-- What all scripts declare, once each is done. -/
def gather? : List ScriptTask → Option Metadata
  | [] => some {}
  | .done declared :: tasks => (gather? tasks).map declared.append
  | _ :: _ => none

/-- Advances an extraction for the document at the base. -/
def poll (x : Extractor) (base : String) : Extraction → Extraction × Extractor
  | .running tasks =>
    match pollTasks x base tasks.length 0 tasks with
    | (.error e, x) => (.done (.error e), x)
    | (.ok tasks, x) =>
      match gather? tasks with
      | some declared => (.done (.ok declared), x)
      | none => (.running tasks, x)
  | .done result => (.done result, x)

/-- The result, once there is one. -/
def result? : Extraction → Option (Except AnalysisError Metadata)
  | .running _ => none
  | .done result => some result

def dues : Extraction → List Nat
  | .running tasks => tasks.filterMap ScriptTask.due?
  | .done _ => []

/-- Polls an extraction again at each time at which a response is expected, `n` times at most. -/
def finish (base : String) : Nat → Extraction → Extractor → Extraction × Extractor
  | 0, extraction, x => extraction.poll x base
  | n + 1, extraction, x =>
    match extraction.poll x base with
    | (.done result, x) => (.done result, x)
    | (.running tasks, x) =>
      match ((Extraction.running tasks).dues.filter (x.clock < ·)).min? with
      | some due => finish base n (.running tasks) { x with clock := due }
      | none => (.running tasks, x)

end Extraction

/-- Extracts the declarations of scripts of the document at the base, waiting for every response. -/
def Extractor.extract (x : Extractor) (base : String) (scripts : List Node) :
    Option (Except AnalysisError Metadata) × Extractor :=
  let (extraction, x) := Extraction.finish base (scripts.length + 1) (Extraction.start scripts) x
  (extraction.result?, x)

end ImportTree
