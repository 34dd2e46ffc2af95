import ImportTree.Session.State

/-!
# The passing of time

Work is done in the background in the order in which documents were read. When neither the background
nor the foreground can go on, time passes up to the next response. A goal in the foreground is polled
again after every such step, until it is reached.
-/
namespace ImportTree.Session

/-! ## The clock -/

def clock (s : Session) : Nat :=
  s.extractor.clock

def advance (s : Session) (time : Nat) : Session :=
  { s with extractor := { s.extractor with clock := time } }

/-- The time at which the response to a fetch is expected. -/
def fetchDue? : String × Fetch → Option Nat
  | (_, .waiting due) => some due
  | (_, .done _) => none

/-- The times after the present at which responses are expected. -/
def dues (s : Session) : List Nat :=
  (s.fetches.filterMap fetchDue? ++ s.documents.flatMap fun d => d.extraction.dues).filter (s.clock < ·)

/-! ## Background -/

def extent (s : Session) : Nat :=
  match s.extractor.loader? with
  | some loader => loader.extent
  | none => 0

/-- Polls the background documents in turn, `n` of them at most. Those that still wait are kept in
`parked`, and those that are added meanwhile come last. -/
def drain : Nat → List String → Session → Session
  | 0, parked, s => { s with queue := parked ++ s.queue }
  | n + 1, parked, s =>
    match s.queue with
    | [] => { s with queue := parked }
    | address :: rest =>
      match { s with queue := rest }.pollImports address with
      | (some _, s) => drain n parked s
      | (none, s) => drain n (parked ++ [address]) s

/-- Does all background work that can be done at the present time. -/
def work (s : Session) : Session :=
  drain (s.queue.length + s.extent + 1) [] s

/-- Does the background work, and lets time pass up to the next response. -/
def pass (s : Session) : Session :=
  match s.work.dues.min? with
  | some due => s.work.advance due
  | none => s.work

/-- Lets time pass up to a deadline, with at most `n` stops. -/
def runTo (deadline : Nat) : Nat → Session → Session
  | 0, s => s.work.advance deadline
  | n + 1, s =>
    match s.work.dues.min? with
    | some due => if due ≤ deadline then runTo deadline n (s.work.advance due) else s.work.advance deadline
    | none => s.work.advance deadline

def sleep (s : Session) (time : Nat) : Session :=
  runTo (s.clock + time) (time + 1) s

/-- The time of the last response that is expected now. -/
def horizon (s : Session) : Nat :=
  s.dues.max?.getD s.clock

/-- Lets time pass until no background work is left, in at most `n` rounds. -/
def idleFor : Nat → Session → Session
  | 0, s => s.work
  | n + 1, s =>
    let s := s.work
    if s.queue.isEmpty then s else idleFor n (s.sleep (s.horizon - s.clock))

/-- Lets time pass until no background work is left. -/
def idle (s : Session) : Session :=
  idleFor (s.extent + 1) s

/-! ## Foreground -/

/-- What the foreground waits for. -/
inductive Goal where
  /-- A document at the address. -/
  | load (address : String)
  | metadata (address : String)
  | imports (address : String)
  /-- Declarations and imports of the document at the address; either may fail first. -/
  | both (address : String)
deriving DecidableEq, Repr

/-- A result without its value. -/
def outcome {α : Type} : Option (Except AnalysisError α) → Option (Except AnalysisError Unit)
  | some (.ok _) => some (.ok ())
  | some (.error e) => some (.error e)
  | none => none

def pollGoal (s : Session) : Goal → Option (Except AnalysisError Unit) × Session
  | .load address => s.pollLoad address
  | .metadata address =>
    match s.pollMetadata address with
    | (r, s) => (outcome r, s)
  | .imports address =>
    match s.pollImports address with
    | (r, s) => (outcome r, s)
  | .both address =>
    match s.pollMetadata address with
    | (some (.error e), s) => (some (.error e), s)
    | (declared?, s) =>
      match s.pollImports address, declared? with
      | (some (.error e), s), _ => (some (.error e), s)
      | (some (.ok _), s), some _ => (some (.ok ()), s)
      | (_, s), _ => (none, s)

/-- Polls a goal until it is reached, with at most `n` passes of time. -/
def awaitFor (goal : Goal) : Nat → Session → Option (Except AnalysisError Unit) × Session
  | 0, s => s.pollGoal goal
  | n + 1, s =>
    match s.pollGoal goal with
    | (some r, s) => (some r, s)
    | (none, s) => awaitFor goal n s.pass

/-- Waits until a goal is reached. Whatever it waits for is expected before the horizon. -/
def await (s : Session) (goal : Goal) : Option (Except AnalysisError Unit) × Session :=
  match s.pollGoal goal with
  | (some r, s) => (some r, s)
  | (none, s) => awaitFor goal (s.horizon - s.clock) s.pass

end ImportTree.Session
