import ImportTree.Metadata.Binding
import ImportTree.Session.Schedule
import ImportTree.Tree.Basic

/-!
# Walks over imports

Two walks over the documents that are reached from one: depth first to a tree, in which every address is
expanded at most once, and breadth first to the list of addresses. A walk takes a number of steps that
bounds the documents it visits; without a result it ran out of them.
-/
namespace ImportTree.Session

/-- A walk that may run out of steps, may fail, and changes the session. -/
abbrev Walk (α : Type) := Option (Except AnalysisError α) × Session

/-! ## Depth first -/

/-- The imports in a tree, and the addresses visited so far. -/
abbrev Visited := Imports × List String

/-- Visits imports in order. An address that was visited before becomes a placeholder; any other one is
loaded and visited. -/
def visitEach (visit : String → List String → Session → Walk (Tree × List String)) :
    List String → List String → Session → Walk Visited
  | [], visited, s => (some (.ok (.nil, visited)), s)
  | address :: rest, visited, s =>
    if address ∈ visited then
      match visitEach visit rest visited s with
      | (some (.ok (imports, visited)), s) => (some (.ok (.placeholder address imports, visited)), s)
      | failed => failed
    else
      match s.await (.load address) with
      | (none, s) => (none, s)
      | (some (.error e), s) => (some (.error e), s)
      | (some (.ok ()), s) =>
        match visit address (address :: visited) s with
        | (none, s) => (none, s)
        | (some (.error e), s) => (some (.error e), s)
        | (some (.ok (tree, visited)), s) =>
          match visitEach visit rest visited s with
          | (some (.ok (imports, visited)), s) =>
            (some (.ok (.expanded tree.page tree.imports imports, visited)), s)
          | failed => failed

/-- The page of a document whose declarations have been found. -/
def page (d : Document) (declared : Metadata) : Page where
  address := d.address
  elements := bindTemplates d.markup declared.elements
  modules := declared.modules
  markup := d.markup

/-- Visits the document at an address, and its imports below it. -/
def visit : Nat → String → List String → Session → Walk (Tree × List String)
  | 0, _, _, s => (none, s)
  | n + 1, address, visited, s =>
    match s.await (.both address) with
    | (none, s) => (none, s)
    | (some (.error e), s) => (some (.error e), s)
    | (some (.ok ()), s) =>
      match s.document? address with
      | none => (none, s)
      | some d =>
        match d.extraction.result?, d.imports.result? with
        | some (.ok declared), some (.ok targets) =>
          match visitEach (visit n) targets visited s with
          | (some (.ok (imports, visited)), s) => (some (.ok (⟨page d declared, imports⟩, visited)), s)
          | (some (.error e), s) => (some (.error e), s)
          | (none, s) => (none, s)
        | _, _ => (none, s)

/-- A bound on the number of documents that a walk can visit. -/
def walkBound (s : Session) : Nat :=
  s.documents.length + s.extent + 1

def tree (s : Session) (root : String) : Walk Tree :=
  match visit s.walkBound root [root] s with
  | (some (.ok (tree, _)), s) => (some (.ok tree), s)
  | (some (.error e), s) => (some (.error e), s)
  | (none, s) => (none, s)

/-! ## Breadth first -/

/-- The addresses among the targets that were not seen before, each once. -/
def unseen (seen : List String) : List String → List String
  | [] => []
  | target :: targets =>
    if target ∈ seen then unseen seen targets else target :: unseen (target :: seen) targets

/-- Walks on from the addresses in the queue; `seen` holds every address that was ever in it. -/
def walkQueue : Nat → List String → List String → Session → Walk (List String)
  | _, [], _, s => (some (.ok []), s)
  | 0, _, _, s => (none, s)
  | n + 1, address :: queue, seen, s =>
    match s.await (.load address) with
    | (none, s) => (none, s)
    | (some (.error e), s) => (some (.error e), s)
    | (some (.ok ()), s) =>
      match s.await (.imports address) with
      | (none, s) => (none, s)
      | (some (.error e), s) => (some (.error e), s)
      | (some (.ok ()), s) =>
        match (s.document? address).bind (·.imports.result?) with
        | some (.ok targets) =>
          let new := unseen seen targets
          match walkQueue n (queue ++ new) (seen ++ new) s with
          | (some (.ok found), s) => (some (.ok (new ++ found)), s)
          | failed => failed
        | _ => (none, s)

/-- Every address that is imported from the start, directly or not, the nearest first. -/
def dependencies (s : Session) (start : String) : Walk (List String) :=
  walkQueue s.walkBound [start] [start] s

end ImportTree.Session
