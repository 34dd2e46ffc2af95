import ImportTree.Session.Extraction

/-!
# Sessions

A session holds what an analysis has read so far. Every address has at most one document, whose text is
read once; its declarations and its imports are found once, by an extraction and an import walk that
advance when they are polled. Every address is fetched at most once.

A session changes only through `resolve`, the four polls, `insert` and `drop`, and the passing of time.
-/
namespace ImportTree

/-! ## Documents -/

/-- The imports of a document, or how far it has come with them. -/
inductive ImportWalk where
  | idle
  /-- The targets, and those among them that were not there when the walk began. -/
  | waiting (targets awaited : List String)
  | done (result : Except AnalysisError (List String))

/-- The result, once there is one. -/
def ImportWalk.result? : ImportWalk → Option (Except AnalysisError (List String))
  | .done result => some result
  | _ => none

/-- A document that has been read. -/
structure Document where
  address : String
  markup : Structure
  extraction : Extraction
  imports : ImportWalk := .idle

namespace Document

/-- A document of which nothing but the markup is known. -/
def fresh (address : String) (markup : Structure) : Document :=
  { address, markup, extraction := Extraction.start markup.scripts }

/-- The references of the import links that are not blank, in order. -/
def references (markup : Structure) : List String :=
  (markup.imports.filterMap (·.attribute? "href")).filter fun target => !Text.isAllSpace target.toList

/-- The addresses that the import links name, unless one of them names none. -/
def targets (d : Document) : Except AnalysisError (List String) :=
  (references d.markup).mapM (Address.resolve d.address)

end Document

/-- How far the fetch of a document has come. -/
inductive Fetch where
  /-- The response comes at the given time. -/
  | waiting (due : Nat)
  | done (result : Except AnalysisError Unit)

/-! ## Sessions -/

/-- The state of an analysis. -/
structure Session where
  extractor : Extractor
  readMarkup : String → Except SyntaxFault Structure
  /-- Whether new documents are worked on before anything asks for them. -/
  eager : Bool := true
  /-- The documents in the order in which they were read. -/
  documents : List Document := []
  fetches : List (String × Fetch) := []
  /-- The documents whose imports are walked in the background. -/
  queue : List String := []
  /-- Whether the analysis has been given up. -/
  dropped : Bool := false

namespace Session

def document? (s : Session) (address : String) : Option Document :=
  s.documents.find? (·.address == address)

def holds (s : Session) (address : String) : Bool :=
  (s.document? address).isSome

def update (s : Session) (address : String) (d : Document) : Session :=
  { s with documents := s.documents.map fun old => if old.address = address then d else old }

def addresses (s : Session) : List String :=
  (s.documents.map (·.address)).mergeSort fun a b => !decide (b < a)

/-! ## Reading -/

/-- Reads the text of the document at an address. A document that is there already stays as it is. -/
def resolve (s : Session) (address text : String) : Except AnalysisError Unit × Session :=
  if s.holds address then (.ok (), s)
  else
    match s.readMarkup text with
    | .error fault => (.error (.unreadable address fault.message), s)
    | .ok markup =>
      (.ok (), { s with
        documents := s.documents ++ [Document.fresh address markup]
        queue := if s.eager then s.queue ++ [address] else s.queue })

/-! ## Fetching -/

def endFetch (s : Session) (address : String) (result : Except AnalysisError Unit) :
    Option (Except AnalysisError Unit) × Session :=
  (some result, { s with fetches := (address, .done result) :: s.fetches })

/-- Takes the response for the address of a document. -/
def receive (s : Session) (address : String) (loader : Loader) : Option (Except AnalysisError Unit) × Session :=
  match loader.answer address with
  | .error failure => s.endFetch address (.error (.notLoaded address failure))
  | .ok text =>
    if s.dropped then s.endFetch address (.error (.detached address))
    else
      match s.resolve address text with
      | (result, s) => s.endFetch address result

/-- Requests the document at an address, and takes the response if it is there at once. -/
def beginFetch (s : Session) (address : String) (loader : Loader) : Option (Except AnalysisError Unit) × Session :=
  let s := { s with extractor := s.extractor.request (.document address) }
  if loader.delay address = 0 then s.receive address loader
  else (none, { s with fetches := (address, .waiting (s.extractor.clock + loader.delay address)) :: s.fetches })

/-- Why there is nothing at an address when there is no loader. -/
def noLoader (address : String) : AnalysisError :=
  .notLoaded address { message := "No loader configured to fetch '" ++ address ++ "'" }

/-- Advances the fetch of an address, which begins the first time. -/
def pollFetch (s : Session) (address : String) : Option (Except AnalysisError Unit) × Session :=
  match s.fetches.lookup address, s.extractor.loader? with
  | some (.done result), _ => (some result, s)
  | some (.waiting due), some loader =>
    if due ≤ s.extractor.clock then s.receive address loader else (none, s)
  | some (.waiting _), none => (none, s)
  | none, some loader =>
    if s.dropped then s.endFetch address (.error (.detached address))
    else s.beginFetch address loader
  | none, none => s.endFetch address (.error (if s.dropped then .detached address else noLoader address))

/-- Advances the loading of an address: a document that is there is loaded. -/
def pollLoad (s : Session) (address : String) : Option (Except AnalysisError Unit) × Session :=
  if s.holds address then (some (.ok ()), s) else s.pollFetch address

/-- Advances fetches in order behind so many that are not done, up to the first failure that is reported; there is a
result when all are done. -/
def pollFetches (s : Session) (count pending : Nat) : List String → Option (Except AnalysisError Unit) × Session
  | [] => (some (.ok ()), s)
  | address :: rest =>
    match s.pollFetch address with
    | (result?, s) =>
      match s.extractor.joining.report count pending result? with
      | some (.error e) => (some (.error e), s)
      | some (.ok ()) => s.pollFetches count pending rest
      | none =>
        match s.pollFetches count (pending + 1) rest with
        | (some (.error e), s) => (some (.error e), s)
        | (_, s) => (none, s)

/-! ## Declarations and imports -/

def pollExtraction (s : Session) (d : Document) : Option (Except AnalysisError Metadata) × Session :=
  match d.extraction.poll s.extractor d.address with
  | (extraction, extractor) =>
    (extraction.result?, { s with extractor }.update d.address { d with extraction })

/-- Advances the declarations of the document at an address. -/
def pollMetadata (s : Session) (address : String) : Option (Except AnalysisError Metadata) × Session :=
  match s.document? address with
  | some d => s.pollExtraction d
  | none => (none, s)

/-- Notes how far the imports of the document at an address have come. -/
def setImports (s : Session) (address : String) (imports : ImportWalk) : Session :=
  match s.document? address with
  | some d => s.update address { d with imports }
  | none => s

/-- Ends the import walk of a document with a result. -/
def endWalk (s : Session) (address : String) (result : Except AnalysisError (List String)) :
    Option (Except AnalysisError (List String)) × Session :=
  (some result, s.setImports address (.done result))

/-- Advances declarations and fetches together; either may fail first. Targets that are not awaited count as done. -/
def pollWalk (s : Session) (address : String) (targets awaited : List String) :
    Option (Except AnalysisError (List String)) × Session :=
  match s.pollMetadata address with
  | (some (.error e), s) => s.endWalk address (.error e)
  | (declared?, s) =>
    match s.pollFetches targets.length 0 awaited, declared? with
    | (some (.error e), s), _ => s.endWalk address (.error e)
    | (some (.ok ()), s), some _ => s.endWalk address (.ok targets)
    | (_, s), _ => (none, s.setImports address (.waiting targets awaited))

/-- Begins the import walk of a document. Without a loader there are no imports, but the declarations
have to be found. -/
def beginWalk (s : Session) (d : Document) : Option (Except AnalysisError (List String)) × Session :=
  match s.extractor.loader? with
  | none =>
    match s.pollMetadata d.address with
    | (some (.error e), s) => s.endWalk d.address (.error e)
    | (some (.ok _), s) => s.endWalk d.address (.ok [])
    | (none, s) => (none, s)
  | some _ =>
    match d.targets with
    | .error e => s.endWalk d.address (.error e)
    | .ok targets =>
      if s.dropped then s.endWalk d.address (.error (.detached d.address))
      else s.pollWalk d.address targets (targets.filter fun target => !s.holds target)

/-- Advances the imports of the document at an address. -/
def pollImports (s : Session) (address : String) : Option (Except AnalysisError (List String)) × Session :=
  match s.document? address with
  | none => (none, s)
  | some d =>
    match d.imports with
    | .done result => (some result, s)
    | .waiting targets awaited => s.pollWalk address targets awaited
    | .idle => s.beginWalk d

/-! ## From outside -/

/-- Adds or replaces a text that the loader answers with. -/
def insert (s : Session) (address text : String) : Session :=
  { s with extractor := { s.extractor with loader? := s.extractor.loader?.map (·.insert address text) } }

/-- Gives the analysis up: no further document is read or requested. -/
def drop (s : Session) : Session :=
  { s with dropped := true }

end Session

end ImportTree
