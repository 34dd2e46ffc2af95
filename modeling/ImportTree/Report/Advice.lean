import ImportTree.Metadata.Error
import ImportTree.Report.Style

/-!
# Reports of errors

What a user is told when something fails: a message, details, and a suggestion.
-/
namespace ImportTree.Report

/-! ## What failed -/

/-- What kept the program from a file. -/
inductive FileErrorKind where
  | notFound
  | other
deriving DecidableEq, Repr

/-- The root of a failure. -/
inductive Cause where
  | message (text : String)
  | analysis (error : AnalysisError)
  /-- Settings that cannot be read, in the words of their reader. -/
  | settings (text : String)
  | file (kind : FileErrorKind) (text : String)
deriving DecidableEq, Repr

/-- A failure with the messages of all that was attempted around it, the outermost first. -/
structure Trouble where
  attempts : List String := []
  cause : Cause
deriving DecidableEq, Repr

namespace Cause

def text : Cause → String
  | .message text => text
  | .analysis error => error.message
  | .settings text => text
  | .file _ text => text

def texts : Cause → List String
  | .analysis error => error.message :: error.causes
  | cause => [cause.text]

end Cause

namespace Trouble

def within (t : Trouble) (attempt : String) : Trouble :=
  { t with attempts := attempt :: t.attempts }

/-- All messages, the outermost first. -/
def texts (t : Trouble) : List String :=
  t.attempts ++ t.cause.texts

def conflictingName? (t : Trouble) : Option String :=
  match t.cause with
  | .analysis error => error.conflictingName?
  | _ => none

end Trouble

/-! ## What the user is told -/

/-- A message with details and a suggestion. -/
structure Advice where
  message : String
  details? : Option String := none
  suggestion? : Option String := none
deriving DecidableEq, Repr

namespace Advice

def plain (a : Advice) : String :=
  a.message ++
    (match a.details? with | some details => "\nDetails: " ++ details | none => "") ++
    (match a.suggestion? with | some suggestion => "\nSuggestion: " ++ suggestion | none => "")

def report (colour : Bool) (a : Advice) : String :=
  let line := fun style label text => paint colour style label ++ ": " ++ text ++ "\n"
  line .redBold "error" a.message ++
    (match a.details? with | some details => line .yellow "details" details | none => "") ++
    (match a.suggestion? with | some suggestion => line .green "suggestion" suggestion | none => "")

def ofAnalysisError (error : AnalysisError) : Advice :=
  let advice : Advice := { message := error.message }
  match error with
  | .unreadable _ _ => { advice with
      suggestion? := "Look for unterminated tags, comments, strings or brackets near the reported line"
      details? := "A parse failure in any imported document aborts the whole analysis" }
  | .duplicate kind _ _ _ => { advice with
      suggestion? := "Rename one of the " ++ kind.label ++
        " definitions or stop importing one of the documents that declares it"
      details? := "Element and module names must be unique across every imported document" }
  | .notLoaded _ _ => { advice with
      suggestion? := "Check that the referenced document exists and is reachable, " ++
        "or pass --no-imports to analyze the root document on its own"
      details? := "Remote addresses are only fetched when [loader] allow_remote = true" }
  | .unresolvable _ _ => { advice with
      suggestion? := "Fix the href or src attribute so it forms a valid relative or absolute URL" }
  | .detached _ => { advice with
      details? := "The analyzer was dropped while documents were still loading" }

/-- The messages of a failure below each other, the outermost first and the others counted. -/
def chainText : List String → String
  | [] => ""
  | [text] => text
  | text :: causes =>
    text ++ "\n\nCaused by:" ++
      String.join (causes.mapIdx fun i cause => "\n  " ++ toString (i + 1) ++ ": " ++ cause)

def ofTrouble (t : Trouble) : Advice :=
  match t.cause with
  | .analysis error => ofAnalysisError error
  | .settings text => {
      message := "Invalid configuration: " ++ text
      suggestion? := "Check the TOML syntax in metatree.toml. Supported keys are attach_scripts, " ++
        "follow_imports and the [loader] table"
      details? := "Unknown keys are rejected so that typos do not silently change behavior" }
  | .file .notFound _ => {
      message := chainText t.texts
      suggestion? := "Check that the document path exists and is readable" }
  | _ => { message := chainText t.texts }

end Advice

end ImportTree.Report
