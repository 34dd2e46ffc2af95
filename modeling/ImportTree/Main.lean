import ImportTree.Cli.Run
import ImportTree.Cli.Usage

/-!
# The program

Reads arguments and files, and writes what a run comes to. Files are read as far as the run looks at
them: a run over more files may look at more, until nothing new is looked at. Nothing is requested from
the web.
-/
namespace ImportTree.Cli

/-- What is at a place, which is found out by reading it. -/
def probe (place : Files.Place) : IO (Option Files.Entry) := do
  match ← (IO.FS.readBinFile (shown place)).toBaseIO with
  | .ok content => return some (.file content.toList)
  | .error (.inappropriateType ..) => return some .directory
  | .error _ => return none

/-- Adds what is at a place. Nothing is below a file. -/
def look (files : Files) (place : Files.Place) : IO Files := do
  match files.entry? place.dropLast with
  | some (.file _) => return files
  | _ =>
    match ← probe place with
    | some entry => return files.add place entry
    | none => return files

/-- Reads the files that a run looks at. -/
partial def gather (w : World) (i : Invocation) (seen : List Files.Place) : IO World := do
  let new := ((places w i).filter (· ∉ seen)).eraseDups
  if new.isEmpty then return w
  gather { w with files := ← new.foldlM look w.files } i (new ++ seen)

def runWith (arguments : List String) : IO UInt32 := do
  match Invocation.read arguments with
  | .error ending =>
    if ending.exitCode = 0 then (← IO.getStdout).putStr ending.text else (← IO.getStderr).putStr ending.text
    return UInt32.ofNat ending.exitCode
  | .ok i =>
    let current := Files.steps (toString (← IO.currentDir)).toList
    let colour := (← (← IO.getStdout).isTty) && (← IO.getEnv "NO_COLOR").isNone
    let w ← gather { files := { current }, colour } i []
    let result := outcome w i
    (← IO.getStdout).putStr result.output
    (← IO.getStderr).putStr result.errors
    return UInt32.ofNat result.exitCode

end ImportTree.Cli

def main (arguments : List String) : IO UInt32 :=
  ImportTree.Cli.runWith arguments
