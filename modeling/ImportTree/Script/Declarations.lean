import ImportTree.Metadata.Record
import ImportTree.Script.Call
import ImportTree.Script.Mask

/-!
# Declarations of a script

The names that the registration calls of a script declare, in the order of the calls.
-/
namespace ImportTree.Script

def elementCalls (masked : List Char) : List Call :=
  merge (calls elementObject masked) (calls elementNamed masked)

def moduleCalls (masked : List Char) : List Call :=
  calls moduleDefinition masked

/-- Reads a script. With `attach`, every declaration carries the text of the script. -/
def read (text : String) (attach : Bool) : Except SyntaxFault Metadata :=
  match mask text with
  | .error fault => .error fault
  | .ok masked =>
    let declare := fun (call : Call) =>
      { name := call.name, line := call.line, script? := if attach then some text else none : Declaration }
    .ok {
      elements := (elementCalls masked).map fun call => { declare call with }
      modules := (moduleCalls masked).map declare }

end ImportTree.Script
