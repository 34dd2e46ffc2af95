/-!
# Faults of a text

What a reader of markup, scripts or settings reports: a line and a reason.
-/
namespace ImportTree

/-- A text that a reader refuses. -/
structure SyntaxFault where
  /-- The line of the offending token, counted from one. -/
  line : Nat
  reason : String
deriving DecidableEq, Repr

def SyntaxFault.message (fault : SyntaxFault) : String :=
  "line " ++ toString fault.line ++ ": " ++ fault.reason

end ImportTree
