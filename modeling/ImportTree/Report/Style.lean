/-!
# Terminal styles

Escape sequences around a text, written only where colours are on.
-/
namespace ImportTree.Report

/-- The styles of the program's output. -/
inductive Style where
  | redBold
  | cyanBold
  | cyan
  | green
  | yellow
  | grey
deriving DecidableEq, Repr

/-- The parameters of the escape sequence that starts a style. -/
def Style.code : Style → String
  | .redBold => "1;31"
  | .cyanBold => "1;36"
  | .cyan => "36"
  | .green => "32"
  | .yellow => "33"
  | .grey => "90"

def Style.start (style : Style) : List Char :=
  '\x1b' :: '[' :: style.code.toList ++ ['m']

def Style.reset : List Char :=
  ['\x1b', '[', '0', 'm']

/-- Starts a style again wherever a text ends all styles. -/
def Style.resume (style : Style) : List Char → List Char
  | '\x1b' :: '[' :: '0' :: 'm' :: cs => Style.reset ++ style.start ++ style.resume cs
  | c :: cs => c :: style.resume cs
  | [] => []

/-- A text in a style, or as it is where colours are off. -/
def paint (colour : Bool) (style : Style) (text : String) : String :=
  if colour then String.ofList (style.start ++ style.resume text.toList ++ Style.reset) else text

end ImportTree.Report
