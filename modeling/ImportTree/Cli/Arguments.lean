import ImportTree.Text.Ascii
import ImportTree.Text.Digit

/-!
# Command line arguments

The arguments name a command and a document, and hold options before and after the command. Options of
the program can stand on either side; after the command they win. A value is checked when the next
option or document begins, or at the end.
-/
namespace ImportTree.Cli

/-! ## What can be given -/

/-- A command. -/
inductive Command where
  /-- Draws the tree of a document. -/
  | tree
  /-- Lists what a document imports. -/
  | deps
deriving DecidableEq, Repr

/-- What can be given besides the command. -/
inductive Item where
  | verbose
  | quiet
  | config
  | help
  | version
  | noImports
  | attachScripts
  | format
  | depth
  | document
deriving DecidableEq, Repr

namespace Item

def takesValue : Item → Bool
  | .config | .format | .depth | .document => true
  | _ => false

def letter? : Item → Option Char
  | .verbose => some 'v'
  | .quiet => some 'q'
  | .config => some 'c'
  | .help => some 'h'
  | .version => some 'V'
  | .format => some 'f'
  | .depth => some 'd'
  | _ => none

def word? : Item → Option String
  | .verbose => some "verbose"
  | .quiet => some "quiet"
  | .config => some "config"
  | .help => some "help"
  | .version => some "version"
  | .noImports => some "no-imports"
  | .attachScripts => some "attach-scripts"
  | .format => some "format"
  | .depth => some "depth"
  | .document => none

/-- What can be given before the command, or after it. -/
def allowed : Option Command → List Item
  | none => [.verbose, .quiet, .config, .help, .version]
  | some .deps => [.verbose, .quiet, .config, .help, .noImports, .attachScripts, .format]
  | some .tree => [.verbose, .quiet, .config, .help, .noImports, .attachScripts, .format, .depth]

def ofLetter? (command? : Option Command) (c : Char) : Option Item :=
  (allowed command?).find? (·.letter? == some c)

def ofWord? (command? : Option Command) (word : String) : Option Item :=
  (allowed command?).find? (·.word? == some word)

end Item

/-- Why arguments end the program. -/
inductive Ending where
  | help
  | version
  /-- Nothing is given at all. -/
  | nothing
  | missingCommand
  | unknownCommand
  | missingDocument
  | unknownArgument
  | missingValue
  | invalidValue
  /-- A value for an option that takes none. -/
  | unwantedValue
  /-- An option is given twice, or two options exclude each other. -/
  | conflict
deriving DecidableEq, Repr

def Ending.exitCode : Ending → Nat
  | .help | .version => 0
  | _ => 2

/-! ## Values -/

/-- What has been given before the command, or after it. -/
structure Options where
  verbose : Bool := false
  quiet : Bool := false
  config? : Option String := none
  noImports : Bool := false
  attachScripts : Bool := false
  format? : Option String := none
  depth? : Option Nat := none
  document? : Option String := none
deriving DecidableEq, Repr

/-- A number of at most 64 bits, perhaps with a plus sign. -/
def natural? (text : String) : Option Nat :=
  let digits := match text.toList with | '+' :: cs => cs | cs => cs
  if digits = [] then none else (Text.digits? 10 0 digits).filter (· < UInt64.size)

namespace Options

def has (o : Options) : Item → Bool
  | .verbose => o.verbose
  | .quiet => o.quiet
  | .config => o.config?.isSome
  | .noImports => o.noImports
  | .attachScripts => o.attachScripts
  | .format => o.format?.isSome
  | .depth => o.depth?.isSome
  | .document => o.document?.isSome
  | .help | .version => false

/-- Takes in an item with its value. A path may not be empty. -/
def put (o : Options) (value : String) : Item → Except Ending Options
  | .help => .error .help
  | .version => .error .version
  | .verbose => .ok { o with verbose := true }
  | .quiet => .ok { o with quiet := true }
  | .noImports => .ok { o with noImports := true }
  | .attachScripts => .ok { o with attachScripts := true }
  | .format => .ok { o with format? := some value }
  | .config => if value = "" then .error .missingValue else .ok { o with config? := some value }
  | .document => if value = "" then .error .missingValue else .ok { o with document? := some value }
  | .depth =>
    match natural? value with
    | some depth => .ok { o with depth? := some depth }
    | none => .error .invalidValue

/-- Takes in an item that has not been given before, with its value if it needs one. -/
def add (o : Options) (item : Item) (value? : Option String) : Except Ending Options :=
  if item.takesValue ∧ value?.isNone then .error .missingValue
  else if o.has item then .error .conflict
  else o.put (value?.getD "") item

end Options

/-! ## Reading -/

/-- How far the arguments before the command, or those after it, have been read. -/
structure Reading where
  options : Options := {}
  /-- An item that is not checked yet, and its value if it has come. -/
  pending? : Option (Item × Option String) := none
  /-- Whether a document has been given. -/
  placed : Bool := false
  /-- Whether all further arguments are documents. -/
  plain : Bool := false
deriving DecidableEq, Repr

namespace Reading

/-- Whether the next argument is the value of an option, unless it is an option itself. -/
def awaits (r : Reading) : Bool :=
  match r.pending? with
  | some (_, none) => !r.plain
  | _ => false

def settle (r : Reading) : Except Ending Reading :=
  match r.pending? with
  | none => .ok r
  | some (item, value?) =>
    match r.options.add item value? with
    | .ok options => .ok { r with options, pending? := none }
    | .error e => .error e

/-- Checks the pending item, and then takes in another one at once. -/
def give (r : Reading) (item : Item) (value? : Option String) : Except Ending Reading :=
  match r.settle with
  | .error e => .error e
  | .ok r =>
    match r.options.add item value? with
    | .ok options => .ok { r with options }
    | .error e => .error e

/-- Checks the pending item, and leaves another one pending. -/
def suspend (r : Reading) (item : Item) (value? : Option String) : Except Ending Reading :=
  match r.settle with
  | .error e => .error e
  | .ok r => .ok { r with pending? := some (item, value?) }

/-- Reads an option that is written as a word, perhaps with its value after an equals sign. -/
def takeWord (command? : Option Command) (r : Reading) (cs : List Char) : Except Ending Reading :=
  let value? := match cs.dropWhile (· != '=') with
    | [] => none
    | _ :: value => some (String.ofList value)
  match Item.ofWord? command? (String.ofList (cs.takeWhile (· != '='))) with
  | none => .error .unknownArgument
  | some item =>
    if item.takesValue then
      if value?.isSome then r.give item value? else r.suspend item none
    else if value?.isSome then .error .unwantedValue
    else r.give item none

/-- Reads options that are written as letters. What follows the letter of an option with a value is
the value, an equals sign aside. -/
def takeLetters (command? : Option Command) (r : Reading) : List Char → Except Ending Reading
  | [] => .ok r
  | c :: cs =>
    match Item.ofLetter? command? c with
    | none => .error .unknownArgument
    | some item =>
      if item.takesValue then
        match cs with
        | [] => r.suspend item none
        | '=' :: value => r.give item (some (String.ofList value))
        | value => r.give item (some (String.ofList value))
      else
        match r.give item none with
        | .ok r => takeLetters command? r cs
        | .error e => .error e

/-- The commands, and the word that asks for help on them. -/
def commandWords : List String :=
  ["tree", "deps", "help"]

/-- Reads an argument that is no option. -/
def takePlain (command? : Option Command) (r : Reading) (argument : String) : Except Ending Reading :=
  match command? with
  | none => .error (if r.plain ∧ argument ∈ commandWords then .unknownArgument else .unknownCommand)
  | some _ =>
    if r.placed then .error .unknownArgument
    else
      match r.suspend .document (some argument) with
      | .ok r => .ok { r with placed := true }
      | .error e => .error e

/-- Reads an argument that is a value or no option. -/
def takeValue (command? : Option Command) (r : Reading) (argument : String) : Except Ending Reading :=
  match r.pending? with
  | some (item, none) => .ok { r with pending? := some (item, some argument) }
  | _ => r.takePlain command? argument

def take (command? : Option Command) (r : Reading) (argument : String) : Except Ending Reading :=
  if r.plain then r.takePlain command? argument
  else
    match argument.toList with
    | ['-', '-'] => .ok { r with plain := true }
    | '-' :: '-' :: word => r.takeWord command? word
    | '-' :: c :: letters => r.takeLetters command? (c :: letters)
    | _ => r.takeValue command? argument

def checked (o : Options) : Except Ending Options :=
  if o.verbose ∧ o.quiet then .error .conflict else .ok o

def afterCommand (command : Command) (r : Reading) : List String → Except Ending Options
  | [] =>
    match r.settle with
    | .error e => .error e
    | .ok r =>
      match checked r.options with
      | .error e => .error e
      | .ok options => if options.document?.isNone then .error .missingDocument else .ok options
  | argument :: rest =>
    match r.take (some command) argument with
    | .ok r => afterCommand command r rest
    | .error e => .error e

/-- Why the arguments end the program where no command has come. -/
def withoutCommand (r : Reading) : Ending :=
  match r.settle with
  | .error e => e
  | .ok r => if r.options = {} then .nothing else .missingCommand

/-- Why the arguments after the word for help end the program. -/
def askedForHelp : List String → Ending
  | [] => .help
  | [command] => if command ∈ commandWords then .help else .unknownCommand
  | _ => .unknownCommand

end Reading

/-! ## Invocations -/

/-- What the program is asked to do. -/
structure Invocation where
  command : Command
  /-- What has been given before the command. -/
  outer : Options
  /-- What has been given after the command. -/
  inner : Options
deriving DecidableEq, Repr

namespace Reading

/-- Reads the arguments after a command, and then checks those before it. -/
def enter (r : Reading) (command : Command) (rest : List String) : Except Ending Invocation :=
  match afterCommand command {} rest with
  | .error e => .error e
  | .ok inner =>
    match r.settle with
    | .error e => .error e
    | .ok r =>
      match checked r.options with
      | .error e => .error e
      | .ok outer => .ok { command, outer, inner }

def fromStart (r : Reading) : List String → Except Ending Invocation
  | [] => .error r.withoutCommand
  | argument :: rest =>
    let word := if r.plain ∨ r.awaits then "" else argument
    if word = "tree" then r.enter .tree rest
    else if word = "deps" then r.enter .deps rest
    else if word = "help" then .error (askedForHelp rest)
    else
      match r.take none argument with
      | .ok r => fromStart r rest
      | .error e => .error e

end Reading

namespace Invocation

def read (arguments : List String) : Except Ending Invocation :=
  Reading.fromStart {} arguments

def document (i : Invocation) : String :=
  i.inner.document?.getD ""

def config? (i : Invocation) : Option String :=
  i.inner.config?.or i.outer.config?

def format (i : Invocation) : String :=
  i.inner.format?.getD (match i.command with | .tree => "tree" | .deps => "text")

/-- How much is logged. -/
inductive LogLevel where
  | debug
  | warn
  | error
deriving DecidableEq, Repr

def LogLevel.name : LogLevel → String
  | .debug => "debug"
  | .warn => "warn"
  | .error => "error"

def logLevel (i : Invocation) : LogLevel :=
  if i.outer.verbose ∨ i.inner.verbose then .debug
  else if i.outer.quiet ∨ i.inner.quiet then .error
  else .warn

end Invocation

end ImportTree.Cli
