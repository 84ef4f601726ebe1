import DataModel.Text.Quoted
import DataModel.Text.Character

/-!
The arguments of the command line: flags, then a command with arguments of its own. Long flags may
be shortened as long as they stay clear, short ones may be written together, and two dashes end the
flags.
-/
namespace DataModel.CommandLine
open DataModel.Text

inductive Flag where
  | help | verbose
  deriving DecidableEq

def Flag.text : Flag → String
  | .help => "-h/--help"
  | .verbose => "-v/--verbose"

inductive Command where
  | check | watch
  deriving DecidableEq

def Command.name : Command → String
  | .check => "check"
  | .watch => "watch"

def Command.all : List Command := [.check, .watch]

def programName : String := "topmodel"

/-- The file that is read when none is named. -/
def defaultConfiguration : String := "topmodel.config"

/-- Who reads arguments: the program, or one of its commands. -/
structure Usage where
  name : String
  line : String
  flags : List (String × Flag)

def helpFlags : List (String × Flag) := [("-h", .help), ("--help", .help)]

def program : Usage where
  name := programName
  line := "usage: topmodel [-h] [-v] COMMAND ...\n"
  flags := helpFlags ++ [("-v", .verbose), ("--verbose", .verbose)]

def Command.usage (c : Command) : Usage where
  name := s!"{programName} {c.name}"
  line := s!"usage: {programName} {c.name} [-h] [config]\n"
  flags := helpFlags

def programHelp : String :=
  program.line ++ "
TopModel: model loading and checking

positional arguments:
  COMMAND
    check        Load and resolve the model once
    watch        Load the model and reload it on every change

options:
  -h, --help     show this help message and exit
  -v, --verbose  Show debug output
"

def Command.description : Command → String
  | .check => "Load every model file, resolve references and report diagnostics."
  | .watch => "Load the model, then watch the model root until interrupted."

def Command.help (c : Command) : String :=
  c.usage.line ++ "\n" ++ c.description ++ "

positional arguments:
  config      Path to the configuration file (default: topmodel.config)

options:
  -h, --help  show this help message and exit
"

/-- What the arguments ask for. -/
inductive Request where
  | help (text : String)
  | run (verbose : Bool) (command : Command) (configuration : String)

/-- Why arguments are refused. -/
inductive Refusal where
  | ambiguous (argument : String) (matching : List String)
  | ignored (flag : Flag) (value : String)
  | unknownCommand (name : String)
  | unrecognized (arguments : List String)

def Refusal.message : Refusal → String
  | .ambiguous argument matching =>
    let names := ", ".intercalate matching
    s!"ambiguous option: {argument} could match {names}"
  | .ignored flag value => s!"argument {flag.text}: ignored explicit argument {quoted value}"
  | .unknownCommand name =>
    let choices := ", ".intercalate (Command.all.map fun c => quoted c.name)
    s!"argument COMMAND: invalid choice: {quoted name} (choose from {choices})"
  | .unrecognized arguments =>
    let all := " ".intercalate arguments
    s!"unrecognized arguments: {all}"

/-- A refusal with the usage of the one who refuses. -/
structure UsageError where
  usage : Usage
  refusal : Refusal

def UsageError.text (e : UsageError) : String :=
  e.usage.line ++ s!"{e.usage.name}: error: {e.refusal.message}\n"

abbrev Parsed (α : Type) := Except UsageError α

def refuse {α : Type} (p : Usage) (r : Refusal) : Parsed α := .error ⟨p, r⟩

/-- What an argument is by its look. -/
inductive Piece where
  | plain (text : String)
  | dashes
  /-- A flag by the name it is given under, with the text behind it: after an equals sign, or
  directly behind a short name. -/
  | flag (f : Flag) (name : String) (attached : Option String)
  | unknownFlag (text : String)

def isDecimal (c : Char) : Bool := (decimalValue? c).isSome

/-- A negative number is no flag. A line feed at its end does not count. -/
def isNegativeNumber (text : List Char) : Bool :=
  match if text.getLast? == some '\n' then text.dropLast else text with
  | '-' :: rest =>
    let whole := rest.takeWhile isDecimal
    match rest.drop whole.length with
    | [] => !whole.isEmpty
    | '.' :: fraction => !fraction.isEmpty && fraction.all isDecimal
    | _ => false
  | _ => false

/-- The text before the first equals sign, and the one after it. -/
def splitAtEquals (text : List Char) : Option (String × String) :=
  let name := text.takeWhile (· != '=')
  match text.drop name.length with
  | [] => none
  | _ :: value => some (String.ofList name, String.ofList value)

/-- The flags that a text may be short for. -/
def shortFor (p : Usage) (text : String) : List (Flag × String × Option String) :=
  match text.toList with
  | '-' :: '-' :: _ =>
    let (start, attached) : String × Option String :=
      match splitAtEquals text.toList with
      | some (name, value) => (name, some value)
      | none => (text, none)
    p.flags.filterMap fun (name, f) =>
      if name.startsWith start then some (f, name, attached) else none
  | '-' :: letter :: rest =>
    let name := String.ofList ['-', letter]
    (p.flags.lookup name).toList.map fun f => (f, name, some (String.ofList rest))
  | _ => []

/-- Tells what an argument is; only before two dashes. -/
def classify (p : Usage) (text : String) : Parsed Piece :=
  let cs := text.toList
  if text == "--" then .ok .dashes
  else if cs.head? != some '-' then .ok (.plain text)
  else
    match p.flags.lookup text with
    | some f => .ok (.flag f text none)
    | none =>
      if cs.length == 1 then .ok (.plain text)
      else
        match (splitAtEquals cs).bind fun (name, value) =>
            (p.flags.lookup name).map fun f => Piece.flag f name (some value) with
        | some piece => .ok piece
        | none =>
          match shortFor p text with
          | [(f, name, attached)] => .ok (.flag f name attached)
          | [] =>
            if isNegativeNumber cs || cs.contains ' ' then .ok (.plain text)
            else .ok (.unknownFlag text)
          | several => refuse p (.ambiguous text (several.map (·.2.1)))

def classifyAll (p : Usage) : List String → Parsed (List Piece)
  | [] => .ok []
  | text :: rest => do
    match ← classify p text with
    | .dashes => return .dashes :: rest.map .plain
    | piece => return piece :: (← classifyAll p rest)

/-- Short flags written together, from a flag and the letters behind it. -/
def together (p : Usage) (f : Flag) : List Char → Parsed (List Flag)
  | [] => .ok [f]
  | c :: rest =>
    match p.flags.lookup (String.ofList ['-', c]) with
    | none => refuse p (.ignored f (String.ofList (c :: rest)))
    | some g => (together p g rest).map (f :: ·)

/-- The flags that one argument stands for. A flag takes no value: text behind a short name is more
short flags, even after an equals sign. -/
def expand (p : Usage) (f : Flag) (name : String) : Option String → Parsed (List Flag)
  | none => .ok [f]
  | some text =>
    if text == "" || name.startsWith "--" then refuse p (.ignored f text)
    else together p f text.toList

/-- A command's own arguments: at most one file. Gives the file, if there is one, and what is left
over; or nothing if help is asked for. -/
def commandPieces (p : Usage) :
    Option String → Bool → List Piece → Parsed (Option (Option String × List String))
  | file, _, [] => .ok (some (file, []))
  | file, taken, .flag f name attached :: rest => do
    if (← expand p f name attached).contains .help then return none
    else commandPieces p file taken rest
  | file, taken, .unknownFlag text :: rest => do
    return (← commandPieces p file taken rest).map fun (file, left) => (file, text :: left)
  | _, false, .plain text :: .dashes :: rest => commandPieces p (some text) true rest
  | _, false, .plain text :: rest => commandPieces p (some text) true rest
  | _, false, .dashes :: .plain text :: rest => commandPieces p (some text) true rest
  | file, false, .dashes :: rest => commandPieces p file true rest
  | file, true, .plain text :: rest => do
    return (← commandPieces p file true rest).map fun (file, left) => (file, text :: left)
  | file, true, .dashes :: rest => do
    return (← commandPieces p file true rest).map fun (file, left) => (file, "--" :: left)

/-- Everything from the command on. -/
def readCommand (verbose : Bool) (extra : List String) (name : String) (args : List String) :
    Parsed Request :=
  match Command.all.find? (·.name == name) with
  | none => refuse program (.unknownCommand name)
  | some c => do
    match ← commandPieces c.usage none false (← classifyAll c.usage args) with
    | none => return .help c.help
    | some (file, left) =>
      if (extra ++ left).isEmpty then return .run verbose c (file.getD defaultConfiguration)
      else refuse program (.unrecognized (extra ++ left))

/-- The program's own flags, up to the command. -/
def programPieces (verbose : Bool) (extra : List String) :
    List Piece → List String → Parsed Request
  | .flag f name attached :: rest, _ :: args => do
    if (← expand program f name attached).contains .help then return .help programHelp
    else programPieces true extra rest args
  | .unknownFlag text :: rest, _ :: args => programPieces verbose (extra ++ [text]) rest args
  | .plain name :: _, _ :: args => readCommand verbose extra name args
  | .dashes :: _ :: _, _ => refuse program (.unknownCommand "--")
  | .dashes :: [], _ => refuse program (.unrecognized (extra ++ ["--"]))
  | _, _ =>
    if extra.isEmpty then .ok (.help programHelp) else refuse program (.unrecognized extra)

def parse (args : List String) : Parsed Request := do
  programPieces false [] (← classifyAll program args) args

end DataModel.CommandLine
