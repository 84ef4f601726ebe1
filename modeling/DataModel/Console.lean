import DataModel.Log
import DataModel.Text.Template

/-!
Log records as coloured lines of a console. A colour is switched on before a text and off after it;
what the text itself switches off is switched on again, and a line break is never coloured.
-/
namespace DataModel.Console

inductive Colour where
  | red | yellow | magenta | green | gray
  deriving DecidableEq

def Colour.number : Colour → String
  | .red => "31"
  | .yellow => "33"
  | .magenta => "35"
  | .green => "32"
  | .gray => "90"

def escape : Char := Char.ofNat 0x1b

def control (number : String) : List Char := escape :: '[' :: number.toList ++ ['m']

/-- Switches every colour off. -/
def off : List Char := control "39"

def Colour.on (c : Colour) : List Char := control c.number

/-- Resets everything, not only the colour. -/
def reset : List Char := control "0"

/-- Replaces every occurrence of a text; `skip` characters belong to the occurrence before. -/
def replaceFrom (old new : List Char) : Nat → List Char → List Char
  | _, [] => []
  | skip + 1, _ :: rest => replaceFrom old new skip rest
  | 0, c :: rest =>
    if old.isPrefixOf (c :: rest) then new ++ replaceFrom old new (old.length - 1) rest
    else c :: replaceFrom old new 0 rest

/-- What stands before the next reset of the same line. -/
def untilReset : List Char → Option (List Char)
  | [] => none
  | c :: rest =>
    if reset.isPrefixOf (c :: rest) then some []
    else if c == '\n' then none
    else (untilReset rest).map (c :: ·)

/-- Switches the colour off for what stands between two resets. -/
def aroundResets (on : List Char) : Nat → List Char → List Char
  | _, [] => []
  | skip + 1, _ :: rest => aroundResets on skip rest
  | 0, c :: rest =>
    let inner? :=
      if reset.isPrefixOf (c :: rest) then untilReset ((c :: rest).drop reset.length) else none
    match inner? with
    | some inner =>
      let stretch := reset ++ inner ++ reset
      off ++ stretch ++ on ++ aroundResets on (stretch.length - 1) rest
    | none => c :: aroundResets on 0 rest

/-- Switches the colour off for line breaks. -/
def aroundBreaks (on : List Char) : List Char → List Char
  | '\r' :: '\n' :: rest => off ++ '\r' :: '\n' :: on ++ aroundBreaks on rest
  | '\n' :: rest => off ++ '\n' :: on ++ aroundBreaks on rest
  | c :: rest => c :: aroundBreaks on rest
  | [] => []

def paint (c : Colour) (text : String) : String :=
  let cs := text.toList
  let again := replaceFrom off (off ++ c.on) 0 cs
  String.ofList (c.on ++ aroundBreaks c.on (aroundResets c.on 0 again) ++ off)

/-- The last part of a dotted name. -/
def category (logger : String) : String :=
  String.ofList (logger.toList.reverse.takeWhile (· != '.')).reverse

/-- The colour of a message: errors and warnings have theirs, and so have some notices. -/
def colour? (level : Int) (message : String) : Option Colour :=
  if Log.Level.error.number ≤ level then some .red
  else if Log.Level.warning.number ≤ level then some .yellow
  else if message.startsWith "Changed:" then some .magenta
  else if message.startsWith "Model updated" then some .green
  else none

/-- A text as a line of the console. -/
def line (level : Int) (logger message : String) : String :=
  let shown := match colour? level message with
    | some c => paint c message
    | none => message
  paint .gray s!"[{category logger}]" ++ " " ++ shown

/-- What a logger is given: a template with its arguments, and the text of an error that goes with
it. -/
structure Message where
  level : Int
  logger : String
  template : String
  arguments : List Text.Argument
  error : Option String

/-- A record is a message whose template is filled already. -/
def Message.ofRecord (r : Log.Record) : Message :=
  ⟨r.level.number, r.logger, r.message, [], none⟩

/-- A message as a line of the console, with the text of its error below. -/
def Message.format (m : Message) : Except Text.TemplateFault String := do
  let shown := line m.level m.logger (← Text.fillTemplate m.template m.arguments)
  return match m.error with
    | some error => shown ++ "\n" ++ error
    | none => shown

/-- A record is always formatted, with what it says as it is. -/
@[simp] theorem Message.format_ofRecord (r : Log.Record) :
    (ofRecord r).format = .ok (line r.level.number r.logger r.message) := rfl

/-- The lowest level that is shown. -/
def threshold (verbose : Bool) : Nat :=
  if verbose then Log.Level.debug.number else Log.Level.info.number

/-- The names above a dotted name, nearest first, all written backwards. The character before a dot
that was passed is not looked at, so `a.b` and `a...b` are below `a`, and `a..b` is not. -/
def above : List Char → List (List Char)
  | [] => []
  | ['.'] => []
  | '.' :: c :: rest => (c :: rest) :: above rest
  | _ :: rest => above rest

/-- The logger that all of this program's loggers are below. -/
def rootLogger : String := "topmodel"

/-- Whether a logger is one of this program's. -/
def isOwn (logger : String) : Bool :=
  logger == rootLogger || (above logger.toList.reverse).contains rootLogger.toList.reverse

def isShown (verbose : Bool) (level : Int) (logger : String) : Bool :=
  isOwn logger && (threshold verbose : Int) ≤ level

/-- What the console shows of a record. -/
def output (verbose : Bool) (r : Log.Record) : String :=
  if isShown verbose r.level.number r.logger then
    match (Message.ofRecord r).format with
    | .ok shown => shown ++ "\n"
    | .error _ => ""
  else ""

end DataModel.Console
