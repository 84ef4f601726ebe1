import DataModel.Yaml.Fault

/-!
Tokens of YAML 1.1 and the characters between them. Blanks and breaks are told apart as the
grammar needs it; the end of the text stands with them wherever a word may end.
-/
namespace DataModel.Yaml
open DataModel.Text

inductive Directive where
  | version (major minor : Nat)
  | handle (handle leading : String)
  | other (name : String)
  deriving DecidableEq

/-- A tag as written: with a handle that a directive explains, or verbatim. -/
structure TagText where
  handle : Option String
  suffix : String
  deriving DecidableEq

inductive Token.Kind where
  | streamStart | streamEnd
  | directive (d : Directive)
  | documentStart | documentEnd
  | blockSequenceStart | blockMappingStart | blockEnd
  | flowSequenceStart | flowMappingStart | flowSequenceEnd | flowMappingEnd
  | key | value | blockEntry | flowEntry
  | alias (name : String)
  | anchor (name : String)
  | tag (t : TagText)
  | scalar (text : String) (plain : Bool)
  deriving DecidableEq

/-- What messages call a token. -/
def Token.Kind.label : Token.Kind → String
  | .streamStart => "<stream start>"
  | .streamEnd => "<stream end>"
  | .directive _ => "<directive>"
  | .documentStart => "<document start>"
  | .documentEnd => "<document end>"
  | .blockSequenceStart => "<block sequence start>"
  | .blockMappingStart => "<block mapping start>"
  | .blockEnd => "<block end>"
  | .flowSequenceStart => "["
  | .flowMappingStart => "\x7b"
  | .flowSequenceEnd => "]"
  | .flowMappingEnd => "\x7d"
  | .key => "?"
  | .value => ":"
  | .blockEntry => "-"
  | .flowEntry => ","
  | .alias _ => "<alias>"
  | .anchor _ => "<anchor>"
  | .tag _ => "<tag>"
  | .scalar .. => "<scalar>"

structure Token where
  kind : Token.Kind
  start : Position
  finish : Position
  deriving DecidableEq

/-- A line break or the end of the text. -/
def endsLine : Option Char → Bool
  | none => true
  | some c => isBreak c

def breaks : Option Char → Bool
  | none => false
  | some c => isBreak c

/-- A space, a line break or the end of the text. -/
def endsField : Option Char → Bool
  | none => true
  | some c => c == ' ' || isBreak c

/-- A space, a tab, a line break or the end of the text. -/
def endsWord : Option Char → Bool
  | none => true
  | some c => c == ' ' || c == '\t' || isBreak c

def isWordChar (c : Char) : Bool := c.isAlphanum || c == '-' || c == '_'

def isHexDigit (c : Char) : Bool :=
  c.isDigit || ('a' ≤ c && c ≤ 'f') || ('A' ≤ c && c ≤ 'F')

/-- Reading from a cursor; a failure ends the whole text. -/
abbrev Scan := StateT Cursor (Except Failure)

namespace Scan

def fail {α} (activity : Option Activity) (problem : Problem) : Scan α := do
  throw (.fault ⟨activity, problem, (← get).pos⟩)

def peek (k : Nat := 0) : Scan (Option Char) := return (← get).peek k

def position : Scan Position := return (← get).pos

def skip (n : Nat) : Scan Unit := modify fun c => c.skip n

def takeWhile (p : Char → Bool) : Scan (List Char) := do
  let (run, c) := (← get).takeWhile p
  set c
  return run

def skipWhile (p : Char → Bool) : Scan Unit := modify fun c => c.skipWhile p

/-- Reads one line break, as the text it stands for; nothing where none is. -/
def lineBreak : Scan (List Char) := do
  match ← peek with
  | none => return []
  | some c =>
    if c == '\r' && (← peek 1) == some '\n' then skip 2; return ['\n']
    else if c == lineSeparator || c == paragraphSeparator then skip 1; return [c]
    else if isBreak c then skip 1; return ['\n']
    else return []

/-- A document marker (`---` or `...`) stands here as a word of its own. -/
def atSeparator : Scan Bool := do
  let c ← get
  let three := c.rest.take 3
  return (three == ['-', '-', '-'] || three == ['.', '.', '.']) && endsWord (c.peek 3)

/-- The number of characters left, which bounds every loop over them. -/
def remaining : Scan Nat := return (← get).rest.length

def skipComment : Scan Unit := do
  if (← peek) == some '#' then skipWhile fun c => !isBreak c

/-- The rest of a line that may hold blanks and a comment only. -/
def ignoredLine (activity : Activity) : Scan Unit := do
  skipWhile (· == ' ')
  skipComment
  let c ← peek
  if endsLine c then discard lineBreak
  else fail activity (.expected "a comment or a line break" c)

end Scan
end DataModel.Yaml
