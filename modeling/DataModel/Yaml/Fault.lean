import DataModel.Text.Integer
import DataModel.Text.Position
import DataModel.Text.Utf8

/-!
Why a text is no YAML: a cause, where it stands, and what was being read there. The wording of
every cause is in `Problem.text`; `Fault.describe` adds the places with their lines.
-/
namespace DataModel.Yaml
open DataModel.Text

inductive Problem where
  /-- Something else stands where one of a class of characters is needed. -/
  | expected (what : String) (found : Option Char)
  /-- A token that the construct does not allow. -/
  | unexpectedToken (what : String) (verb : String) (found : String)
  | cannotStart (found : Option Char)
  | missingColon
  | notAllowedHere (what : String)
  | zeroIndentation
  | endOfQuoted
  | separatorInQuoted
  | unknownEscape (found : Option Char)
  | undecodable (fault : Utf8.Fault)
  | duplicateVersion
  | incompatibleVersion
  | duplicateHandle (handle : String)
  | undefinedHandle (handle : String)
  | undefinedAnchor (anchor : String)
  | secondOccurrence
  | unknownTag (tag : String)
  | wrongNode (what : String) (found : String)
  | itemCount (count : Nat)
  | unhashableKey
  | recursiveNode
  | notAscii (reason : String)
  | badBase64 (reason : String)
  deriving DecidableEq

def Problem.text : Problem → String
  | .expected what found => s!"expected {what}, but found {quotedNext found}"
  | .unexpectedToken what verb found => s!"expected {what}, but {verb} {quoted found}"
  | .cannotStart found => s!"found character {quotedNext found} that cannot start any token"
  | .missingColon => "could not find expected ':'"
  | .notAllowedHere what => s!"{what} are not allowed here"
  | .zeroIndentation => "expected indentation indicator in the range 1-9, but found 0"
  | .endOfQuoted => "found unexpected end of stream"
  | .separatorInQuoted => "found unexpected document separator"
  | .unknownEscape found => s!"found unknown escape character {quotedNext found}"
  | .undecodable fault => fault.message
  | .duplicateVersion => "found duplicate YAML directive"
  | .incompatibleVersion => "found incompatible YAML document (version 1.* is required)"
  | .duplicateHandle handle => s!"duplicate tag handle {quoted handle}"
  | .undefinedHandle handle => s!"found undefined tag handle {quoted handle}"
  | .undefinedAnchor anchor => s!"found undefined alias {quoted anchor}"
  | .secondOccurrence => "second occurrence"
  | .unknownTag tag => s!"could not determine a constructor for the tag {quoted tag}"
  | .wrongNode what found => s!"expected {what}, but found {found}"
  | .itemCount count => s!"expected a single mapping item, but found {count} items"
  | .unhashableKey => "found unhashable key"
  | .recursiveNode => "found unconstructable recursive node"
  | .notAscii reason => s!"failed to convert base64 data into ascii: {reason}"
  | .badBase64 reason => s!"failed to decode base64 data: {reason}"

/-- What was being read, and from where on. -/
structure Activity where
  what : String
  since : Option Position
  deriving DecidableEq

structure Fault where
  activity : Option Activity
  problem : Problem
  pos : Position
  deriving DecidableEq

/-- The full message: the activity with its place, unless that is the place of the problem, then
the problem with its own. -/
def Fault.describe (text : List Char) (f : Fault) : String :=
  let activity :=
    match f.activity with
    | none => []
    | some a =>
      match a.since with
      | some p =>
        if p.line == f.pos.line && p.column == f.pos.column then [a.what]
        else [a.what, p.describe text]
      | none => [a.what]
  "\n".intercalate (activity ++ [f.problem.text, f.pos.describe text])

/-- Why a text of the shape of a time is none. -/
inductive CalendarFault where
  | year (n : Nat)
  | month
  | day
  | hour
  | minute
  | second
  /-- A distance from standard time, in seconds, of a day or more. -/
  | offset (seconds : Int)
  deriving DecidableEq

def CalendarFault.message : CalendarFault → String
  | .year n => s!"year {n} is out of range"
  | .month => "month must be in 1..12"
  | .day => "day is out of range for month"
  | .hour => "hour must be in 0..23"
  | .minute => "minute must be in 0..59"
  | .second => "second must be in 0..59"
  | .offset seconds =>
    let (days, rest) := (Int.fdiv seconds 86400, Int.fmod seconds 86400)
    let parts := [("days", days), ("seconds", rest)].filter (·.2 != 0)
    let named := parts.map fun (n, v) => s!"{n}={v}"
    let shown := if named.isEmpty then "0" else ", ".intercalate named
    "offset must be a timedelta strictly between -timedelta(hours=24) and timedelta(hours=24), not "
      ++ s!"datetime.timedelta({shown})."

/-- A text that is well-formed but stands for no value. -/
inductive ValueFault where
  /-- An escape that names a number beyond the last code point. -/
  | codePointRange
  /-- An escape that names a number beyond the words of a machine. -/
  | codePointSize
  | integer (base : Nat) (text : String) (fault : IntegerFault)
  | number (text : String)
  /-- A number of so many parts that their weights are no numbers. -/
  | numberSize
  | boolean (text : String)
  /-- A number without any character. -/
  | noDigits
  | calendar (fault : CalendarFault)
  | noTime
  /-- A mapping where the text of a time is needed. -/
  | timeOfMapping
  deriving DecidableEq

def ValueFault.message : ValueFault → String
  | .codePointRange => "chr() arg not in range(0x110000)"
  | .codePointSize => "Python int too large to convert to C int"
  | .numberSize => "int too large to convert to float"
  | .integer base text fault => fault.message base text
  | .number text => s!"could not convert string to float: {quoted text}"
  | .boolean text => quoted text
  | .noDigits => "string index out of range"
  | .calendar fault => fault.message
  | .noTime => "'NoneType' object has no attribute 'groupdict'"
  | .timeOfMapping => "expected string or bytes-like object, got 'list'"

/-- Everything that ends the reading of a text. -/
inductive Failure where
  | fault (f : Fault)
  /-- A control character or a surrogate somewhere in the text; found before anything is read. -/
  | unacceptable (code index : Nat)
  | value (f : ValueFault)
  deriving DecidableEq

def unacceptableText (code index : Nat) : String :=
  let digits := if code < 0x10000 then hex 4 code else hex 8 code
  s!"unacceptable character #x{digits}: special characters are not allowed\n"
    ++ s!"  in \"<unicode string>\", position {index}"

/-- A code point that may stand in a text at all. -/
def isAcceptable (n : Nat) : Bool :=
  n == 0x9 || n == 0xa || n == 0xd || (0x20 ≤ n && n ≤ 0x7e) || n == 0x85
    || (0xa0 ≤ n && n ≤ 0xfffd && !isSurrogate n) || 0x10000 ≤ n

def unacceptable? (text : List Nat) : Option Failure :=
  (text.findIdx? fun n => !isAcceptable n).bind fun i =>
    text[i]?.map fun n => .unacceptable n i

end DataModel.Yaml
