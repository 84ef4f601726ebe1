import DataModel.Text.Character
import DataModel.Text.Surrogate

/-!
Quoted text, as messages show the names they are about. A text stands between single quotes,
or between double quotes when it holds a single quote and no double one; what is not printable
is written as an escape.
-/
namespace DataModel.Text

def hexDigit (n : Nat) : Char :=
  if n < 10 then Char.ofNat ('0'.toNat + n) else Char.ofNat ('a'.toNat + (n - 10))

/-- The last `width` hexadecimal digits of a number. -/
def hexDigits : Nat → Nat → List Char
  | 0, _ => []
  | width + 1, n => hexDigits width (n / 16) ++ [hexDigit (n % 16)]

def hex (width n : Nat) : String := String.ofList (hexDigits width n)

def quoteMark (s : List Char) : Char :=
  if s.contains '\'' && !s.contains '"' then '"' else '\''

def quotedChar (mark c : Char) : List Char :=
  if c == mark || c == '\\' then ['\\', c]
  else if c == '\n' then ['\\', 'n']
  else if c == '\r' then ['\\', 'r']
  else if c == '\t' then ['\\', 't']
  else if isPrintable c then [c]
  else if c.toNat < 0x100 then '\\' :: 'x' :: hexDigits 2 c.toNat
  else if c.toNat < 0x10000 then '\\' :: 'u' :: hexDigits 4 c.toNat
  else '\\' :: 'U' :: hexDigits 8 c.toNat

def quotedCode (mark : Char) (code : Nat) : List Char :=
  if isSurrogate code then '\\' :: 'u' :: hexDigits 4 code else quotedChar mark (Char.ofNat code)

def quoted (s : String) : String :=
  let mark := quoteMark s.toList
  String.ofList (mark :: (codes s).flatMap (quotedCode mark) ++ [mark])

/-- The character a reader stands on, quoted; the end of the text shows as a null. -/
def quotedNext : Option Char → String
  | some c => quoted (ofChars [c])
  | none => quoted "\x00"

end DataModel.Text
