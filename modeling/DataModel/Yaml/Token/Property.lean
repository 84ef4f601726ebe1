import DataModel.Yaml.Token.Scalar

/-!
Directives, and the properties that may stand before a node: anchors and tags; an alias reads
like an anchor. Tags may hold bytes written as `%` escapes, which together must be UTF-8.
-/
namespace DataModel.Yaml
open DataModel.Text

namespace Scan

def alphanumeric : String := "alphabetic or numeric character"

def directiveName (activity : Activity) : Scan String := do
  let name ← takeWhile isWordChar
  let c ← peek
  if name.isEmpty || !endsField c then fail activity (.expected alphanumeric c)
  else return String.ofList name

def versionNumber (activity : Activity) : Scan Nat := do
  let digits ← (do return (← get).rest.takeWhile Char.isDigit : Scan (List Char))
  if digits.isEmpty then fail activity (.expected "a digit" (← peek))
  else
    match readNatural 10 digits with
    | .ok n => skip digits.length; return n
    | .error fault => throw (.value (.integer 10 (String.ofList digits) fault))

def versionValue (activity : Activity) : Scan Directive := do
  skipWhile (· == ' ')
  let major ← versionNumber activity
  let c ← peek
  if c != some '.' then fail activity (.expected "a digit or '.'" c)
  skip 1
  let minor ← versionNumber activity
  let c ← peek
  if endsField c then return .version major minor
  else fail activity (.expected "a digit or ' '" c)

/-- A tag handle: `!`, `!!` or `!name!`. -/
def tagHandle (activity : Activity) : Scan String := do
  let c ← peek
  if c != some '!' then fail activity (.expected "'!'" c)
  if (← peek 1) == some ' ' then skip 1; return "!"
  skip 1
  let name ← takeWhile isWordChar
  let c ← peek
  if c != some '!' then fail activity (.expected "'!'" c)
  skip 1
  return String.ofList ('!' :: name ++ ['!'])

def isUriChar (c : Char) : Bool :=
  c.isAlphanum || "-;/?:@&=+$,_.!~*'()[]".contains c

/-- The bytes of a run of `%` escapes. -/
def uriBytes (activity : Activity) : Nat → Scan (List UInt8)
  | 0 => return []
  | fuel + 1 => do
    if (← peek) != some '%' then return []
    skip 1
    let digits := (← get).rest.take 2
    let good := digits.takeWhile isHexDigit
    if good.length < 2 then
      fail activity (.expected "URI escape sequence of 2 hexadecimal numbers" digits[good.length]?)
    skip 2
    return (hexValue digits).toUInt8 :: (← uriBytes activity fuel)

def uriEscapes (activity : Activity) : Scan (List Char) := do
  let start ← position
  let bytes ← uriBytes activity (← remaining)
  match Utf8.decode bytes with
  | .ok text => return text.toList
  | .error fault => throw (.fault ⟨activity, .undecodable fault, start⟩)

def uriRuns (activity : Activity) : Nat → Scan (List Char)
  | 0 => return []
  | fuel + 1 => do
    let run ← takeWhile isUriChar
    if (← peek) == some '%' then
      let text ← uriEscapes activity
      return run ++ text ++ (← uriRuns activity fuel)
    else return run

/-- A tag URI. One escape is enough to make it a URI, even if it stands for no character. -/
def tagUri (name : String) (start : Position) : Scan String := do
  let c ← peek
  let text ← uriRuns ⟨s!"while scanning a {name}", start⟩ ((← remaining) + 1)
  if c.any fun c => isUriChar c || c == '%' then return String.ofList text
  else fail (some ⟨s!"while parsing a {name}", start⟩) (.expected "URI" c)

def handleValue (activity : Activity) (start : Position) : Scan Directive := do
  skipWhile (· == ' ')
  let handle ← tagHandle activity
  let c ← peek
  if c != some ' ' then fail activity (.expected "' '" c)
  skipWhile (· == ' ')
  let leading ← tagUri "directive" start
  let c ← peek
  if endsField c then return .handle handle leading
  else fail activity (.expected "' '" c)

def directive : Scan Token := do
  let start ← position
  let activity : Activity := ⟨"while scanning a directive", start⟩
  skip 1
  let name ← directiveName activity
  let value ←
    if name == "YAML" then versionValue activity
    else if name == "TAG" then handleValue activity start
    else pure (.other name)
  let finish ← position
  match value with
  | .other _ => skipWhile fun c => !isBreak c
  | _ => pure ()
  ignoredLine activity
  return ⟨.directive value, start, finish⟩

/-- A character that may follow the name of an anchor. -/
def endsAnchor (c : Option Char) : Bool :=
  endsWord c || c.any fun c => "?:,]\x7d%@".contains c || c == Char.ofNat 0x60

def anchorName (what : String) : Scan (String × Position) := do
  let start ← position
  let activity : Activity := ⟨s!"while scanning an {what}", start⟩
  skip 1
  let name ← takeWhile isWordChar
  let c ← peek
  if name.isEmpty || !endsAnchor c then fail activity (.expected alphanumeric c)
  else return (String.ofList name, start)

def anchorToken : Scan Token := do
  let (name, start) ← anchorName "anchor"
  return ⟨.anchor name, start, ← position⟩

def aliasToken : Scan Token := do
  let (name, start) ← anchorName "alias"
  return ⟨.alias name, start, ← position⟩

/-- The characters of a tag before the next `!` or blank decide whether it has a named handle. -/
def hasHandle (rest : List Char) : Bool :=
  (rest.takeWhile fun c => !(c == ' ' || isBreak c)).contains '!'

def tagText (start : Position) : Scan TagText := do
  let c ← peek 1
  if c == some '<' then
    skip 2
    let suffix ← tagUri "tag" start
    let c ← peek
    if c != some '>' then
      fail (some ⟨"while parsing a tag", start⟩) (.expected "'>'" c)
    skip 1
    return ⟨none, suffix⟩
  else if endsWord c then
    skip 1
    return ⟨none, "!"⟩
  else if hasHandle ((← get).rest.drop 1) then
    let handle ← tagHandle ⟨"while scanning a tag", start⟩
    return ⟨some handle, ← tagUri "tag" start⟩
  else
    skip 1
    return ⟨some "!", ← tagUri "tag" start⟩

def tag : Scan Token := do
  let start ← position
  let text ← tagText start
  let c ← peek
  if endsField c then return ⟨.tag text, start, ← position⟩
  else fail (some ⟨"while scanning a tag", start⟩) (.expected "' '" c)

end Scan
end DataModel.Yaml
