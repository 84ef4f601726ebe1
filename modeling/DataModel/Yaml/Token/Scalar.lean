import DataModel.Yaml.Token

/-!
Scalar tokens: plain, quoted and block text. Each reader starts on the scalar's first character
and ends after its last; loops over characters are bounded by what is left of the text.
-/
namespace DataModel.Yaml
open DataModel.Text

namespace Scan

/-- Line breaks and blanks inside a quoted scalar; a document marker may not stand there. -/
def quotedBreaks (activity : Activity) : Nat → Scan (List Char)
  | 0 => return []
  | fuel + 1 => do
    if ← atSeparator then fail activity .separatorInQuoted
    skipWhile fun c => c == ' ' || c == '\t'
    if breaks (← peek) then
      let b ← lineBreak
      return b ++ (← quotedBreaks activity fuel)
    else return []

/-- How a single break and the breaks after it read: one line feed folds into a space, or into
nothing when more breaks follow. -/
def folded (first : List Char) (more : List Char) : List Char :=
  if first != ['\n'] then first ++ more
  else if more.isEmpty then [' ']
  else more

def quotedSpaces (activity : Activity) : Scan (List Char) := do
  let blanks ← takeWhile fun c => c == ' ' || c == '\t'
  let c ← peek
  if c.isNone then fail activity .endOfQuoted
  else if breaks c then
    let first ← lineBreak
    let more ← quotedBreaks activity (← remaining)
    return folded first more
  else return blanks

/-- The one-letter escapes of a double-quoted scalar. -/
def escaped? (c : Char) : Option Char :=
  match c with
  | '0' => some (Char.ofNat 0)
  | 'a' => some (Char.ofNat 7)
  | 'b' => some (Char.ofNat 8)
  | 't' | '\t' => some '\t'
  | 'n' => some '\n'
  | 'v' => some (Char.ofNat 0xb)
  | 'f' => some (Char.ofNat 0xc)
  | 'r' => some '\r'
  | 'e' => some (Char.ofNat 0x1b)
  | ' ' | '"' | '\\' | '/' => some c
  | 'N' => some nextLine
  | '_' => some (Char.ofNat 0xa0)
  | 'L' => some lineSeparator
  | 'P' => some paragraphSeparator
  | _ => none

/-- How many hexadecimal digits follow an escape letter. -/
def escapeWidth? (c : Char) : Option Nat :=
  match c with
  | 'x' => some 2
  | 'u' => some 4
  | 'U' => some 8
  | _ => none

def hexValue (digits : List Char) : Nat :=
  ofDigits 16 (digits.filterMap (digitValue? 16))

/-- The first number that is too large for a word of a machine. -/
def wordBound : Nat := 0x80000000

/-- An escape, after its backslash; it may name a surrogate. `whole` is the reading of the scalar,
`part` that of its escapes. -/
def escape (whole part : Activity) : Scan (List Char) := do
  let found ← peek
  match found.bind escaped? with
  | some c => skip 1; return [c]
  | none =>
    match found.bind escapeWidth? with
    | some width =>
      skip 1
      let digits := (← get).rest.take width
      let good := digits.takeWhile isHexDigit
      if good.length < width then
        fail part
          (.expected s!"escape sequence of {width} hexadecimal numbers" (digits[good.length]?))
      else if wordBound ≤ hexValue digits then throw (.value .codePointSize)
      else if 0x10ffff < hexValue digits then throw (.value .codePointRange)
      else
        skip width
        return coded (hexValue digits)
    | none =>
      if breaks found then
        discard lineBreak
        quotedBreaks whole (← remaining)
      else fail part (.unknownEscape found)

/-- Text of a quoted scalar up to the next blank, break, closing quote or end, coded. -/
def quotedRun (double : Bool) (activity : Activity) : Nat → Scan (List Char)
  | 0 => return []
  | fuel + 1 => do
    let run ← takeWhile fun c =>
      !(c == '\'' || c == '"' || c == '\\' || c == ' ' || c == '\t' || isBreak c)
    let run := run.flatMap codedChar
    let c ← peek
    if !double && c == some '\'' && (← peek 1) == some '\'' then
      skip 2
      return run ++ '\'' :: (← quotedRun double activity fuel)
    else if double && c == some '\'' then
      skip 1
      return run ++ '\'' :: (← quotedRun double activity fuel)
    else if !double && c == some '"' then
      skip 1
      return run ++ '"' :: (← quotedRun double activity fuel)
    else if !double && c == some '\\' then
      skip 1
      return run ++ '\\' :: (← quotedRun double activity fuel)
    else if double && c == some '\\' then
      skip 1
      let text ← escape activity ⟨"while scanning a double-quoted scalar", activity.since⟩
      return run ++ text ++ (← quotedRun double activity fuel)
    else return run

/-- The inside of a quoted scalar, and its closing quote. -/
def quotedText (quote : Char) (activity : Activity) : Nat → Scan (List Char)
  | 0 => return []
  | fuel + 1 => do
    if (← peek) == some quote then skip 1; return []
    else
      let blanks ← quotedSpaces activity
      let run ← quotedRun (quote == '"') activity (← remaining)
      return blanks ++ run ++ (← quotedText quote activity fuel)

def quotedScalar (quote : Char) : Scan Token := do
  let start ← position
  let activity : Activity := ⟨"while scanning a quoted scalar", start⟩
  skip 1
  let run ← quotedRun (quote == '"') activity (← remaining)
  let rest ← quotedText quote activity ((← remaining) + 1)
  return ⟨.scalar (String.ofList (run ++ rest)) false, start, ← position⟩

/-- How the line breaks that end a block scalar read. -/
inductive Chomping where
  | strip | clip | keep
  deriving DecidableEq

def chomping? : Option Char → Option Chomping
  | some '+' => some .keep
  | some '-' => some .strip
  | _ => none

/-- An indentation digit, which may not be zero. -/
def indentDigit (activity : Activity) : Scan (Option Nat) := do
  match ← peek with
  | some c =>
    if c == '0' then fail activity .zeroIndentation
    else if c.isDigit then skip 1; return some (c.toNat - '0'.toNat)
    else return none
  | none => return none

/-- The indicators after `|` or `>`, in either order. -/
def blockIndicators (activity : Activity) : Scan (Chomping × Option Nat) := do
  let result ← match chomping? (← peek) with
    | some chomping =>
      skip 1
      let digit ← indentDigit activity
      pure (chomping, digit)
    | none =>
      match ← indentDigit activity with
      | none => pure (.clip, none)
      | some digit =>
        match chomping? (← peek) with
        | some chomping => skip 1; pure (chomping, some digit)
        | none => pure (.clip, some digit)
  let c ← peek
  if endsField c then return result
  else fail activity (.expected "chomping or indentation indicators" c)

/-- The leading blank lines of a block scalar, and the widest indentation among them. -/
def blockIndentation : Nat → Nat → Scan (List Char × Nat)
  | 0, widest => return ([], widest)
  | fuel + 1, widest => do
    match ← peek with
    | some c =>
      if c == ' ' then
        skip 1
        blockIndentation fuel (max widest (← position).column)
      else if isBreak c then
        let b ← lineBreak
        let (more, w) ← blockIndentation fuel widest
        return (b ++ more, w)
      else return ([], widest)
    | none => return ([], widest)

/-- Skips spaces up to a column. -/
def skipIndent (indent : Nat) : Scan Unit := do
  let c ← get
  let spaces := (c.rest.takeWhile (· == ' ')).length
  skip (min spaces (indent - c.pos.column))

/-- The blank lines between two lines of a block scalar. -/
def blockBreaks (indent : Nat) : Nat → Scan (List Char)
  | 0 => skipIndent indent *> return []
  | fuel + 1 => do
    skipIndent indent
    if breaks (← peek) then
      let b ← lineBreak
      return b ++ (← blockBreaks indent fuel)
    else return []

def isInner : Option Char → Bool
  | some c => c == ' ' || c == '\t'
  | none => false

/-- The lines of a block scalar; `before` are the blank lines that lead to the next line. The
result ends with the last break and the blank lines after it, kept apart for chomping. -/
def blockLines (fold : Bool) (indent : Nat) :
    Nat → List Char → Scan (List Char × List Char × List Char)
  | 0, before => return ([], [], before)
  | fuel + 1, before => do
    if (← position).column == indent && (← peek).isSome then
      let flush := !isInner (← peek)
      let line ← takeWhile fun c => !isBreak c
      let lineEnd ← lineBreak
      let blanks ← blockBreaks indent (← remaining)
      let text := before ++ line
      if (← position).column == indent && (← peek).isSome then
        let join :=
          if fold && lineEnd == ['\n'] && flush && !isInner (← peek) then
            if blanks.isEmpty then [' '] else []
          else lineEnd
        let (more, lastBreak, tail) ← blockLines fold indent fuel blanks
        return (text ++ join ++ more, lastBreak, tail)
      else return (text, lineEnd, blanks)
    else return ([], [], before)

/-- A literal or folded scalar inside a construct of the given indentation. -/
def blockScalar (fold : Bool) (parentIndent : Int) : Scan Token := do
  let start ← position
  let activity : Activity := ⟨"while scanning a block scalar", start⟩
  skip 1
  let (chomping, digit) ← blockIndicators activity
  ignoredLine activity
  let least := (max (parentIndent + 1) 1).toNat
  let (leading, indent) ← match digit with
    | none =>
      let (leading, widest) ← blockIndentation (← remaining) 0
      pure (leading, max least widest)
    | some d =>
      let indent := least + d - 1
      pure (← blockBreaks indent (← remaining), indent)
  let (text, lastBreak, tail) ← blockLines fold indent ((← remaining) + 1) leading
  let ending :=
    match chomping with
    | .strip => []
    | .clip => lastBreak
    | .keep => lastBreak ++ tail
  return ⟨.scalar (ofChars (text ++ ending)) false, start, ← position⟩

/-- Breaks after the first one between two lines of a plain scalar; `none` at a document marker. -/
def plainBreaks : Nat → Scan (Option (List Char))
  | 0 => return some []
  | fuel + 1 => do
    match ← peek with
    | some c =>
      if c == ' ' then skip 1; plainBreaks fuel
      else if isBreak c then
        let b ← lineBreak
        if ← atSeparator then return none
        else return (← plainBreaks fuel).map (b ++ ·)
      else return some []
    | none => return some []

/-- Blanks inside a plain scalar, and whether they hold a line break. Nothing is returned where
the scalar ends. -/
def plainSpaces : Scan (List Char × Bool) := do
  let blanks ← takeWhile (· == ' ')
  if breaks (← peek) then
    let first ← lineBreak
    if ← atSeparator then return ([], true)
    match ← plainBreaks (← remaining) with
    | none => return ([], true)
    | some more => return (folded first more, true)
  else return (blanks, false)

def isFlowIndicator (c : Char) : Bool := ",[]\x7b\x7d".contains c

/-- The length of the run of plain characters; a colon ends it where a value may follow. -/
def plainLength (flow : Bool) : List Char → Nat
  | [] => 0
  | c :: rest =>
    if c == ' ' || c == '\t' || isBreak c then 0
    else if c == ':' && (endsWord rest.head? || (flow && rest.head?.any isFlowIndicator)) then 0
    else if flow && (c == '?' || isFlowIndicator c) then 0
    else plainLength flow rest + 1

/-- The runs of a plain scalar. The flag tells whether a line break stands after the last run,
the position where that run ends. -/
def plainRuns (flow : Bool) (indent : Int) :
    Nat → List Char → Position → Bool → Scan (List Char × Position × Bool)
  | 0, _, finish, broken => return ([], finish, broken)
  | fuel + 1, blanks, finish, broken => do
    let c ← get
    let length := plainLength flow c.rest
    if c.peek == some '#' || length == 0 then return ([], finish, broken)
    else
      let run := c.rest.take length
      skip length
      let finish ← position
      let (spaces, broken) ← plainSpaces
      if spaces.isEmpty || (← peek) == some '#' || (!flow && (← position).column < indent) then
        return (blanks ++ run, finish, broken)
      else
        let (more, last, endBroken) ← plainRuns flow indent fuel spaces finish broken
        return (blanks ++ run ++ more, last, endBroken)

/-- A plain scalar, and whether the text after it stands on a new line. -/
def plainScalar (flow : Bool) (indent : Int) : Scan (Token × Bool) := do
  let start ← position
  let (text, finish, broken) ← plainRuns flow (indent + 1) (← remaining) [] start false
  return (⟨.scalar (ofChars text) true, start, finish⟩, broken)

end Scan
end DataModel.Yaml
