import DataModel.Text.Number
import DataModel.Text.Quotient
import DataModel.Text.Quoted

/-!
Message templates. A mark begins with a percent sign and stands for the next argument, or for the
one that it names; flags, a width and a number of places say how the argument is shown, and a letter
says as what.
-/
namespace DataModel.Text

inductive Argument where
  | text (s : String)
  | integer (n : Int)
  /-- A number with a fraction: a whole number times a power of ten. -/
  | real (negative : Bool) (digits : Nat) (exponent : Int)
  | boolean (b : Bool)
  | nothing
  | list (items : List Argument)
  | mapping (pairs : List (String × Argument))
  deriving Inhabited

inductive TemplateFault where
  | tooFew
  | tooMany
  | notNumber (letter : Char) (found : String)
  | notReal (found : String)
  | notCharacter
  | noCharacter
  | notWidth
  | notMapping
  | incompleteKey
  | missingKey (key : String)
  | tooLarge
  | tooWide
  | tooPrecise
  /-- A width or a number of places, given as an argument, that no machine knows. -/
  | noCount (width : Bool)
  | placesTooLarge
  | outOfMemory
  | incomplete
  | unsupported (code index : Nat)

def TemplateFault.message : TemplateFault → String
  | .tooFew => "not enough arguments for format string"
  | .tooMany => "not all arguments converted during string formatting"
  | .notNumber letter found =>
    let wanted := if "xXo".contains letter then "an integer" else "a real number"
    s!"%{letter} format: {wanted} is required, not {found}"
  | .notReal found => s!"must be real number, not {found}"
  | .notCharacter => "%c requires int or char"
  | .noCharacter => "%c arg not in range(0x110000)"
  | .notWidth => "* wants int"
  | .notMapping => "format requires a mapping"
  | .incompleteKey => "incomplete format key"
  | .missingKey key => quoted key
  | .tooLarge => "int too large to convert to float"
  | .tooWide => "width too big"
  | .tooPrecise => "precision too big"
  | .noCount width =>
    let word := if width then "ssize_t" else "int"
    s!"Python int too large to convert to C {word}"
  | .placesTooLarge => "precision too large"
  | .outOfMemory => ""
  | .incomplete => "incomplete format"
  | .unsupported code index =>
    let shown := if 31 ≤ code && code ≤ 126 then Char.ofNat code else '?'
    let digits := String.ofList (Nat.toDigits 16 code)
    s!"unsupported format character '{shown}' (0x{digits}) at index {index}"

/-- A mark of a template: how its argument is shown. -/
structure TemplateMark where
  left : Bool
  plus : Bool
  blank : Bool
  zeros : Bool
  /-- Shows the base of a whole number and the point of any other. -/
  full : Bool
  width : Nat
  places : Option Nat
  letter : Char

def digitsText (n : Nat) : List Char := (toString n).toList

/-- Digits with a point before the last `places` of them. -/
def withPoint (digits : List Char) (places : Nat) : List Char :=
  let padded := List.replicate (places + 1 - digits.length) '0' ++ digits
  if places == 0 then padded
  else padded.take (padded.length - places) ++ '.' :: padded.drop (padded.length - places)

def withoutFinal (c : Char) (cs : List Char) : List Char := (cs.reverse.dropWhile (· == c)).reverse

/-- An exponent with its sign and at least two digits. -/
def exponentText (e : Int) : List Char :=
  let digits := digitsText e.natAbs
  'e' :: (if e < 0 then '-' else '+') :: (if digits.length < 2 then '0' :: digits else digits)

/-- Digits with a point behind the first, and the exponent of the first. -/
def scientificText (digits : List Char) (e : Int) (point : Bool) : List Char :=
  let tail := digits.drop 1
  digits.take 1 ++ (if tail.isEmpty && !point then [] else '.' :: tail) ++ exponentText e

/-- Digits with the first at the place `e`: 0 for ones, 1 for tens, -1 for tenths. -/
def positionalText (digits : List Char) (e : Int) (point : Bool) : List Char :=
  if e < 0 then '0' :: '.' :: List.replicate (e.natAbs - 1) '0' ++ digits
  else
    let whole := e.toNat + 1
    let tail := digits.drop whole
    digits.take whole ++ List.replicate (whole - digits.length) '0'
      ++ (if tail.isEmpty && !point then [] else '.' :: tail)

/-- A number with a fraction, without its sign: with an exponent if it is very large or small. -/
def realText (n : Nat) (exponent : Int) : List Char :=
  let all := digitsText n
  match withoutFinal '0' all with
  | [] => "0.0".toList
  | digits =>
    let e : Int := (all.length : Int) - 1 + exponent
    if e < -4 || 16 ≤ e then scientificText digits e false
    else
      let text := positionalText digits e true
      if text.getLast? == some '.' then text ++ ['0'] else text

def signedText (negative : Bool) (cs : List Char) : List Char := if negative then '-' :: cs else cs

/-- A character that is not plain is written as an escape. -/
def plainCode (code : Nat) : List Char :=
  if code ≤ '~'.toNat then [Char.ofNat code]
  else if code < 0x100 then '\\' :: 'x' :: hexDigits 2 code
  else if code < 0x10000 then '\\' :: 'u' :: hexDigits 4 code
  else '\\' :: 'U' :: hexDigits 8 code

/-- The number of code points of a coded text. -/
def sizeOf (cs : List Char) : Nat := (codesOf cs).length

namespace Argument

mutual

/-- An argument as it is written among others. -/
def quotedText : Argument → List Char
  | .text s => (quoted s).toList
  | .integer n => signedText (n < 0) (digitsText n.natAbs)
  | .real negative digits exponent => signedText negative (realText digits exponent)
  | .boolean true => "True".toList
  | .boolean false => "False".toList
  | .nothing => "None".toList
  | .list items => '[' :: (", ".toList.intercalate (quotedItems items) ++ [']'])
  | .mapping pairs => '\x7b' :: (", ".toList.intercalate (quotedPairs pairs) ++ ['\x7d'])

def quotedItems : List Argument → List (List Char)
  | [] => []
  | a :: rest => quotedText a :: quotedItems rest

def quotedPairs : List (String × Argument) → List (List Char)
  | [] => []
  | (key, a) :: rest => ((quoted key).toList ++ ": ".toList ++ quotedText a) :: quotedPairs rest

end

def plainText : Argument → List Char
  | .text s => s.toList
  | a => a.quotedText

def kind : Argument → String
  | .text _ => "str"
  | .integer _ => "int"
  | .real .. => "float"
  | .boolean _ => "bool"
  | .nothing => "NoneType"
  | .list _ => "list"
  | .mapping _ => "dict"

def integer? : Argument → Option Int
  | .integer n => some n
  | .boolean b => some b.toNat
  | _ => none

end Argument

namespace Quotient

/-- The binary fraction nearest to a decimal one, if there is one so large. -/
def ofDecimal? (digits : Nat) (exponent : Int) : Option Quotient :=
  ofFloat? (nearestNumber digits exponent)

/-- The nearest whole number; a half goes to the even one. -/
def nearestWhole (x : Quotient) : Nat :=
  let (q, r) := (x.top / x.bottom, x.top % x.bottom)
  if 2 * r < x.bottom || (2 * r == x.bottom && q % 2 == 0) then q else q + 1

/-- Times a power of ten. -/
def shift (x : Quotient) (e : Int) : Quotient :=
  if e < 0 then { x with bottom := x.bottom * Nat.pow 10 e.natAbs }
  else { x with top := x.top * Nat.pow 10 e.toNat }

/-- The place of the first digit. -/
def exponent (x : Quotient) : Int :=
  if x.bottom ≤ x.top then ((digitsText (x.top / x.bottom)).length : Int) - 1
  else if x.top == 0 then 0
  else
    let k := (digitsText (x.bottom / x.top)).length - 1
    if x.bottom ≤ x.top * Nat.pow 10 k then -(k : Int) else -(k + 1 : Int)

/-- No binary fraction has more digits, nor more of them behind its point; zeros follow. -/
def maxDigits : Nat := 1100

def finalZeros (count : Nat) : List Char := List.replicate (count - maxDigits) '0'

/-- So many digits, rounded, and the place of the first; not more than a number may have. -/
def digits (x : Quotient) (wanted : Nat) : List Char × Int :=
  let count := min wanted maxDigits
  if x.top == 0 then (List.replicate count '0', 0)
  else
    let e := x.exponent
    let ds := digitsText (x.shift ((count : Int) - 1 - e)).nearestWhole
    if ds.length == count then (ds, e) else (ds.take count, e + 1)

def fixedText (x : Quotient) (places : Nat) (point : Bool) : List Char :=
  let shown := min places maxDigits
  withPoint (digitsText (x.shift shown).nearestWhole) shown ++ finalZeros places
    ++ (if places == 0 && point then ['.'] else [])

/-- So many digits behind the first one, with an exponent. -/
def exponentialText (x : Quotient) (places : Nat) (point : Bool) : List Char :=
  let (ds, e) := x.digits (places + 1)
  scientificText (ds ++ finalZeros (places + 1)) e point

/-- So many digits, without zeros at the end unless `point` is set; with an exponent if the number
is very large or small. -/
def shortText (x : Quotient) (places : Nat) (point : Bool) : List Char :=
  let (ds, e) := x.digits places
  let ds := if point then ds ++ finalZeros places else
    match withoutFinal '0' ds with
    | [] => ['0']
    | ds => ds
  if e < -4 || (places : Int) ≤ e then scientificText ds e point else positionalText ds e point

end Quotient

/-- What a mark shows, before it is brought to its width. -/
structure Filling where
  /-- What stands before the digits. -/
  front : List Char
  digits : List Char
  /-- Whether zeros may stand between the two. -/
  zeros : Bool

def Filling.plain (cs : List Char) : Filling := ⟨[], cs, false⟩

namespace TemplateMark

/-- Brings a filling to the width. -/
def pad (m : TemplateMark) (f : Filling) : List Char :=
  let missing := m.width - (sizeOf f.front + sizeOf f.digits)
  if m.left then f.front ++ f.digits ++ List.replicate missing ' '
  else if f.zeros then f.front ++ List.replicate missing '0' ++ f.digits
  else List.replicate missing ' ' ++ f.front ++ f.digits

def sign (m : TemplateMark) (negative : Bool) : List Char :=
  if negative then ['-'] else if m.plus then ['+'] else if m.blank then [' '] else []

def text (m : TemplateMark) (cs : List Char) : Filling :=
  .plain (match m.places with
    | some n => ((codesOf cs).take n).flatMap coded
    | none => cs)

def base (m : TemplateMark) : Nat :=
  match m.letter with
  | 'x' | 'X' => 16
  | 'o' => 8
  | _ => 10

/-- Fields are no longer than this. -/
def maxWidth : Nat := Nat.pow 2 32

/-- The largest number of places of a whole number. -/
def maxDigits : Nat := Nat.pow 2 31 - 4

def whole (m : TemplateMark) (n : Int) : Except TemplateFault Filling :=
  if maxDigits < m.places.getD 0 then .error .placesTooLarge
  else
    let ds := Nat.toDigits m.base n.natAbs
    let ds := if m.letter == 'X' then ds.map Char.toUpper else ds
    let shownBase := if m.full && m.base != 10 then ['0', m.letter] else []
    let ds := List.replicate (m.places.getD 0 - ds.length) '0' ++ ds
    .ok ⟨m.sign (n < 0) ++ shownBase, ds, m.zeros⟩

def real (m : TemplateMark) (negative : Bool) (x : Option Quotient) :
    Except TemplateFault Filling :=
  match x with
  | none => .error .tooLarge
  | some x =>
    let wanted := m.places.getD 6
    let ds := match m.letter.toLower with
      | 'f' => x.fixedText wanted m.full
      | 'e' => x.exponentialText wanted m.full
      | _ => x.shortText (max wanted 1) m.full
    .ok ⟨m.sign negative, if m.letter.isUpper then ds.map Char.toUpper else ds, m.zeros⟩

def character : Argument → Except TemplateFault Filling
  | .text s =>
    match codes s with
    | [code] => .ok (.plain (coded code))
    | _ => .error .notCharacter
  | a =>
    match a.integer? with
    | none => .error .notCharacter
    | some n =>
      if n < 0 || 0x110000 ≤ n then .error .noCharacter
      else .ok (.plain (coded n.toNat))

/-- What an argument is shown as. A letter that is none is told with its code and its place. -/
def filling (m : TemplateMark) (code index : Nat) (a : Argument) : Except TemplateFault Filling :=
  match m.letter with
  | 's' => .ok (m.text a.plainText)
  | 'r' => .ok (m.text a.quotedText)
  | 'a' => .ok (m.text ((codesOf a.quotedText).flatMap plainCode))
  | 'd' | 'i' | 'u' =>
    match a.integer?, a with
    | some n, _ => m.whole n
    | none, .real negative digits exponent =>
      match Quotient.ofDecimal? digits exponent with
      | some x => m.whole (if negative then -(x.whole : Int) else x.whole)
      | none => .error .tooLarge
    | none, _ => .error (.notNumber m.letter a.kind)
  | 'x' | 'X' | 'o' =>
    match a.integer? with
    | some n => m.whole n
    | none => .error (.notNumber m.letter a.kind)
  | 'e' | 'E' | 'f' | 'F' | 'g' | 'G' =>
    match a.integer?, a with
    | some n, _ => m.real (n < 0) (Quotient.ofDecimal? n.natAbs 0)
    | none, .real negative digits exponent => m.real negative (Quotient.ofDecimal? digits exponent)
    | none, _ => .error (.notReal a.kind)
  | 'c' => character a
  | _ => .error (.unsupported code index)

/-- Shows an argument; the letter is that of a code at a place. -/
def fill (m : TemplateMark) (code index : Nat) (a : Argument) :
    Except TemplateFault (List Char) := do
  let f ← m.filling code index a
  if maxWidth < m.width then throw .outOfMemory
  return m.pad f

def readFlags (m : TemplateMark) : List Char → TemplateMark × List Char
  | '-' :: rest => readFlags { m with left := true } rest
  | '+' :: rest => readFlags { m with plus := true } rest
  | ' ' :: rest => readFlags { m with blank := true } rest
  | '0' :: rest => readFlags { m with zeros := true } rest
  | '#' :: rest => readFlags { m with full := true } rest
  | rest => (m, rest)

/-- The bounds of widths and of numbers of places. -/
def countBound (width : Bool) : Nat := if width then Nat.pow 2 63 else Nat.pow 2 31

/-- A number of a mark: written out, or a star for the next argument. -/
def readCount (width : Bool) (rest : List Char) (args : List Argument) :
    Except TemplateFault (Int × List Char × List Argument) :=
  match rest with
  | '*' :: rest =>
    match args with
    | [] => .error .tooFew
    | a :: args =>
      match a.integer? with
      | some n =>
        let bound : Int := countBound width
        if n < -bound || bound ≤ n then .error (.noCount width) else .ok (n, rest, args)
      | none => .error .notWidth
  | _ =>
    let ds := rest.takeWhile Char.isDigit
    let n := ds.foldl (fun n c => n * 10 + (c.toNat - '0'.toNat)) 0
    if countBound width ≤ n then .error (if width then .tooWide else .tooPrecise)
    else .ok (n, rest.drop ds.length, args)

/-- Reads a mark behind its percent sign and its name, with the arguments that are left for it. -/
def read (text : List Char) (args : List Argument) :
    Except TemplateFault (TemplateMark × List Char × List Argument) := do
  let (m, rest) := readFlags ⟨false, false, false, false, false, 0, none, ' '⟩ text
  let (width, rest, args) ← readCount true rest args
  let m := { m with width := width.natAbs, left := m.left || width < 0 }
  let (places, rest, args) ← match rest with
    | '.' :: rest => do
      let (places, rest, args) ← readCount false rest args
      pure (some places.toNat, rest, args)
    | rest => pure (none, rest, args)
  let rest := match rest with
    | 'h' :: rest | 'l' :: rest | 'L' :: rest => rest
    | rest => rest
  match rest with
  | [] => throw .incomplete
  | letter :: rest => return ({ m with places, letter }, rest, args)

/-- The name of a mark up to its closing parenthesis, and what follows; those inside come in
pairs. -/
def readKey : Nat → List Char → Option (List Char × List Char)
  | _, [] => none
  | depth, c :: rest =>
    if c == ')' && depth == 0 then some ([], rest)
    else
      let depth := if c == '(' then depth + 1 else if c == ')' then depth - 1 else depth
      (readKey depth rest).map fun (key, rest) => (c :: key, rest)

end TemplateMark

/-- The arguments of a template: those still to be shown, and the mapping that names them if they
have names. -/
structure Arguments where
  named : Option (List (String × Argument))
  rest : List Argument

namespace Arguments

/-- A mapping that is the only argument gives the names of others. -/
def ofList : List Argument → Arguments
  | [.mapping (p :: pairs)] => ⟨some (p :: pairs), [.mapping (p :: pairs)]⟩
  | args => ⟨none, args⟩

/-- Reads the name of a mark, if it has one; the argument of that name is the only one left then. -/
def choose (args : Arguments) (text : List Char) : Except TemplateFault (List Char × Arguments) :=
  match text with
  | '(' :: rest =>
    match args.named with
    | none => .error .notMapping
    | some pairs =>
      match TemplateMark.readKey 0 rest with
      | none => .error .incompleteKey
      | some (key, rest) =>
        match pairs.lookup (String.ofList key) with
        | some a => .ok (rest, { args with rest := [a] })
        | none => .error (.missingKey (String.ofList key))
  | _ => .ok (text, args)

end Arguments

/-- Fills a template; `fuel` bounds its length and `size` is that of the whole. -/
def fillFrom (size : Nat) : Nat → List Char → Arguments → Except TemplateFault (List Char)
  | 0, _, _ => .ok []
  | _ + 1, [], args => if args.rest.isEmpty || args.named.isSome then .ok [] else .error .tooMany
  | fuel + 1, '%' :: '%' :: text, args => (fillFrom size fuel text args).map ('%' :: ·)
  | fuel + 1, '%' :: text, args => do
    let (text, args) ← args.choose text
    let (m, rest, left) ← TemplateMark.read text args.rest
    match left with
    | [] => throw .tooFew
    | a :: left =>
      let here := codesOf (m.letter :: rest)
      let shown ← m.fill (here.headD 0) (size - here.length) a
      return shown ++ (← fillFrom size fuel rest { args with rest := left })
  | fuel + 1, c :: text, args => (fillFrom size fuel text args).map (c :: ·)

/-- A template without arguments is shown as it is. -/
def fillTemplate (template : String) (args : List Argument) : Except TemplateFault String :=
  if args.isEmpty then .ok template
  else
    let cs := template.toList
    (fillFrom (sizeOf cs) (cs.length + 1) cs (.ofList args)).map String.ofList

end DataModel.Text
