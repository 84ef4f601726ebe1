import DataModel.Text.Quoted

/-!
Whole numbers as people write them: blanks around, one sign, digits of any script in a base,
single underscores between digits. Reading fails with a cause, since two causes are told apart:
what is no number, and a decimal number too long to be converted.
-/
namespace DataModel.Text

inductive IntegerFault where
  | invalid
  | tooLong (digits : Nat)
  deriving DecidableEq

/-- Decimal numbers of more digits than this are refused. -/
def maxDecimalDigits : Nat := 4300

def IntegerFault.message (base : Nat) (text : String) : IntegerFault → String
  | .invalid =>
    let shown := String.ofList ((quoted text).toList.take 200)
    s!"invalid literal for int() with base {base}: {shown}"
  | .tooLong digits =>
    s!"Exceeds the limit ({maxDecimalDigits} digits) for integer string conversion: value has "
      ++ s!"{digits} digits; use sys.set_int_max_str_digits() to increase the limit"

/-- The value of a digit in bases up to 36. -/
def digitValue? (base : Nat) (c : Char) : Option Nat :=
  let value :=
    match decimalValue? c with
    | some d => some d
    | none =>
      if 'a' ≤ c ∧ c ≤ 'z' then some (c.toNat - 'a'.toNat + 10)
      else if 'A' ≤ c ∧ c ≤ 'Z' then some (c.toNat - 'A'.toNat + 10)
      else none
  value.filter (· < base)

/-- The digits at the head of a text, without the underscores between them, and what follows. -/
def digitRun (base : Nat) : List Char → List Nat × List Char
  | [] => ([], [])
  | '_' :: c :: rest =>
    match digitValue? base c with
    | some d => let (ds, tail) := digitRun base rest; (d :: ds, tail)
    | none => ([], '_' :: c :: rest)
  | c :: rest =>
    match digitValue? base c with
    | some d => let (ds, tail) := digitRun base rest; (d :: ds, tail)
    | none => ([], c :: rest)

def ofDigits (base : Nat) (digits : List Nat) : Nat :=
  digits.foldl (fun n d => n * base + d) 0

def basePrefix? (base : Nat) : List Char → Option (List Char)
  | '0' :: x :: rest =>
    let letter :=
      if base == 16 then 'x' else if base == 8 then 'o' else if base == 2 then 'b' else '0'
    if letter != '0' && x.toLower == letter then
      some (match rest with | '_' :: r => r | r => r)
    else none
  | _ => none

/-- A base other than a power of two bounds the number of digits. -/
def boundsDigits (base : Nat) : Bool := !([2, 4, 8, 16, 32].contains base)

def readNatural (base : Nat) (text : List Char) : Except IntegerFault Nat :=
  let body := (basePrefix? base text).getD text
  if body.head? == some '_' then .error .invalid
  else
    let (digits, tail) := digitRun base body
    if digits.isEmpty || tail.head? == some '_' then .error .invalid
    else if boundsDigits base && maxDecimalDigits < digits.length then
      .error (.tooLong digits.length)
    else if tail.all isBlank then .ok (ofDigits base digits)
    else .error .invalid

def readInteger (base : Nat) (text : String) : Except IntegerFault Int :=
  match text.toList.dropWhile isBlank with
  | '-' :: rest => (readNatural base rest).map fun n => -(n : Int)
  | '+' :: rest => (readNatural base rest).map Int.ofNat
  | rest => (readNatural base rest).map Int.ofNat

end DataModel.Text
