import DataModel.Text.Integer

/-!
Numbers with a fraction, as people write them: blanks around, a sign, digits of any script with a
point and an exponent, or a word for infinity or for no number.
-/
namespace DataModel.Text

/-- The nearest number to some digits, read as a whole number, times a power of ten. -/
def nearestNumber (mantissa : Nat) (exponent : Int) : Float :=
  let magnitude := ((Nat.toDigits 10 mantissa).length : Int) + exponent
  if mantissa == 0 || magnitude < -400 then 0.0
  else if 400 < magnitude then 1.0 / 0.0
  else Float.ofScientific mantissa (exponent < 0) exponent.natAbs

def decimalRun (text : List Char) : List Nat × List Char :=
  let run := text.takeWhile fun c => (decimalValue? c).isSome
  (run.filterMap decimalValue?, text.drop run.length)

def readExponent : List Char → Option Int
  | [] => some 0
  | e :: rest =>
    if e != 'e' && e != 'E' then none
    else
      let (negative, rest) :=
        match rest with
        | '-' :: r => (true, r)
        | '+' :: r => (false, r)
        | r => (false, r)
      let (digits, tail) := decimalRun rest
      if digits.isEmpty || !tail.isEmpty then none
      else some (if negative then -(ofDigits 10 digits : Int) else ofDigits 10 digits)

def readUnsigned (text : List Char) : Option Float :=
  let small := String.ofList (text.map Char.toLower)
  if small == "inf" || small == "infinity" then some (1.0 / 0.0)
  else if small == "nan" then some (0.0 / 0.0)
  else
    let (whole, rest) := decimalRun text
    let (fraction, rest) :=
      match rest with
      | '.' :: r => decimalRun r
      | r => ([], r)
    if whole.isEmpty && fraction.isEmpty then none
    else (readExponent rest).map fun e =>
      nearestNumber (ofDigits 10 (whole ++ fraction)) (e - fraction.length)

def readNumber (text : String) : Option Float :=
  let trimmed := ((text.toList.dropWhile isBlank).reverse.dropWhile isBlank).reverse
  match trimmed with
  | '-' :: rest => (readUnsigned rest).map fun x => -x
  | '+' :: rest => readUnsigned rest
  | rest => readUnsigned rest

end DataModel.Text
