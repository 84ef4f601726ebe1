import DataModel.Text.Integer
import DataModel.Yaml.Fault

/-!
Dates and times as documents write them: whether a text is one, which part of it is out of range,
and which two of them are the same.
-/
namespace DataModel.Yaml
open DataModel.Text

/-- The numbers of a time; a date alone has no clock. -/
structure Clock where
  hour : Nat
  minute : Nat
  second : Nat
  millionths : Nat
  /-- The distance from standard time, in seconds. -/
  offset : Option Int
  deriving DecidableEq

structure Timestamp where
  year : Nat
  month : Nat
  day : Nat
  clock : Option Clock
  deriving DecidableEq

namespace Timestamp

def isDigit (c : Char) : Bool := '0' ≤ c && c ≤ '9'

def valueOf (digits : List Char) : Nat := ofDigits 10 (digits.map fun c => c.toNat - '0'.toNat)

/-- At least `least` and at most `most` digits. -/
def digits (least most : Nat) (text : List Char) : Option (Nat × List Char) :=
  let run := (text.take most).takeWhile isDigit
  if run.length < least then none else some (valueOf run, text.drop run.length)

def mark (c : Char) : List Char → Option (List Char)
  | x :: rest => if x == c then some rest else none
  | [] => none

def skipBlanks (text : List Char) : List Char := text.dropWhile fun c => c == ' ' || c == '\t'

/-- The distance from standard time at the end of a text. -/
def offset? (text : List Char) : Option (Option Int) :=
  match skipBlanks text with
  | [] => if text.isEmpty then some none else none
  | ['Z'] => some (some 0)
  | s :: rest =>
    if s != '+' && s != '-' then none
    else do
      let (hours, rest) ← digits 1 2 rest
      let (minutes, rest) ←
        match rest with
        | ':' :: r => digits 2 2 r
        | r => some (0, r)
      let seconds : Int := (hours * 60 + minutes) * 60
      if rest.isEmpty then some (some (if s == '-' then -seconds else seconds)) else none

def clock? (text : List Char) : Option Clock := do
  let text ←
    match text with
    | 'T' :: rest | 't' :: rest => some rest
    | ' ' :: _ | '\t' :: _ => some (skipBlanks text)
    | _ => none
  let (hour, text) ← digits 1 2 text
  let (minute, text) ← digits 2 2 (← mark ':' text)
  let (second, text) ← digits 2 2 (← mark ':' text)
  let (fraction, text) :=
    match text with
    | '.' :: rest => (rest.takeWhile isDigit, rest.dropWhile isDigit)
    | rest => ([], rest)
  let millionths := valueOf ((fraction ++ List.replicate 6 '0').take 6)
  return ⟨hour, minute, second, millionths, ← offset? text⟩

/-- The parts of a time. -/
def parts? (text : List Char) : Option Timestamp := do
  let (year, text) ← digits 4 4 text
  let (month, text) ← digits 1 2 (← mark '-' text)
  let (day, text) ← digits 1 2 (← mark '-' text)
  if text.isEmpty then return ⟨year, month, day, none⟩
  return ⟨year, month, day, some (← clock? text)⟩

def isLeap (year : Nat) : Bool := year % 4 == 0 && (year % 100 != 0 || year % 400 == 0)

def daysIn (year month : Nat) : Nat :=
  if month == 2 then if isLeap year then 29 else 28
  else if month == 4 || month == 6 || month == 9 || month == 11 then 30
  else 31

def checkDate (t : Timestamp) : Except CalendarFault Unit := do
  if t.year == 0 then throw (.year 0)
  if t.month == 0 || 12 < t.month then throw .month
  if t.day == 0 || daysIn t.year t.month < t.day then throw .day

/-- The offset is checked first, then the date, then the clock. -/
def check (t : Timestamp) : Except CalendarFault Unit :=
  match t.clock with
  | none => t.checkDate
  | some c => do
    match c.offset with
    | some s => if 86400 ≤ s.natAbs then throw (.offset s)
    | none => pure ()
    t.checkDate
    if 23 < c.hour then throw .hour
    if 59 < c.minute then throw .minute
    if 59 < c.second then throw .second

/-- The number of a day, counted from the first day of the first year. -/
def dayNumber (t : Timestamp) : Nat :=
  let years := t.year - 1
  let months := (List.range (t.month - 1)).map fun m => daysIn t.year (m + 1)
  years * 365 + years / 4 - years / 100 + years / 400 + months.foldl (· + ·) 0 + t.day

/-- The second in standard time that a clock shows. -/
def instant (t : Timestamp) (c : Clock) (offset : Int) : Int :=
  (((t.dayNumber * 24 + c.hour) * 60 + c.minute) * 60 + c.second : Nat) - offset

/-- Times with a known distance from standard time are the same if they are at once; others are the
same if they are written alike. -/
def same (t u : Timestamp) : Bool :=
  match t.clock, u.clock with
  | some c, some d =>
    match c.offset, d.offset with
    | some o, some p => t.instant c o == u.instant d p && c.millionths == d.millionths
    | _, _ => t == u
  | _, _ => t == u

end Timestamp
end DataModel.Yaml
