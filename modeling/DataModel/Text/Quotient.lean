/-!
Exact values of binary fractions. A number that is not negative is a whole number over another, so
that digits and comparisons of it need no rounding.
-/
namespace DataModel.Text

/-- A number that is not negative, as a whole number over another. -/
structure Quotient where
  top : Nat
  bottom : Nat

namespace Quotient

/-- The sizes of the part of a number after its leading bit, and of its power. -/
def partBits : Nat := 52
def powerBits : Nat := 11

/-- The exact size of a number, if it is one and no infinity. -/
def ofFloat? (x : Float) : Option Quotient :=
  let bits := x.toBits.toNat
  let power : Nat := bits / Nat.pow 2 partBits % Nat.pow 2 powerBits
  let part : Nat := bits % Nat.pow 2 partBits
  if power == Nat.pow 2 powerBits - 1 then none
  else
    let (m, e) : Nat × Int :=
      if power == 0 then (part, -1074) else (part + Nat.pow 2 partBits, (power : Int) - 1075)
    some (if e < 0 then ⟨m, Nat.pow 2 e.natAbs⟩ else ⟨m * Nat.pow 2 e.toNat, 1⟩)

/-- The whole number below it. -/
def whole (x : Quotient) : Nat := x.top / x.bottom

def isWhole (x : Quotient) : Bool := x.top % x.bottom == 0

end Quotient
end DataModel.Text
