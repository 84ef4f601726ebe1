/-!
Base64. Characters outside of the alphabet do not count; the padding ends the text as soon as it
completes a group of four.
-/
namespace DataModel.Text.Base64

inductive Fault where
  | padding
  /-- One character too many, after so many bytes. -/
  | leftover (bytes : Nat)
  deriving DecidableEq

def Fault.message : Fault → String
  | .padding => "Incorrect padding"
  | .leftover bytes =>
    s!"Invalid base64-encoded string: number of data characters ({bytes / 3 * 4 + 1}) cannot be 1 "
      ++ "more than a multiple of 4"

def value? (c : Char) : Option Nat :=
  if 'A' ≤ c ∧ c ≤ 'Z' then some (c.toNat - 'A'.toNat)
  else if 'a' ≤ c ∧ c ≤ 'z' then some (c.toNat - 'a'.toNat + 26)
  else if '0' ≤ c ∧ c ≤ '9' then some (c.toNat - '0'.toNat + 52)
  else if c == '+' then some 62
  else if c == '/' then some 63
  else none

/-- The bytes that some six-bit digits of one group hold. -/
def groupBytes (group : List Nat) : List UInt8 :=
  match group with
  | [a, b] => [UInt8.ofNat (a * 4 + b / 16)]
  | [a, b, c] => [UInt8.ofNat (a * 4 + b / 16), UInt8.ofNat (b % 16 * 16 + c / 4)]
  | [a, b, c, d] =>
    [UInt8.ofNat (a * 4 + b / 16), UInt8.ofNat (b % 16 * 16 + c / 4), UInt8.ofNat (c % 4 * 64 + d)]
  | _ => []

/-- Decodes what follows some complete bytes; `group` are the digits of the open group, and `pads`
the padding characters right before. -/
def decodeFrom (bytes : Nat) (group : List Nat) (pads : Nat) :
    List Char → Except Fault (List UInt8)
  | [] =>
    match group with
    | [] => .ok []
    | [_] => .error (.leftover bytes)
    | _ => .error .padding
  | c :: rest =>
    if c == '=' then
      if 2 ≤ group.length && 4 ≤ group.length + pads + 1 then .ok (groupBytes group)
      else decodeFrom bytes group (if 2 ≤ group.length then pads + 1 else pads) rest
    else
      match value? c with
      | none => decodeFrom bytes group pads rest
      | some v =>
        let group := group ++ [v]
        if group.length == 4 then
          (decodeFrom (bytes + 3) [] 0 rest).map (groupBytes group ++ ·)
        else decodeFrom bytes group 0 rest

def decode (text : String) : Except Fault (List UInt8) := decodeFrom 0 [] 0 text.toList

end DataModel.Text.Base64
