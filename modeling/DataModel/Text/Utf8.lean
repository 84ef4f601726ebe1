import DataModel.Text.Quoted

/-!
Texts as bytes in UTF-8. A failure to decode names the first ill-formed sequence: where it starts,
the byte there, how many bytes of it could still have begun a character, and why it is none.
-/
namespace DataModel.Text.Utf8

inductive Reason where
  | invalidStart
  | invalidContinuation
  | unexpectedEnd
  deriving DecidableEq

structure Fault where
  start : Nat
  byte : UInt8
  length : Nat
  reason : Reason
  deriving DecidableEq

def Reason.text : Reason → String
  | .invalidStart => "invalid start byte"
  | .invalidContinuation => "invalid continuation byte"
  | .unexpectedEnd => "unexpected end of data"

def Fault.message (f : Fault) : String :=
  let what :=
    if f.length == 1 then s!"byte 0x{hex 2 f.byte.toNat} in position {f.start}"
    else s!"bytes in position {f.start}-{f.start + f.length - 1}"
  s!"'utf-8' codec can't decode {what}: {f.reason.text}"

/-- How many bytes follow a first byte, with the range the second one must lie in. -/
def following? (b : Nat) : Option (Nat × Nat × Nat) :=
  if b < 0xc2 then none
  else if b < 0xe0 then some (1, 0x80, 0xbf)
  else if b == 0xe0 then some (2, 0xa0, 0xbf)
  else if b == 0xed then some (2, 0x80, 0x9f)
  else if b < 0xf0 then some (2, 0x80, 0xbf)
  else if b == 0xf0 then some (3, 0x90, 0xbf)
  else if b < 0xf4 then some (3, 0x80, 0xbf)
  else if b == 0xf4 then some (3, 0x80, 0x8f)
  else none

/-- Reads `more` continuation bytes, the first of them between `lo` and `hi`. The failure says
how many were well-formed, and whether the bytes ended. -/
def continuation : Nat → Nat → Nat → Nat → List UInt8 → Except (Nat × Reason) (Nat × List UInt8)
  | 0, _, _, value, rest => .ok (value, rest)
  | _ + 1, _, _, _, [] => .error (0, .unexpectedEnd)
  | more + 1, lo, hi, value, b :: rest =>
    if lo ≤ b.toNat ∧ b.toNat ≤ hi then
      match continuation more 0x80 0xbf (value * 64 + b.toNat % 64) rest with
      | .ok r => .ok r
      | .error (seen, reason) => .error (seen + 1, reason)
    else .error (0, .invalidContinuation)

/-- The bits that a first byte contributes when `more` bytes follow it. -/
def leadBits (more b : Nat) : Nat :=
  if more == 1 then b % 32 else if more == 2 then b % 16 else b % 8

def decodeFrom : Nat → Nat → List UInt8 → Except Fault (List Char)
  | 0, _, _ => .ok []
  | _ + 1, _, [] => .ok []
  | fuel + 1, pos, b :: rest =>
    if b.toNat < 0x80 then
      (decodeFrom fuel (pos + 1) rest).map (Char.ofNat b.toNat :: ·)
    else
      match following? b.toNat with
      | none => .error ⟨pos, b, 1, .invalidStart⟩
      | some (more, lo, hi) =>
        match continuation more lo hi (leadBits more b.toNat) rest with
        | .ok (value, tail) => (decodeFrom fuel (pos + 1 + more) tail).map (Char.ofNat value :: ·)
        | .error (seen, reason) => .error ⟨pos, b, seen + 1, reason⟩

def decode (bytes : List UInt8) : Except Fault String :=
  (decodeFrom bytes.length 0 bytes).map ofChars

/-- The bytes of a code point. A surrogate has the byte that its lower half names. -/
def encodeCode (code : Nat) : List UInt8 :=
  if isSurrogate code then [code.toUInt8] else (Char.ofNat code).toString.toUTF8.toList

def encode (s : String) : List UInt8 := (codes s).flatMap encodeCode

end DataModel.Text.Utf8
