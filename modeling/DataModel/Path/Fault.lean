import DataModel.Path
import DataModel.Text.Utf8

/-!
What keeps a path from being looked for: a text that is no name at all, or links that go round in
a circle. Names are bytes, so their lengths are bounded in bytes.
-/
namespace DataModel
open DataModel.Text

/-- Why a text names nothing in any tree. -/
inductive NameFault where
  | nullByte
  /-- Surrogates in a row, from a place of the text on, that stand for no bytes. -/
  | surrogates (first : Nat) (codes : List Nat)
  deriving DecidableEq

def NameFault.message : NameFault → String
  | .nullByte => "embedded null byte"
  | .surrogates first codes =>
    let what := match codes with
      | [code] => "character '\\u" ++ hex 4 code ++ s!"' in position {first}"
      | _ => s!"characters in position {first}-{first + codes.length - 1}"
    s!"'utf-8' codec can't encode {what}: surrogates not allowed"

/-- A surrogate that stands for a byte outside of every character. -/
def isByteCode (code : Nat) : Bool := 0xdc80 ≤ code && code ≤ 0xdcff

/-- The surrogates of a text from the first on that may not stand in it. -/
def surrogates? (isRefused : Nat → Bool) (text : String) : Option NameFault :=
  let cs := codes text
  (cs.findIdx? isRefused).map fun i => .surrogates i ((cs.drop i).takeWhile isSurrogate)

def nameFault? (text : String) : Option NameFault :=
  match surrogates? (fun c => isSurrogate c && !isByteCode c) text with
  | some f => some f
  | none => if (codes text).contains 0 then some .nullByte else none

/-- Why a path has no absolute form without links. -/
inductive PathFault where
  | linkLoop (path : String)
  | name (f : NameFault)
  deriving DecidableEq

def PathFault.message : PathFault → String
  | .linkLoop path => s!"Symlink loop from {quoted path}"
  | .name f => f.message

namespace Path

/-- The paths on the way to a path, itself included. -/
def onTheWay (p : Path) : List Path :=
  (List.range p.parts.length).map fun n => { p with parts := p.parts.take (n + 1) }

def nameFault? (p : Path) : Option NameFault := DataModel.nameFault? p.toString

/-- The fault of the first path on the way that has one. -/
def firstNameFault? (p : Path) : Option NameFault := p.onTheWay.findSome? nameFault?

/-- Names of components have at most so many bytes. -/
def maxNameBytes : Nat := 255

/-- Paths have at most so many bytes. -/
def maxBytes : Nat := 4095

def isLongName (name : String) : Bool := maxNameBytes < (Utf8.encode name).length

def isLong (p : Path) : Bool := maxBytes < (Utf8.encode p.toString).length

end Path
end DataModel
