import DataModel.Text.Quoted

/-!
Places in a text, counted from zero in code points, and a reader's cursor: what is left of the
text and where that begins. A byte order mark takes no column.
-/
namespace DataModel.Text

structure Position where
  index : Nat
  line : Nat
  column : Nat
  deriving DecidableEq, Inhabited

def Position.start : Position := ⟨0, 0, 0⟩

def nextLine : Char := Char.ofNat 0x85
def lineSeparator : Char := Char.ofNat 0x2028
def paragraphSeparator : Char := Char.ofNat 0x2029
def byteOrderMark : Char := Char.ofNat 0xfeff

/-- A character that ends a line. -/
def isBreak (c : Char) : Bool :=
  c == '\n' || c == '\r' || c == nextLine || c == lineSeparator || c == paragraphSeparator

/-- The place after a character; a carriage return that a line feed follows ends no line yet. -/
def Position.after (p : Position) (c : Char) (following : Option Char) : Position :=
  if isBreak c && !(c == '\r' && following == some '\n') then ⟨p.index + 1, p.line + 1, 0⟩
  else if c == byteOrderMark then { p with index := p.index + 1 }
  else { p with index := p.index + 1, column := p.column + 1 }

structure Cursor where
  rest : List Char
  pos : Position
  deriving Inhabited

namespace Cursor

def ofText (text : List Char) : Cursor := ⟨text, .start⟩

/-- The character `k` places ahead; none past the end. -/
def peek (c : Cursor) (k : Nat := 0) : Option Char := c.rest[k]?

def next (c : Cursor) : Cursor :=
  match c.rest with
  | [] => c
  | ch :: rest => ⟨rest, c.pos.after ch rest.head?⟩

def skip (c : Cursor) : Nat → Cursor
  | 0 => c
  | n + 1 => c.next.skip n

/-- The longest run of characters of a class, and the cursor after it. -/
def takeWhile (p : Char → Bool) (c : Cursor) : List Char × Cursor :=
  let run := c.rest.takeWhile p
  (run, c.skip run.length)

def skipWhile (p : Char → Bool) (c : Cursor) : Cursor := (c.takeWhile p).2

end Cursor

/-- Width of a line shown under a message. -/
def excerptWidth : Nat := 75

/-- The characters of the line around a place, before and after it, cut to half the width each;
the flags tell which side was cut. -/
def excerptAround (text : List Char) (index : Nat) : (List Char × Bool) × (List Char × Bool) :=
  let before := ((text.take index).reverse.takeWhile fun c => !isBreak c)
  let after := ((text.drop index).takeWhile fun c => !isBreak c)
  let half := excerptWidth / 2
  let cut (side : List Char) : List Char × Bool :=
    if half ≤ side.length then (side.take (half - 5), true) else (side, false)
  let (shown, wasCut) := cut before
  ((shown.reverse, wasCut), cut after)

/-- The line around a place with a caret under it. -/
def excerpt (text : List Char) (index : Nat) : String :=
  let ((before, headCut), (after, tailCut)) := excerptAround text index
  let head := if headCut then " ... " else ""
  let tail := if tailCut then " ... " else ""
  let indent := String.ofList (List.replicate 4 ' ')
  let caret := String.ofList (List.replicate (4 + before.length + head.length) ' ')
  indent ++ head ++ ofChars before ++ ofChars after ++ tail ++ "\n" ++ caret ++ "^"

/-- A place with its line, as shown under a message. -/
def Position.describe (text : List Char) (p : Position) : String :=
  s!"  in \"<unicode string>\", line {p.line + 1}, column {p.column + 1}:\n" ++ excerpt text p.index

end DataModel.Text
