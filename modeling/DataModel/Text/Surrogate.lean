/-!
Texts whose code points may be surrogates. No `Char` is a surrogate, so a `String` holds such a text
in coded form: a surrogate is a mark and a private character, the mark itself is written twice, and
every other character stands for itself. The mark comes just before the surrogates and the private
characters just after them, so coded texts compare as the texts they hold.
-/
namespace DataModel.Text

/-- The character before a private one that stands for a surrogate. -/
def surrogateMark : Char := Char.ofNat 0xd7ff

/-- How far a surrogate lies before the private character that stands for it. -/
def surrogateShift : Nat := 0x800

def isSurrogate (code : Nat) : Bool := 0xd800 ≤ code && code < 0xe000

/-- The coded form of a character. -/
def codedChar (c : Char) : List Char := if c == surrogateMark then [c, c] else [c]

/-- The coded form of a code point. -/
def coded (code : Nat) : List Char :=
  if isSurrogate code then [surrogateMark, Char.ofNat (code + surrogateShift)]
  else codedChar (Char.ofNat code)

/-- The code points of a coded text. -/
def codesOf : List Char → List Nat
  | [] => []
  | [c] => [c.toNat]
  | c :: d :: rest =>
    if c == surrogateMark then
      (if d == surrogateMark then d.toNat else d.toNat - surrogateShift) :: codesOf rest
    else c.toNat :: codesOf (d :: rest)

def codes (s : String) : List Nat := codesOf s.toList

def hasSurrogate (s : String) : Bool := (codes s).any isSurrogate

/-- A text without surrogates, coded. -/
def ofChars (cs : List Char) : String := String.ofList (cs.flatMap codedChar)

/-- The characters of a coded text that holds no surrogates. -/
def charsOf (s : String) : List Char := (codes s).map Char.ofNat

end DataModel.Text
