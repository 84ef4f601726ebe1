import DataModel.Source.Event
import DataModel.Text.Utf8

/-!
The bytes of a model file. They are UTF-8; the first byte that does not fit is reported at its
line and at its place among the bytes of that line.
-/
namespace DataModel.Source
open DataModel.Text

def lineFeed : UInt8 := 10

/-- The place after some bytes: the line, and the number of bytes on it so far. -/
def placeAfter (before : List UInt8) : Nat × Nat :=
  (before.count lineFeed + 1, (before.reverse.takeWhile (· != lineFeed)).length)

def decodeText (bytes : List UInt8) : Except Rejection String :=
  (Utf8.decode bytes).mapError fun f =>
    let (line, before) := placeAfter (bytes.take f.start)
    ⟨.invalidByte f.byte, line, before + 1⟩

end DataModel.Source
