import Mathlib.Data.List.Induction
import DataModel.Proofs.Store.Attempts
import DataModel.Proofs.Text.Decoding
import DataModel.Proofs.Yaml.Scanning
import DataModel.Source.Encoding
import DataModel.Store.Load

/-!
Where the bytes of a model file stop being a text. The line of the first bad byte is that of a
character at its place; its column counts bytes and not characters, so it is that of a character
only if the line has but one byte for each character before it.
-/
namespace DataModel.Source
open DataModel.Text
open Utf8 (bytesOf bytesOf_append Stops)

/-- The characters after the last line feed. -/
def lastLine (cs : List Char) : List Char := (cs.reverse.takeWhile (· != '\n')).reverse

section Lines
variable {c : Char} {cs : List Char}

theorem lastLine_feed (cs : List Char) : lastLine (cs ++ ['\n']) = [] := by
  simp [lastLine]

theorem lastLine_snoc (other : c ≠ '\n') (cs : List Char) :
    lastLine (cs ++ [c]) = lastLine cs ++ [c] := by
  simp [lastLine, other]

theorem encode_feed : String.utf8EncodeChar '\n' = [lineFeed] := rfl

/-- Only the line feed has the byte of one. -/
theorem lineFeed_not_mem (other : c ≠ '\n') : ∀ b ∈ String.utf8EncodeChar c, b ≠ lineFeed := by
  rintro b member rfl
  by_cases low : c.toNat < 0x80
  · rw [Utf8.encode_low low] at member
    have value := congrArg UInt8.toNat (List.mem_singleton.mp member)
    rw [Utf8.toNat_ofNat_of_lt (by omega)] at value
    exact other (Char.toNat_inj.mp value.symm)
  · exact absurd (Utf8.high_of_mem_encode (Nat.not_lt.mp low) _ member) (by decide)

theorem placeAfter_feed (before : List UInt8) :
    placeAfter (before ++ [lineFeed]) = ((placeAfter before).1 + 1, 0) := by
  simp [placeAfter, List.count_append]

theorem placeAfter_others {more : List UInt8} (others : ∀ b ∈ more, b ≠ lineFeed)
    (before : List UInt8) :
    placeAfter (before ++ more) = ((placeAfter before).1, (placeAfter before).2 + more.length) := by
  have plain : more.count lineFeed = 0 := List.count_eq_zero.mpr fun here => others _ here rfl
  have taken : ∀ b ∈ more.reverse, (b != lineFeed) = true :=
    fun b member => bne_iff_ne.mpr (others b (List.mem_reverse.mp member))
  rw [placeAfter, placeAfter, List.count_append, plain, List.reverse_append,
    List.takeWhile_append_of_pos taken, List.length_append, List.length_reverse,
    Nat.add_comm more.length]

/-- The place after the bytes of some characters. -/
theorem placeAfter_bytesOf (cs : List Char) :
    placeAfter (bytesOf cs) = (cs.count '\n' + 1, (bytesOf (lastLine cs)).length) := by
  induction cs using List.reverseRecOn with
  | nil => rfl
  | append_singleton cs c ih =>
      rw [bytesOf_append, show bytesOf [c] = String.utf8EncodeChar c ++ [] from rfl, List.append_nil,
        List.count_append]
      by_cases feed : c = '\n'
      · subst feed
        rw [encode_feed, placeAfter_feed, ih, lastLine_feed]
        rfl
      · rw [placeAfter_others (lineFeed_not_mem feed), ih, lastLine_snoc feed, bytesOf_append,
          List.length_append]
        simp [feed, bytesOf]

end Lines

section Places
variable {cs more : List Char}

theorem skip_succ (c : Cursor) (n : Nat) : c.skip (n + 1) = (c.skip n).next := by
  induction n generalizing c with
  | zero => rfl
  | succ n ih =>
      rw [Cursor.skip, ih c.next]
      rfl

/-- Where a reader stands after some characters, if their lines end with line feeds only. -/
theorem pos_skip (only : ∀ c ∈ cs, isBreak c → c = '\n') (more : List Char) :
    ((Cursor.ofText (cs ++ more)).skip cs.length).pos =
      ⟨cs.length, cs.count '\n', ((lastLine cs).filter (· != byteOrderMark)).length⟩ := by
  induction cs using List.reverseRecOn generalizing more with
  | nil => rfl
  | append_singleton cs c ih =>
      have before := ih (fun c' member => only c' (List.mem_append_left _ member)) (c :: more)
      have rest : ((Cursor.ofText (cs ++ (c :: more))).skip cs.length).rest = c :: more := by
        rw [Yaml.Cursor.rest_skip]
        exact List.drop_left
      rw [List.append_assoc, List.length_append, List.length_singleton, skip_succ,
        List.singleton_append, Cursor.next, rest]
      dsimp only
      rw [before, List.count_append]
      by_cases feed : c = '\n'
      · subst feed
        rw [lastLine_feed]
        rfl
      · have plain : isBreak c = false := by
          rw [Bool.eq_false_iff]
          exact fun ends => feed (only c (List.mem_append_right _ (List.mem_singleton_self c)) ends)
        rw [lastLine_snoc feed, List.filter_append, List.length_append, Position.after, plain]
        by_cases mark : c = byteOrderMark
        · have other : byteOrderMark ≠ '\n' := by decide
          simp [mark, other]
        · simp [mark, feed]

/-- Each character has a byte of its own, and others have more. -/
theorem length_bytesOf_iff (cs : List Char) :
    (bytesOf cs).length = cs.length ↔ ∀ c ∈ cs, c.toNat < 0x80 := by
  induction cs with
  | nil => simp [bytesOf]
  | cons c cs ih =>
      have many := Utf8.length_le_bytesOf cs
      have bytes := String.length_utf8EncodeChar c
      rw [Utf8.bytesOf_cons, List.length_append, List.length_cons, List.forall_mem_cons, ← ih]
      have one : c.utf8Size = 1 ↔ c.toNat < 0x80 := by
        rw [Char.utf8Size_eq_one_iff, UInt32.le_iff_toNat_le]
        exact Nat.lt_succ_iff.symm
      have pos := c.utf8Size_pos
      rw [bytes]
      omega

theorem decodeText_stops {bytes rest : List UInt8} {b : UInt8} (h : Stops bytes cs b rest) :
    decodeText bytes =
      .error ⟨.invalidByte b, cs.count '\n' + 1, (bytesOf (lastLine cs)).length + 1⟩ := by
  obtain ⟨length, reason, stops⟩ := h.decode
  have before : bytes.take (bytesOf cs).length = bytesOf cs := by
    rw [h.whole]
    exact List.take_left
  rw [decodeText, stops]
  show Except.error _ = _
  dsimp only
  rw [before, placeAfter_bytesOf]

/-- A file whose bytes are no text is refused for the first byte with which no character begins.
The line is the one a character has there; the column is the character's if, and only if, the line
has just one byte for each character before it. -/
theorem readText_of_invalid {t : FileTree} {path : Path} {bytes : List UInt8}
    (read : t.read path = .ok bytes) (invalid : ∀ cs, bytes ≠ bytesOf cs) :
    ∃ cs b rest line column, Stops bytes cs b rest ∧ (∀ cs', bytesOf cs' <+: bytes → cs' <+: cs) ∧
      Store.readText t path = .error (.rejected ⟨.invalidByte b, line, column⟩) ∧
      line = cs.count '\n' + 1 ∧
      (column = (lastLine cs).length + 1 ↔ ∀ c ∈ lastLine cs, c.toNat < 0x80) ∧
      ((∀ c ∈ cs, isBreak c → c = '\n') → ∀ more,
        let pos := ((Cursor.ofText (cs ++ more)).skip cs.length).pos
        line = pos.line + 1 ∧
          ((∀ c ∈ lastLine cs, c.toNat < 0x80) → column = pos.column + 1)) := by
  obtain ⟨cs, b, rest, stops⟩ := Utf8.exists_stops invalid
  refine ⟨cs, b, rest, cs.count '\n' + 1, (bytesOf (lastLine cs)).length + 1, stops,
    fun _ => stops.longest, ?_, rfl, ?_, fun only more => ?_⟩
  · rw [Store.readText, read]
    exact congrArg (Except.mapError LoadError.rejected) (decodeText_stops stops)
  · rw [Nat.add_right_cancel_iff, length_bytesOf_iff]
  · rw [pos_skip only more]
    refine ⟨rfl, fun plain => ?_⟩
    have all : (lastLine cs).filter (· != byteOrderMark) = lastLine cs := by
      refine List.filter_eq_self.mpr fun c member => ?_
      rw [bne_iff_ne]
      rintro rfl
      exact absurd (plain _ member) (by decide)
    rw [all, (length_bytesOf_iff _).mpr plain]

end Places
end DataModel.Source

namespace DataModel.Decoding
open Source Text
open Relinking (path)
open Retrying (find_file fit_used)

/-- A letter of two bytes, and a byte that begins no character. -/
def accented : List UInt8 := [0xc3, 0xa9, 0xff]

/-- A line of such a letter, and a line that stops at a byte that begins no character. -/
def broken : List UInt8 := [0xc3, 0xa9, 0x0a, 0x61, 0xff]

/-- A disk with one file. -/
def disk (bytes : List UInt8) : FileTree :=
  ⟨[(["m"], .directory (.changes 0)), (["m", "B.tmd"], .file bytes (.time 0))], 0, 0⟩

theorem stops_accented : Utf8.Stops accented ['é'] 0xff [] :=
  ⟨rfl, Utf8.stuck_of_decodeFrom (f := ⟨0, 0xff, 1, .invalidStart⟩) rfl⟩

/-- The column counts the letter twice. -/
theorem column_of_accented :
    decodeText accented = .error ⟨.invalidByte 0xff, 1, 3⟩ ∧ Utf8.Stops accented ['é'] 0xff [] ∧
      (lastLine ['é']).length + 1 = 2 ∧
      ((Cursor.ofText ['é', 'x']).skip ['é'].length).pos.column + 1 = 2 :=
  ⟨decodeText_stops stops_accented, stops_accented, rfl, rfl⟩

theorem stops_broken : Utf8.Stops broken ['é', '\n', 'a'] 0xff [] :=
  ⟨rfl, Utf8.stuck_of_decodeFrom (f := ⟨0, 0xff, 1, .invalidStart⟩) rfl⟩

/-- A letter of two bytes on a line before makes no difference. -/
theorem readText_of_invalid_broken :
    ((disk broken).read (path "B.tmd") = .ok broken ∧ ∀ cs, broken ≠ Utf8.bytesOf cs) ∧
    Store.readText (disk broken) (path "B.tmd") = .error (.rejected ⟨.invalidByte 0xff, 2, 2⟩) := by
  have read : (disk broken).read (path "B.tmd") = .ok broken := by
    rw [FileTree.read, find_file fit_used rfl rfl]
    rfl
  have stops : Utf8.decode broken = .error ⟨4, 0xff, 1, .invalidStart⟩ := rfl
  have invalid := Utf8.not_text_of_decode stops
  refine ⟨⟨read, invalid⟩, ?_⟩
  obtain ⟨cs, b, rest, line, column, stops, longest, text, rfl, plain, -⟩ :=
    readText_of_invalid read invalid
  obtain rfl : cs = ['é', '\n', 'a'] := by
    refine (stops_broken.longest ?_).eq_of_length_le (longest _ ?_).length_le
    · exact stops.whole ▸ List.prefix_append _ _
    · exact ⟨[0xff], rfl⟩
  obtain ⟨rfl, -⟩ : 0xff = b ∧ [] = rest :=
    List.cons.inj (List.append_cancel_left (stops_broken.whole.symm.trans stops.whole))
  have last : lastLine ['é', '\n', 'a'] = ['a'] := rfl
  rw [last] at plain
  rw [text, plain.mpr (List.forall_mem_singleton.mpr (by decide))]
  rfl

end DataModel.Decoding
