import Mathlib.Data.List.Induction
import Mathlib.Tactic.Common
import DataModel.Text.Utf8

/-!
Reading UTF-8. A reader takes the bytes of one character off after the other, and it stops at the
first byte with which no character begins; so it reads as many characters as there are.
-/
namespace DataModel.Text.Utf8
variable {c : Char} {b : UInt8} {bytes rest tail : List UInt8} {fuel pos more lo hi value : Nat}

/-- The bytes of some characters. -/
def bytesOf (cs : List Char) : List UInt8 := cs.flatMap String.utf8EncodeChar

theorem bytesOf_cons (c : Char) (cs : List Char) :
    bytesOf (c :: cs) = String.utf8EncodeChar c ++ bytesOf cs := rfl

theorem bytesOf_append (cs cs' : List Char) : bytesOf (cs ++ cs') = bytesOf cs ++ bytesOf cs' :=
  List.flatMap_append

section Leading

theorem leadBits_two (b : Nat) : leadBits 1 b = b % 32 := rfl

theorem leadBits_three (b : Nat) : leadBits 2 b = b % 16 := rfl

theorem leadBits_four (b : Nat) : leadBits 3 b = b % 8 := rfl

theorem following?_two (low : 0xc2 ≤ value) (high : value < 0xe0) :
    following? value = some (1, 0x80, 0xbf) := by
  rw [following?, if_neg (by omega), if_pos high]

/-- The ranges of the second byte: none that makes a number that fewer bytes have, and none that
makes a surrogate. -/
theorem following?_three (low : 0xe0 ≤ value) (high : value < 0xf0) : following? value =
    some (2, if value = 0xe0 then 0xa0 else 0x80, if value = 0xed then 0x9f else 0xbf) := by
  rw [following?, if_neg (by omega), if_neg (by omega)]
  by_cases first : value = 0xe0
  · simp [first]
  · by_cases before : value = 0xed
    · simp [before]
    · simp [first, before, high]

/-- The ranges of the second byte: none that makes a number that fewer bytes have, and none that
makes one beyond the last code point. -/
theorem following?_four (low : 0xf0 ≤ value) (high : value < 0xf5) : following? value =
    some (3, if value = 0xf0 then 0x90 else 0x80, if value = 0xf4 then 0x8f else 0xbf) := by
  rw [following?, if_neg (by omega), if_neg (by omega)]
  by_cases first : value = 0xf0
  · simp [first]
  · by_cases last : value = 0xf4
    · simp [last]
    · have middle : value < 0xf4 := by omega
      have later : ¬ value < 0xf0 := by omega
      have other : value ≠ 0xe0 ∧ value ≠ 0xed := by omega
      simp [first, last, middle, later, other]

/-- A byte with which more begins. -/
theorem following?_cases (h : following? value = some (more, lo, hi)) :
    (0xc2 ≤ value ∧ value < 0xe0) ∨ (0xe0 ≤ value ∧ value < 0xf0) ∨
      (0xf0 ≤ value ∧ value < 0xf5) := by
  by_contra outside
  rw [following?] at h
  by_cases low : value < 0xc2
  · rw [if_pos low] at h
    cases h
  · have high : 0xf5 ≤ value := by omega
    have other (n : Nat) (small : n < 0xf5) : ¬ (value == n) = true := by
      rw [beq_iff_eq]
      omega
    rw [if_neg low, if_neg (by omega), if_neg (other _ (by decide)), if_neg (other _ (by decide)),
      if_neg (by omega), if_neg (other _ (by decide)), if_neg (by omega),
      if_neg (other _ (by decide))] at h
    cases h

end Leading

section Continuing

theorem continuation_cons (low : lo ≤ b.toNat) (high : b.toNat ≤ hi) {result : Nat × List UInt8}
    (later : continuation more 0x80 0xbf (value * 64 + b.toNat % 64) rest = .ok result) :
    continuation (more + 1) lo hi value (b :: rest) = .ok result := by
  rw [continuation, if_pos ⟨low, high⟩, later]

theorem continuation_inv {number : Nat}
    (ok : continuation (more + 1) lo hi value bytes = .ok (number, tail)) :
    ∃ b rest, bytes = b :: rest ∧ lo ≤ b.toNat ∧ b.toNat ≤ hi ∧
      continuation more 0x80 0xbf (value * 64 + b.toNat % 64) rest = .ok (number, tail) := by
  cases bytes with
  | nil => cases ok
  | cons b rest =>
      rw [continuation] at ok
      split at ok
      · next range =>
        split at ok
        · next later =>
          cases ok
          exact ⟨b, rest, rfl, range.1, range.2, later⟩
        · cases ok
      · cases ok

end Continuing

section Characters

theorem toNat_ofNat_of_lt {n : Nat} (small : n < 256) : (UInt8.ofNat n).toNat = n := by
  rw [UInt8.toNat_ofNat']
  exact Nat.mod_eq_of_lt small

theorem valid_cases (c : Char) : c.toNat < 0xd800 ∨ (0xdfff < c.toNat ∧ c.toNat < 0x110000) :=
  c.valid

theorem decodeFrom_more (high : ¬ b.toNat < 0x80) (lead : following? b.toNat = some (more, lo, hi))
    (ok : continuation more lo hi (leadBits more b.toNat) rest = .ok (value, tail)) :
    decodeFrom (fuel + 1) pos (b :: rest) =
      (decodeFrom fuel (pos + 1 + more) tail).map (Char.ofNat value :: ·) := by
  rw [decodeFrom, if_neg high, lead]
  dsimp only
  rw [ok]

/-- The bytes of a character are taken off. -/
theorem decodeFrom_char (c : Char) (fuel pos : Nat) (rest : List UInt8) :
    decodeFrom (fuel + 1) pos (String.utf8EncodeChar c ++ rest) =
      (decodeFrom fuel (pos + (String.utf8EncodeChar c).length) rest).map (c :: ·) := by
  have whole : Char.ofNat c.toNat = c := Char.ofNat_toNat c
  have valid := valid_cases c
  simp only [String.utf8EncodeChar, show c.val.toNat = c.toNat from rfl]
  generalize c.toNat = v at whole valid
  have byte (n : Nat) (small : n < 256) : (UInt8.ofNat n).toNat = n := toNat_ofNat_of_lt small
  split_ifs with one two three
  · have first := byte v (by omega)
    rw [List.singleton_append, decodeFrom, if_pos (by omega), first, whole]
    rfl
  · have first := byte (v / 64 % 32 + 192) (by omega)
    have second := byte (v % 64 + 128) (by omega)
    have value : leadBits 1 (v / 64 % 32 + 192) * 64 + (v % 64 + 128) % 64 = v := by
      rw [leadBits_two]
      omega
    refine (decodeFrom_more (by omega) (following?_two (by omega) (by omega))
      (continuation_cons (by omega) (by omega) rfl)).trans ?_
    rw [first, second, value, whole]
    rfl
  · have first := byte (v / 4096 % 16 + 224) (by omega)
    have second := byte (v / 64 % 64 + 128) (by omega)
    have third := byte (v % 64 + 128) (by omega)
    have value : (leadBits 2 (v / 4096 % 16 + 224) * 64 + (v / 64 % 64 + 128) % 64) * 64 +
        (v % 64 + 128) % 64 = v := by
      rw [leadBits_three]
      omega
    refine (decodeFrom_more (by omega) (following?_three (by omega) (by omega))
      (continuation_cons (by split <;> omega) (by split <;> omega)
        (continuation_cons (by omega) (by omega) rfl))).trans ?_
    rw [first, second, third, value, whole]
    rfl
  · have first := byte (v / 262144 % 8 + 240) (by omega)
    have second := byte (v / 4096 % 64 + 128) (by omega)
    have third := byte (v / 64 % 64 + 128) (by omega)
    have fourth := byte (v % 64 + 128) (by omega)
    have value : ((leadBits 3 (v / 262144 % 8 + 240) * 64 + (v / 4096 % 64 + 128) % 64) * 64 +
        (v / 64 % 64 + 128) % 64) * 64 + (v % 64 + 128) % 64 = v := by
      rw [leadBits_four]
      omega
    refine (decodeFrom_more (by omega) (following?_four (by omega) (by omega))
      (continuation_cons (by split <;> omega) (by split <;> omega)
        (continuation_cons (by omega) (by omega)
          (continuation_cons (by omega) (by omega) rfl)))).trans ?_
    rw [first, second, third, fourth, value, whole]
    rfl

/-- Where a character has several bytes, none of them is that of a character of its own. -/
theorem high_of_mem_encode (high : 0x80 ≤ c.toNat) :
    ∀ b ∈ String.utf8EncodeChar c, 0x80 ≤ b.toNat := by
  have byte {n : Nat} (low : 0x80 ≤ n) (small : n < 256) : 0x80 ≤ (UInt8.ofNat n).toNat := by
    rwa [toNat_ofNat_of_lt small]
  have valid := valid_cases c
  simp only [String.utf8EncodeChar, show c.val.toNat = c.toNat from rfl]
  generalize c.toNat = v at high valid
  split_ifs with one two three
  · omega
  · rw [List.forall_mem_cons, List.forall_mem_singleton]
    exact ⟨byte (by omega) (by omega), byte (by omega) (by omega)⟩
  · rw [List.forall_mem_cons, List.forall_mem_cons, List.forall_mem_singleton]
    exact ⟨byte (by omega) (by omega), byte (by omega) (by omega), byte (by omega) (by omega)⟩
  · rw [List.forall_mem_cons, List.forall_mem_cons, List.forall_mem_cons, List.forall_mem_singleton]
    exact ⟨byte (by omega) (by omega), byte (by omega) (by omega), byte (by omega) (by omega),
      byte (by omega) (by omega)⟩

theorem encode_low (low : c.toNat < 0x80) : String.utf8EncodeChar c = [UInt8.ofNat c.toNat] := by
  have number : c.val.toNat = c.toNat := rfl
  rw [String.utf8EncodeChar, number, if_pos (by omega)]

/-- A character that is taken off has these bytes. -/
theorem encode_of_continuation (lead : following? b.toNat = some (more, lo, hi))
    (ok : continuation more lo hi (leadBits more b.toNat) rest = .ok (value, tail)) :
    b :: rest = String.utf8EncodeChar (Char.ofNat value) ++ tail := by
  have same {b : UInt8} {n : Nat} (h : n = b.toNat) : UInt8.ofNat n = b := by
    rw [h, UInt8.ofNat_toNat]
  have number (valid : value.isValidChar) : (Char.ofNat value).val.toNat = value := by
    rw [Char.ofNat, dif_pos valid]
    rfl
  rcases following?_cases lead with ⟨low, below⟩ | ⟨low, below⟩ | ⟨low, below⟩
  · rw [following?_two low below] at lead
    cases lead
    obtain ⟨b₁, rest, rfl, low₁, high₁, ok⟩ := continuation_inv ok
    cases ok
    rw [leadBits_two] at number ⊢
    rw [String.utf8EncodeChar, number (.inl (by omega)), if_neg (by omega), if_pos (by omega),
      same (b := b) (by omega), same (b := b₁) (by omega)]
    rfl
  · rw [following?_three low below] at lead
    cases lead
    obtain ⟨b₁, rest, rfl, low₁, high₁, ok⟩ := continuation_inv ok
    obtain ⟨b₂, rest, rfl, low₂, high₂, ok⟩ := continuation_inv ok
    cases ok
    have least : 0x80 ≤ b₁.toNat ∧ (b.toNat = 0xe0 → 0xa0 ≤ b₁.toNat) := by split at low₁ <;> omega
    have most : b₁.toNat ≤ 0xbf ∧ (b.toNat = 0xed → b₁.toNat ≤ 0x9f) := by split at high₁ <;> omega
    rw [leadBits_three] at number ⊢
    have valid : ((b.toNat % 16 * 64 + b₁.toNat % 64) * 64 + b₂.toNat % 64).isValidChar := by
      rw [Nat.isValidChar]
      omega
    rw [String.utf8EncodeChar, number valid, if_neg (by omega), if_neg (by omega),
      if_pos (by omega), same (b := b) (by omega), same (b := b₁) (by omega),
      same (b := b₂) (by omega)]
    rfl
  · rw [following?_four low below] at lead
    cases lead
    obtain ⟨b₁, rest, rfl, low₁, high₁, ok⟩ := continuation_inv ok
    obtain ⟨b₂, rest, rfl, low₂, high₂, ok⟩ := continuation_inv ok
    obtain ⟨b₃, rest, rfl, low₃, high₃, ok⟩ := continuation_inv ok
    cases ok
    have least : 0x80 ≤ b₁.toNat ∧ (b.toNat = 0xf0 → 0x90 ≤ b₁.toNat) := by split at low₁ <;> omega
    have most : b₁.toNat ≤ 0xbf ∧ (b.toNat = 0xf4 → b₁.toNat ≤ 0x8f) := by split at high₁ <;> omega
    rw [leadBits_four] at number ⊢
    have valid : (((b.toNat % 8 * 64 + b₁.toNat % 64) * 64 + b₂.toNat % 64) * 64 +
        b₃.toNat % 64).isValidChar := by
      rw [Nat.isValidChar]
      omega
    rw [String.utf8EncodeChar, number valid, if_neg (by omega), if_neg (by omega),
      if_neg (by omega), same (b := b) (by omega), same (b := b₁) (by omega),
      same (b := b₂) (by omega), same (b := b₃) (by omega)]
    rfl

/-- Where bytes begin with no character, reading stops at their first. -/
theorem decodeFrom_stops (stuck : ∀ c, ¬ String.utf8EncodeChar c <+: b :: rest) (fuel pos : Nat) :
    ∃ length reason, decodeFrom (fuel + 1) pos (b :: rest) = .error ⟨pos, b, length, reason⟩ := by
  rw [decodeFrom]
  by_cases one : b.toNat < 0x80
  · have number : (Char.ofNat b.toNat).val.toNat = b.toNat := by
      rw [Char.ofNat, dif_pos (.inl (by omega))]
      rfl
    have encoded : String.utf8EncodeChar (Char.ofNat b.toNat) = [b] := by
      rw [String.utf8EncodeChar, number, if_pos (by omega), UInt8.ofNat_toNat]
    exact absurd (encoded ▸ ⟨rest, rfl⟩) (stuck (Char.ofNat b.toNat))
  · rw [if_neg one]
    cases lead : following? b.toNat with
    | none => exact ⟨1, .invalidStart, rfl⟩
    | some range =>
        obtain ⟨more, lo, hi⟩ := range
        dsimp only
        cases ok : continuation more lo hi (leadBits more b.toNat) rest with
        | error f => exact ⟨f.1 + 1, f.2, rfl⟩
        | ok read => exact absurd ⟨read.2, (encode_of_continuation lead ok).symm⟩ (stuck _)

end Characters

section Prefixes
variable {cs : List Char}

/-- Characters, and the rest of the bytes with which no more begins. -/
structure Stops (bytes : List UInt8) (cs : List Char) (b : UInt8) (rest : List UInt8) : Prop where
  whole : bytes = bytesOf cs ++ b :: rest
  stuck : ∀ c, ¬ String.utf8EncodeChar c <+: b :: rest

theorem encode_ne_nil (c : Char) : String.utf8EncodeChar c ≠ [] := by
  intro none'
  have length := String.length_utf8EncodeChar c
  rw [none'] at length
  exact absurd length (Nat.ne_of_lt c.utf8Size_pos)

theorem length_le_bytesOf (cs : List Char) : cs.length ≤ (bytesOf cs).length := by
  induction cs with
  | nil => exact Nat.le_refl _
  | cons c cs ih =>
      have some' := List.length_pos_iff.mpr (encode_ne_nil c)
      rw [bytesOf_cons, List.length_append, List.length_cons]
      omega

/-- The bytes of characters are taken off, one character after the other. -/
theorem decodeFrom_chars (cs : List Char) (fuel pos : Nat) (rest : List UInt8) :
    decodeFrom (fuel + cs.length) pos (bytesOf cs ++ rest) =
      (decodeFrom fuel (pos + (bytesOf cs).length) rest).map (cs ++ ·) := by
  induction cs generalizing pos with
  | nil =>
      show decodeFrom fuel pos rest = (decodeFrom fuel (pos + 0) rest).map id
      cases decodeFrom fuel pos rest with
      | ok cs => rfl
      | error f => rfl
  | cons c cs ih =>
      rw [bytesOf_cons, List.append_assoc, List.length_cons, ← Nat.add_assoc, decodeFrom_char, ih,
        List.length_append, Nat.add_assoc]
      cases decodeFrom fuel _ rest with
      | ok cs => rfl
      | error f => rfl

/-- Reading stops where no more character begins. -/
theorem Stops.decode {cs : List Char} (h : Stops bytes cs b rest) :
    ∃ length reason, decode bytes = .error ⟨(bytesOf cs).length, b, length, reason⟩ := by
  have enough : bytes.length = (bytes.length - cs.length - 1) + 1 + cs.length := by
    have length := congrArg List.length h.whole
    have many := length_le_bytesOf cs
    rw [List.length_append, List.length_cons] at length
    omega
  obtain ⟨length, reason, stops⟩ :=
    decodeFrom_stops h.stuck (bytes.length - cs.length - 1) (0 + (bytesOf cs).length)
  have whole := decodeFrom_chars cs (bytes.length - cs.length - 1 + 1) 0 (b :: rest)
  rw [stops, ← enough, ← h.whole, Nat.zero_add] at whole
  exact ⟨length, reason, by rw [Utf8.decode, whole]; rfl⟩

/-- The bytes of a text are read as that text. -/
theorem decode_bytesOf (cs : List Char) : decode (bytesOf cs) = .ok (ofChars cs) := by
  have enough : (bytesOf cs).length = ((bytesOf cs).length - cs.length) + cs.length := by
    have many := length_le_bytesOf cs
    omega
  have whole := decodeFrom_chars cs ((bytesOf cs).length - cs.length) 0 []
  have none' (fuel pos : Nat) : decodeFrom fuel pos [] = .ok [] := by
    cases fuel with
    | zero => rfl
    | succ fuel => rfl
  rw [← enough, List.append_nil, none'] at whole
  rw [Utf8.decode, whole]
  exact congrArg (Except.ok <| ofChars ·) (List.append_nil cs)

theorem not_text_of_decode {f : Fault} (stops : decode bytes = .error f) (cs : List Char) :
    bytes ≠ bytesOf cs := by
  rintro rfl
  rw [decode_bytesOf] at stops
  cases stops

theorem stuck_of_decodeFrom {f : Fault} (stops : decodeFrom 1 0 bytes = .error f) (c : Char) :
    ¬ String.utf8EncodeChar c <+: bytes := by
  rintro ⟨rest, rfl⟩
  rw [decodeFrom_char c 0 0 rest] at stops
  cases stops

/-- Bytes begin with at most one character. -/
theorem eq_of_encode {c c' : Char} (h : String.utf8EncodeChar c <+: bytes)
    (h' : String.utf8EncodeChar c' <+: bytes) : c = c' := by
  obtain ⟨rest, rfl⟩ := h
  obtain ⟨rest', same⟩ := h'
  have read := decodeFrom_char c 0 0 rest
  rw [← same, decodeFrom_char c' 0 0 rest'] at read
  cases read
  rfl

theorem Stops.longest {cs cs' : List Char} (h : Stops bytes cs b rest)
    (fits : bytesOf cs' <+: bytes) : cs' <+: cs := by
  induction cs' generalizing bytes cs with
  | nil => exact List.nil_prefix
  | cons c' cs' ih =>
      have first : String.utf8EncodeChar c' <+: bytes :=
        (List.prefix_append _ _).trans (bytesOf_cons c' cs' ▸ fits)
      cases cs with
      | nil =>
          rw [h.whole] at first
          exact absurd first (h.stuck c')
      | cons c cs =>
          have whole := h.whole
          rw [bytesOf_cons, List.append_assoc] at whole
          obtain rfl := eq_of_encode first ⟨_, whole.symm⟩
          rw [whole, bytesOf_cons, List.prefix_append_right_inj] at fits
          rw [List.cons_prefix_cons]
          exact ⟨rfl, ih ⟨rfl, h.stuck⟩ fits⟩

/-- Bytes that are no text have a longest part that is one. -/
theorem exists_stops (invalid : ∀ cs, bytes ≠ bytesOf cs) : ∃ cs b rest, Stops bytes cs b rest := by
  induction length : bytes.length using Nat.strongRecOn generalizing bytes with
  | ind n ih =>
      cases bytes with
      | nil => exact absurd rfl (invalid [])
      | cons b rest =>
          by_cases begins : ∃ c, String.utf8EncodeChar c <+: b :: rest
          · obtain ⟨c, tail, whole⟩ := begins
            have shorter : tail.length < n := by
              have some' := List.length_pos_iff.mpr (encode_ne_nil c)
              rw [← length, ← whole, List.length_append]
              omega
            have invalid' : ∀ cs, tail ≠ bytesOf cs :=
              fun cs same => invalid (c :: cs) (by rw [bytesOf_cons, ← same, whole])
            obtain ⟨cs, b', rest', stops⟩ := ih tail.length shorter invalid' rfl
            refine ⟨c :: cs, b', rest', ?_, stops.stuck⟩
            rw [bytesOf_cons, List.append_assoc, ← stops.whole, whole]
          · exact ⟨[], b, rest, rfl, not_exists.mp begins⟩

end Prefixes

end DataModel.Text.Utf8
