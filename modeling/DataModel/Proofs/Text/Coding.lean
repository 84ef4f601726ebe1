import DataModel.Text.Surrogate
import Mathlib.Data.List.Lex
import Mathlib.Data.String.Basic
import Mathlib.Tactic.Common

/-!
Texts in coded form. Every mark in such a text has its partner, so texts are coded and read piece by
piece; and they compare as the code points do that they hold.
-/
namespace DataModel.Text
variable {cs : List Char} {code low high : Nat} {codes₁ codes₂ : List Nat}

section Pairing

/-- Every mark in a coded text has its partner. -/
def isPaired : List Char → Bool
  | [] => true
  | [c] => c != surrogateMark
  | c :: d :: rest => if c == surrogateMark then isPaired rest else isPaired (d :: rest)

theorem codesOf_append (h : isPaired cs = true) (more : List Char) :
    codesOf (cs ++ more) = codesOf cs ++ codesOf more := by
  induction cs using codesOf.induct with
  | case1 => rfl
  | case2 c =>
      have plain : (c == surrogateMark) = false := by simpa [isPaired] using h
      cases more with
      | nil => rfl
      | cons d rest => simp [codesOf, plain]
  | case3 c d rest mark ih =>
      rw [isPaired, if_pos mark] at h
      simp [codesOf, mark, ih h]
  | case4 c d rest plain ih =>
      rw [isPaired, if_neg plain] at h
      have onward := ih h
      rw [List.cons_append] at onward
      simp [codesOf, plain, onward]

theorem isPaired_append (h : isPaired cs = true) {more : List Char} (h' : isPaired more = true) :
    isPaired (cs ++ more) = true := by
  induction cs using codesOf.induct with
  | case1 => exact h'
  | case2 c =>
      have plain : (c == surrogateMark) = false := by simpa [isPaired] using h
      cases more with
      | nil => exact h
      | cons d rest => simpa [isPaired, plain] using h'
  | case3 c d rest mark ih =>
      rw [isPaired, if_pos mark] at h
      rw [List.cons_append, List.cons_append, isPaired, if_pos mark]
      exact ih h
  | case4 c d rest plain ih =>
      rw [isPaired, if_neg plain] at h
      rw [List.cons_append, List.cons_append, isPaired, if_neg plain]
      exact ih h

/-- More text takes no code away, but that of a mark without its partner. -/
theorem mem_codesOf_append (h : code ∈ codesOf cs) (more : List Char) :
    code ∈ codesOf (cs ++ more) ∨ code = surrogateMark.toNat := by
  induction cs using codesOf.induct with
  | case1 => cases h
  | case2 c =>
      rw [codesOf, List.mem_singleton] at h
      subst h
      cases more with
      | nil => exact .inl (List.mem_singleton_self _)
      | cons d rest =>
          by_cases mark : c = surrogateMark
          · exact .inr (congrArg Char.toNat mark)
          · simp [codesOf, mark]
  | case3 c d rest mark ih =>
      rw [codesOf, if_pos mark] at h
      rw [List.cons_append, List.cons_append, codesOf, if_pos mark]
      rcases List.mem_cons.mp h with rfl | later
      · exact .inl List.mem_cons_self
      · exact (ih later).imp_left (List.mem_cons_of_mem _)
  | case4 c d rest plain ih =>
      rw [codesOf, if_neg plain] at h
      rw [List.cons_append, List.cons_append, codesOf, if_neg plain]
      rcases List.mem_cons.mp h with rfl | later
      · exact .inl List.mem_cons_self
      · exact (ih later).imp_left (List.mem_cons_of_mem _)

end Pairing

section Coding

/-- The coded form of code points. -/
def IsCoded (cs : List Char) : Prop :=
  ∃ codes : List Nat, (∀ code ∈ codes, code < 0x110000) ∧ cs = codes.flatMap coded

theorem isCoded_nil : IsCoded [] := ⟨[], fun _ none => absurd none List.not_mem_nil, rfl⟩

/-- A code point is coded by its own character, or by the mark and a partner of it. -/
theorem coded_cases (bound : code < 0x110000) :
    (∃ c, coded code = [c] ∧ c.toNat = code ∧ (code < 0xd7ff ∨ 0xe000 ≤ code)) ∨
      ∃ d, coded code = [surrogateMark, d] ∧
        (d = surrogateMark ∧ code = 0xd7ff ∨
          d.toNat = code + surrogateShift ∧ 0xd800 ≤ code ∧ code < 0xe000) := by
  have number : ∀ n : Nat, n.isValidChar → (Char.ofNat n).toNat = n := by
    intro n valid
    rw [Char.ofNat, dif_pos valid]
    rfl
  unfold coded
  split
  · next surrogate =>
    rw [isSurrogate, Bool.and_eq_true, decide_eq_true_iff, decide_eq_true_iff] at surrogate
    refine .inr ⟨_, rfl, .inr ⟨number _ ?_, surrogate⟩⟩
    unfold surrogateShift Nat.isValidChar
    omega
  · next other =>
    rw [isSurrogate, Bool.and_eq_true, decide_eq_true_iff, decide_eq_true_iff] at other
    have own : (Char.ofNat code).toNat = code := number code (by unfold Nat.isValidChar; omega)
    have mark : surrogateMark.toNat = 0xd7ff := by decide
    unfold codedChar
    split
    · next same =>
      rw [eq_of_beq same] at own ⊢
      exact .inr ⟨_, rfl, .inl ⟨rfl, own.symm.trans mark⟩⟩
    · next differs =>
      refine .inl ⟨_, rfl, own, ?_⟩
      have apart : code ≠ 0xd7ff := by
        rintro rfl
        exact differs (by decide)
      omega

theorem codesOf_coded (bound : code < 0x110000) :
    isPaired (coded code) = true ∧ codesOf (coded code) = [code] := by
  rcases coded_cases bound with ⟨c, alone, own, range⟩ | ⟨d, pair, partner⟩
  · rw [alone]
    refine ⟨bne_iff_ne.mpr ?_, congrArg (fun n => [n]) own⟩
    rintro rfl
    rw [← own, show surrogateMark.toNat = 0xd7ff by decide] at range
    omega
  · rw [pair]
    refine ⟨rfl, ?_⟩
    rcases partner with ⟨rfl, rfl⟩ | ⟨shifted, range⟩
    · decide
    · have other : (d == surrogateMark) = false := by
        refine beq_eq_false_iff_ne.mpr ?_
        rintro rfl
        rw [show surrogateMark.toNat = 0xd7ff by decide, surrogateShift] at shifted
        omega
      rw [codesOf, if_pos (beq_self_eq_true _), other, shifted, Nat.add_sub_cancel]
      rfl

/-- A text is coded piece by piece, and holds the code points that it codes. -/
theorem codesOf_flatMap_coded (bound : ∀ code ∈ codes₁, code < 0x110000) :
    isPaired (codes₁.flatMap coded) = true ∧ codesOf (codes₁.flatMap coded) = codes₁ := by
  induction codes₁ with
  | nil => exact ⟨rfl, rfl⟩
  | cons code codes ih =>
      obtain ⟨first, rest⟩ := List.forall_mem_cons.mp bound
      obtain ⟨paired, held⟩ := codesOf_coded first
      obtain ⟨paired', held'⟩ := ih rest
      rw [List.flatMap_cons]
      exact ⟨isPaired_append paired paired', by rw [codesOf_append paired, held, held']; rfl⟩

theorem IsCoded.paired (h : IsCoded cs) : isPaired cs = true := by
  obtain ⟨codes, bound, rfl⟩ := h
  exact (codesOf_flatMap_coded bound).1

/-- A slash is coded by itself, so what stands on its two sides is coded too. -/
theorem IsCoded.split {before after : List Char} (h : IsCoded (before ++ '/' :: after)) :
    IsCoded before ∧ IsCoded after := by
  obtain ⟨codes, bound, whole⟩ := h
  induction codes generalizing before with
  | nil => cases before <;> cases whole
  | cons code codes ih =>
      obtain ⟨first, rest⟩ := List.forall_mem_cons.mp bound
      -- the code goes in front of what its own characters leave of `before`
      have onward : ∀ more, before = coded code ++ more →
          more ++ '/' :: after = codes.flatMap coded → IsCoded before ∧ IsCoded after := by
        rintro more rfl left
        obtain ⟨⟨codes', bound', rfl⟩, behind⟩ := ih rest left
        exact ⟨⟨code :: codes', List.forall_mem_cons.mpr ⟨first, bound'⟩, rfl⟩, behind⟩
      rw [List.flatMap_cons] at whole
      rcases coded_cases first with ⟨c, alone, -⟩ | ⟨d, pair, partner⟩
      · rw [alone] at whole onward
        cases before with
        | nil =>
            obtain ⟨-, tail⟩ := List.cons.inj whole
            exact ⟨isCoded_nil, codes, rest, tail⟩
        | cons b before =>
            obtain ⟨rfl, tail⟩ := List.cons.inj whole
            exact onward before rfl tail
      · rw [pair] at whole onward
        match before with
        | [] =>
            obtain ⟨mark, -⟩ := List.cons.inj whole
            exact absurd mark (by decide)
        | [b] =>
            -- no partner of the mark is a slash
            obtain ⟨-, tail⟩ := List.cons.inj whole
            obtain ⟨rfl, -⟩ := List.cons.inj tail
            rcases partner with ⟨mark, -⟩ | ⟨shifted, range⟩
            · exact absurd mark (by decide)
            · rw [show '/'.toNat = 47 from rfl] at shifted
              omega
        | b :: b' :: before =>
            obtain ⟨rfl, behind⟩ := List.cons.inj whole
            obtain ⟨rfl, left⟩ := List.cons.inj behind
            exact onward before rfl left

end Coding

section Comparing

theorem lt_of_toNat_lt {c d : Char} (less : c.toNat < d.toNat) : c < d :=
  UInt32.lt_iff_toNat_lt.mpr less

/-- The lesser of two code points decides, whatever stands behind them. -/
theorem coded_lt (less : low < high) (bound : high < 0x110000) (more more' : List Char) :
    coded low ++ more < coded high ++ more' := by
  have mark : surrogateMark.toNat = 0xd7ff := by decide
  rcases coded_cases (less.trans bound) with ⟨c, alone, own, range⟩ | ⟨c, pair, partner⟩ <;>
    rcases coded_cases bound with ⟨d, alone', own', range'⟩ | ⟨d, pair', partner'⟩
  · rw [alone, alone']
    exact .rel (lt_of_toNat_lt (by omega))
  · rw [alone, pair']
    exact .rel (lt_of_toNat_lt (by omega))
  · rw [pair, alone']
    exact .rel (lt_of_toNat_lt (by omega))
  · rw [pair, pair']
    refine .cons (.rel (lt_of_toNat_lt ?_))
    rcases partner with ⟨rfl, here⟩ | ⟨shifted, here⟩ <;>
      rcases partner' with ⟨rfl, there⟩ | ⟨shifted', there⟩ <;> omega

theorem flatMap_coded_lt (bound : ∀ code ∈ codes₂, code < 0x110000) (less : codes₁ < codes₂) :
    codes₁.flatMap coded < codes₂.flatMap coded := by
  induction less with
  | nil =>
      rw [List.flatMap_cons, List.flatMap_nil]
      rcases coded_cases (List.forall_mem_cons.mp bound).1 with ⟨c, alone, -⟩ | ⟨d, pair, -⟩
      · rw [alone]
        exact .nil
      · rw [pair]
        exact .nil
  | cons less ih =>
      rw [List.flatMap_cons, List.flatMap_cons]
      exact List.append_left_lt (ih (List.forall_mem_cons.mp bound).2)
  | rel less => exact coded_lt less (List.forall_mem_cons.mp bound).1 _ _

/-- Coded texts compare as the code points that they hold. -/
theorem lt_iff_codes_lt {a b : String} (ha : IsCoded a.toList) (hb : IsCoded b.toList) :
    a < b ↔ codes a < codes b := by
  obtain ⟨codes₁, bound, coded₁⟩ := ha
  obtain ⟨codes₂, bound', coded₂⟩ := hb
  rw [String.lt_iff_toList_lt, codes, codes, coded₁, coded₂, (codesOf_flatMap_coded bound).2,
    (codesOf_flatMap_coded bound').2]
  refine ⟨fun less => ?_, flatMap_coded_lt bound'⟩
  rcases lt_trichotomy codes₁ codes₂ with ascending | rfl | descending
  · exact ascending
  · exact absurd less (lt_irrefl _)
  · exact absurd less (lt_asymm (flatMap_coded_lt bound descending))

theorem le_iff_codes_le {a b : String} (ha : IsCoded a.toList) (hb : IsCoded b.toList) :
    a ≤ b ↔ codes a ≤ codes b := by
  rw [← not_lt, ← not_lt, lt_iff_codes_lt hb ha]

end Comparing
end DataModel.Text
