import Mathlib.Algebra.Order.Group.Nat
import Mathlib.Data.List.Induction
import DataModel.Proofs.Yaml.Course

/-!
Reading the characters of tokens. Every reading goes forward in its text, and it finds a value that
does not exist only where the text holds an escape beyond the last code point or a version number
with too many digits.
-/
namespace DataModel.Yaml
open DataModel.Text

section Numbers

/-- A number at the head of a text that is too large for what it stands for: an escape beyond the
last code point, or a number of too many digits in the line of a version. -/
inductive Oversized : List Char → Prop
  | escape {digits rest : List Char} (eight : digits.length = 8) (hex : ∀ c ∈ digits, isHexDigit c)
    (beyond : 0x10ffff < Scan.hexValue digits) : Oversized ('\\' :: 'U' :: (digits ++ rest))
  | version {lead digits rest : List Char} (lead' : ∀ c ∈ lead, c = ' ' ∨ c = '.' ∨ c.isDigit)
    (decimal : ∀ c ∈ digits, c.isDigit) (long : maxDecimalDigits < digits.length) :
    Oversized ('%' :: 'Y' :: 'A' :: 'M' :: 'L' :: (lead ++ digits ++ rest))

/-- An oversized number stands somewhere in a text. -/
def HoldsOversized (text : List Char) : Prop := ∃ rest, rest <:+ text ∧ Oversized rest

theorem Oversized.holds {text : List Char} (h : Oversized text) : HoldsOversized text :=
  ⟨text, List.suffix_rfl, h⟩

theorem HoldsOversized.sooner {text rest : List Char} (h : HoldsOversized rest)
    (later : rest <:+ text) : HoldsOversized text := by
  obtain ⟨number, inside, large⟩ := h
  exact ⟨number, inside.trans later, large⟩

/-- A text in which no number can be too large. -/
theorem not_holdsOversized {text : List Char} (plain : '\\' ∉ text ∧ '%' ∉ text) :
    ¬ HoldsOversized text := by
  rintro ⟨rest, inside, large⟩
  cases large with
  | escape _ _ _ => exact plain.1 (inside.subset List.mem_cons_self)
  | version _ _ _ => exact plain.2 (inside.subset List.mem_cons_self)

theorem ofDigits_lt {base : Nat} {digits : List Nat} (small : ∀ d ∈ digits, d < base) :
    ofDigits base digits < base ^ digits.length := by
  induction digits using List.reverseRecOn with
  | nil => exact Nat.one_pos
  | append_singleton before d ih =>
      have least := ih fun d' h => small d' (List.mem_append_left _ h)
      have last : d < base := small d (List.mem_append_right _ (List.mem_singleton_self d))
      have step : ofDigits base (before ++ [d]) = ofDigits base before * base + d := by
        simp [ofDigits]
      rw [step, List.length_append, List.length_singleton, Nat.pow_succ]
      calc ofDigits base before * base + d
        _ < ofDigits base before * base + base := Nat.add_lt_add_left last _
        _ = (ofDigits base before + 1) * base := (Nat.succ_mul _ _).symm
        _ ≤ base ^ before.length * base := Nat.mul_le_mul_right base least

theorem hexValue_lt (digits : List Char) : Scan.hexValue digits < 16 ^ digits.length := by
  have small : ∀ d ∈ digits.filterMap (digitValue? 16), d < 16 := by
    intro d h
    obtain ⟨c, -, value⟩ := List.mem_filterMap.mp h
    rw [digitValue?, Option.filter_eq_some_iff] at value
    exact of_decide_eq_true value.2
  calc Scan.hexValue digits
    _ < 16 ^ (digits.filterMap (digitValue? 16)).length := ofDigits_lt small
    _ ≤ 16 ^ digits.length := Nat.pow_le_pow_right (by decide) (List.length_filterMap_le _ _)

theorem digitValue?_decimal {c : Char} (decimal : c.isDigit) :
    digitValue? 10 c = some (c.toNat - '0'.toNat) := by
  have high : c.toNat ≤ '9'.toNat := by
    simp only [Char.isDigit, Bool.and_eq_true, decide_eq_true_eq] at decimal
    exact decimal.2
  have small : c.toNat - '0'.toNat < 10 := by
    have : '9'.toNat = '0'.toNat + 9 := rfl
    omega
  rw [digitValue?, decimalValue?, if_pos decimal]
  exact Option.filter_some_pos (decide_eq_true small)

theorem digitRun_decimal {digits : List Char} (decimal : ∀ c ∈ digits, c.isDigit) :
    ∃ ds, digitRun 10 digits = (ds, []) ∧ ds.length = digits.length := by
  induction digits with
  | nil => exact ⟨[], rfl, rfl⟩
  | cons c rest ih =>
      obtain ⟨here, others⟩ := List.forall_mem_cons.mp decimal
      obtain ⟨ds, run, same⟩ := ih others
      have plain : c ≠ '_' := by
        rintro rfl
        cases here
      refine ⟨(c.toNat - '0'.toNat) :: ds, ?_, congrArg Nat.succ same⟩
      rw [digitRun.eq_3 10 c rest fun _ _ dash => absurd dash plain, digitValue?_decimal here, run]

/-- Decimal digits are a number unless there are too many of them. -/
theorem long_of_readNatural {digits : List Char} (decimal : ∀ c ∈ digits, c.isDigit)
    (some' : digits ≠ []) {fault : IntegerFault} (h : readNatural 10 digits = .error fault) :
    maxDecimalDigits < digits.length := by
  obtain ⟨ds, run, same⟩ := digitRun_decimal decimal
  have bare : basePrefix? 10 digits = none := by
    unfold basePrefix?
    split <;> rfl
  have start : digits.head? ≠ some '_' := by
    intro dash
    have member := List.mem_of_mem_head? dash
    cases decimal '_' member
  have more : ds ≠ [] := by
    rintro rfl
    exact some' (List.length_eq_zero_iff.mp same.symm)
  by_contra short
  rw [← same] at short
  simp [readNatural, bare, start, run, more, short] at h

end Numbers

section Cursors
variable (c : Cursor)

theorem Cursor.rest_skip (n : Nat) : (c.skip n).rest = c.rest.drop n := by
  induction n generalizing c with
  | zero => rfl
  | succ n ih =>
      rw [Cursor.skip, ih]
      obtain ⟨rest, pos⟩ := c
      cases rest <;> simp [Cursor.next]

theorem Cursor.rest_takeWhile (p : Char → Bool) :
    c.rest = (c.takeWhile p).1 ++ (c.takeWhile p).2.rest := by
  rw [Cursor.takeWhile, Cursor.rest_skip]
  exact (List.prefix_iff_eq_append.mp (List.takeWhile_prefix p)).symm

variable {c} in
theorem Cursor.rest_of_peek {ch : Char} (first : c.peek 0 = some ch) :
    c.rest = ch :: (c.skip 1).rest := by
  obtain ⟨text, pos⟩ := c
  cases text <;> cases first
  rfl

end Cursors

/-- Going forward in a text. Only an oversized number stands for no value. -/
def scanning : Course Cursor Failure where
  leads c c' := c'.rest <:+ c.rest
  fails c e := ∀ f, e = .value f → HoldsOversized c.rest
  refl _ := List.suffix_rfl
  trans h h' := h'.trans h
  sooner h fails f same := (fails f same).sooner h

/-- Going forward in a text of which some may be read already. -/
def within (text : List Char) : Course Cursor Failure where
  leads c c' := c'.rest <:+ c.rest
  fails _ e := ∀ f, e = .value f → HoldsOversized text
  refl _ := List.suffix_rfl
  trans h h' := h'.trans h
  sooner _ fails := fails

theorem scanning_at_iff {α : Type} {c : Cursor} {m : Scan α} :
    scanning.At c m ↔ (within c.rest).At c m := Iff.rfl

/-- What is wrong with the rest of a text is wrong with the text. -/
theorem within_of_scanning {α : Type} {text : List Char} {c : Cursor} {m : Scan α}
    (h : scanning.At c m) (inside : c.rest <:+ text) : (within text).At c m := by
  unfold Course.At
  cases run : m.run c with
  | error e => exact fun f same => (h.fails run f same).sooner inside
  | ok r => exact h.leads run

namespace Scan

section Steps

theorem fail_keeps {α : Type} (activity : Option Activity) (problem : Problem) :
    scanning.Keeps (fail (α := α) activity problem) := by
  intro c f same
  cases same

theorem peek_keeps (k : Nat) : scanning.Keeps (peek k) := fun _ => List.suffix_rfl

theorem position_keeps : scanning.Keeps position := fun _ => List.suffix_rfl

theorem atSeparator_keeps : scanning.Keeps atSeparator := fun _ => List.suffix_rfl

theorem remaining_keeps : scanning.Keeps remaining := fun _ => List.suffix_rfl

theorem skip_keeps (n : Nat) : scanning.Keeps (skip n) := by
  intro c
  show (c.skip n).rest <:+ c.rest
  rw [Cursor.rest_skip]
  exact List.drop_suffix n c.rest

theorem takeWhile_keeps (p : Char → Bool) : scanning.Keeps (takeWhile p) :=
  fun c => ⟨_, (Cursor.rest_takeWhile c p).symm⟩

theorem skipWhile_keeps (p : Char → Bool) : scanning.Keeps (skipWhile p) :=
  fun c => ⟨_, (Cursor.rest_takeWhile c p).symm⟩

/-- What is needed before the rest is there, or it is missed. -/
theorem unless_keeps {α : Type} {c : Prop} [Decidable c] {activity : Option Activity}
    {problem : Problem} {next : Unit → Scan α} (h : ∀ u, scanning.Keeps (next u)) :
    scanning.Keeps (if c then fail activity problem >>= next else next ()) :=
  .ite (.bind (fail_keeps activity problem) h) (h ())

theorem lineBreak_keeps : scanning.Keeps lineBreak := by
  refine .bind (peek_keeps 0) fun c => ?_
  cases c with
  | none => exact .pure []
  | some c =>
      refine .bind (peek_keeps 1) fun d => ?_
      refine .ite (.bind (skip_keeps 2) fun _ => .pure _) ?_
      refine .ite (.bind (skip_keeps 1) fun _ => .pure _) ?_
      exact .ite (.bind (skip_keeps 1) fun _ => .pure _) (.pure [])

theorem skipComment_keeps : scanning.Keeps skipComment :=
  .bind (peek_keeps 0) fun _ => .ite (skipWhile_keeps _) (.pure ())

theorem ignoredLine_keeps (activity : Activity) : scanning.Keeps (ignoredLine activity) := by
  refine .bind (skipWhile_keeps _) fun _ => .bind skipComment_keeps fun _ => ?_
  exact .bind (peek_keeps 0) fun c => .ite lineBreak_keeps.discard (fail_keeps _ _)

end Steps

section Quoted

theorem quotedBreaks_keeps (activity : Activity) (fuel : Nat) :
    scanning.Keeps (quotedBreaks activity fuel) := by
  induction fuel with
  | zero => exact .pure []
  | succ fuel ih =>
      refine .bind atSeparator_keeps fun _ => unless_keeps fun _ => ?_
      refine .bind (skipWhile_keeps _) fun _ => .bind (peek_keeps 0) fun c => ?_
      refine .ite (.bind lineBreak_keeps fun b => ?_) (.pure [])
      exact .bind ih fun more => .pure _

theorem quotedSpaces_keeps (activity : Activity) : scanning.Keeps (quotedSpaces activity) := by
  refine .bind (takeWhile_keeps _) fun blanks => .bind (peek_keeps 0) fun c => ?_
  refine .ite (fail_keeps _ _) (.ite (.bind lineBreak_keeps fun first => ?_) (.pure _))
  exact .bind remaining_keeps fun n => .bind (quotedBreaks_keeps activity n) fun _ => .pure _

/-- An escape that names no code point is one of eight digits. -/
theorem oversized_of_escape {letter : Char} {rest : List Char} {width : Nat}
    (wide : escapeWidth? letter = some width)
    (enough : ¬ ((rest.take width).takeWhile isHexDigit).length < width)
    (beyond : 0x10ffff < hexValue (rest.take width)) : Oversized ('\\' :: letter :: rest) := by
  have short : width ≤ 4 → False := by
    intro few
    have least := hexValue_lt (rest.take width)
    have length : (rest.take width).length ≤ 4 := Nat.le_trans (List.length_take_le _ _) few
    have most : 16 ^ (rest.take width).length ≤ 16 ^ 4 :=
      Nat.pow_le_pow_right (by decide) length
    omega
  unfold escapeWidth? at wide
  split at wide <;> cases wide
  · exact absurd (by decide) short
  · exact absurd (by decide) short
  · have whole : (rest.take 8).takeWhile isHexDigit = rest.take 8 := by
      refine (List.takeWhile_prefix _).eq_of_length ?_
      have := (List.takeWhile_prefix (l := rest.take 8) isHexDigit).length_le
      have := List.length_take_le 8 rest
      omega
    have eight : (rest.take 8).length = 8 := by
      rw [whole] at enough
      have := List.length_take_le 8 rest
      omega
    have hex : ∀ c ∈ rest.take 8, isHexDigit c := by
      intro c member
      rw [← whole] at member
      exact List.all_eq_true.mp List.all_takeWhile c member
    have number : Oversized ('\\' :: 'U' :: (rest.take 8 ++ rest.drop 8)) := .escape eight hex beyond
    rwa [List.take_append_drop] at number

/-- An escape after its backslash. -/
theorem escape_at (whole part : Activity) (c : Cursor) :
    (within ('\\' :: c.rest)).At c (escape whole part) := by
  have inside : c.rest <:+ '\\' :: c.rest := List.suffix_cons _ _
  refine (within_of_scanning (peek_keeps 0 c) inside).bind fun found c' read => ?_
  cases read
  cases single : (c.peek 0).bind escaped? with
  | some ch =>
      refine within_of_scanning ?_ inside
      exact (skip_keeps 1).bind (fun _ => .pure [ch]) c
  | none =>
      cases wide : (c.peek 0).bind escapeWidth? with
      | none =>
          refine within_of_scanning ?_ inside
          refine Course.Keeps.ite (lineBreak_keeps.discard.bind fun _ => ?_) (fail_keeps _ _) c
          exact remaining_keeps.bind (quotedBreaks_keeps whole)
      | some width =>
          obtain ⟨letter, first, wide⟩ := Option.bind_eq_some_iff.mp wide
          have rest := Cursor.rest_of_peek first
          have later : (c.skip 1).rest <:+ '\\' :: c.rest := by
            rw [rest]
            exact (List.suffix_cons _ _).trans (List.suffix_cons _ _)
          refine (within_of_scanning (skip_keeps 1 c) inside).bind fun _ c' skipped => ?_
          cases skipped
          refine .get ?_
          dsimp only
          split
          · exact within_of_scanning (fail_keeps _ _ _) later
          · next enough =>
            have large : 0x10ffff < hexValue ((c.skip 1).rest.take width) →
                HoldsOversized ('\\' :: c.rest) := by
              intro beyond
              rw [rest]
              exact (oversized_of_escape wide enough beyond).holds
            split
            · next beyond =>
              intro f same
              exact large (Nat.lt_of_lt_of_le (by decide) beyond)
            · split
              · next beyond => exact fun f same => large beyond
              · refine within_of_scanning ?_ later
                exact (skip_keeps width).bind (fun _ => .pure _) (c.skip 1)

theorem quotedRun_keeps (double : Bool) (activity : Activity) (fuel : Nat) :
    scanning.Keeps (quotedRun double activity fuel) := by
  induction fuel with
  | zero => exact .pure []
  | succ fuel ih =>
      have onward (n : Nat) {text : List Char → List Char} :
          scanning.Keeps (skip n >>= fun _ => quotedRun double activity fuel >>= fun more =>
            pure (text more)) :=
        .bind (skip_keeps n) fun _ => .bind ih fun _ => .pure _
      refine .bind (takeWhile_keeps _) fun run c => ?_
      refine (peek_keeps 0 c).bind fun found c' read => ?_
      cases read
      refine (peek_keeps 1 c).bind fun _ c' read => ?_
      cases read
      refine Course.At.ite (onward 2 c) (.ite (onward 1 c) (.ite (onward 1 c) (.ite (onward 1 c) ?_)))
      split
      · next slash =>
        rw [Bool.and_eq_true, beq_iff_eq] at slash
        have rest := Cursor.rest_of_peek slash.2
        rw [scanning_at_iff, rest]
        have later := List.suffix_cons '\\' (c.skip 1).rest
        refine (within_of_scanning (skip_keeps 1 c) (rest ▸ List.suffix_rfl)).bind fun _ c' read => ?_
        cases read
        refine (escape_at _ _ _).bind fun text c' done => ?_
        have still := ((escape_at _ _ _).leads done).trans later
        exact within_of_scanning (ih.bind (fun _ => .pure _) c') still
      · exact Course.Keeps.pure _ c

theorem quotedText_keeps (quote : Char) (activity : Activity) (fuel : Nat) :
    scanning.Keeps (quotedText quote activity fuel) := by
  induction fuel with
  | zero => exact .pure []
  | succ fuel ih =>
      refine .bind (peek_keeps 0) fun c => .ite (.bind (skip_keeps 1) fun _ => .pure _) ?_
      refine .bind (quotedSpaces_keeps activity) fun blanks => .bind remaining_keeps fun n => ?_
      refine .bind (quotedRun_keeps _ activity n) fun run => ?_
      exact .bind ih fun more => .pure _

theorem quotedScalar_keeps (quote : Char) : scanning.Keeps (quotedScalar quote) := by
  refine .bind position_keeps fun start => .bind (skip_keeps 1) fun _ => ?_
  refine .bind remaining_keeps fun n => .bind (quotedRun_keeps _ _ n) fun run => ?_
  refine .bind remaining_keeps fun n => .bind (quotedText_keeps _ _ _) fun rest => ?_
  exact .bind position_keeps fun _ => .pure _

end Quoted

section Block

theorem indentDigit_keeps (activity : Activity) : scanning.Keeps (indentDigit activity) := by
  refine .bind (peek_keeps 0) fun c => ?_
  cases c with
  | none => exact .pure none
  | some c =>
      refine .ite (fail_keeps _ _) (.ite (.bind (skip_keeps 1) fun _ => .pure _) (.pure none))

theorem blockIndicators_keeps (activity : Activity) :
    scanning.Keeps (blockIndicators activity) := by
  have last (result : Chomping × Option Nat) {problem : Option Char → Problem} :
      scanning.Keeps (peek >>= fun c =>
        if endsField c then pure result else fail (some activity) (problem c)) :=
    .bind (peek_keeps 0) fun c => .ite (.pure result) (fail_keeps _ _)
  refine .bind (peek_keeps 0) fun c => ?_
  dsimp only
  cases chomping? c with
  | some chomping =>
      refine .bind (skip_keeps 1) fun _ => .bind (indentDigit_keeps activity) fun digit => ?_
      exact .bind (.pure _) fun _ => last _
  | none =>
      refine .bind (indentDigit_keeps activity) fun digit => ?_
      cases digit with
      | none => exact .bind (.pure _) fun _ => last _
      | some digit =>
          refine .bind (peek_keeps 0) fun c => ?_
          cases chomping? c with
          | some chomping => exact .bind (skip_keeps 1) fun _ => .bind (.pure _) fun _ => last _
          | none => exact .bind (.pure _) fun _ => last _

theorem blockIndentation_keeps (fuel widest : Nat) :
    scanning.Keeps (blockIndentation fuel widest) := by
  induction fuel generalizing widest with
  | zero => exact .pure _
  | succ fuel ih =>
      refine .bind (peek_keeps 0) fun c => ?_
      cases c with
      | none => exact .pure _
      | some c =>
          refine .ite (.bind (skip_keeps 1) fun _ => .bind position_keeps fun p => ih _) ?_
          refine .ite (.bind lineBreak_keeps fun b => .bind (ih _) fun r => ?_) (.pure _)
          exact .pure _

theorem skipIndent_keeps (indent : Nat) : scanning.Keeps (skipIndent indent) :=
  .bind .get fun _ => skip_keeps _

theorem blockBreaks_keeps (indent fuel : Nat) : scanning.Keeps (blockBreaks indent fuel) := by
  induction fuel with
  | zero =>
      rw [blockBreaks, seqRight_eq_bind]
      exact .bind (skipIndent_keeps indent) fun _ => .pure []
  | succ fuel ih =>
      refine .bind (skipIndent_keeps indent) fun _ => .bind (peek_keeps 0) fun c => ?_
      exact .ite (.bind lineBreak_keeps fun b => .bind ih fun more => .pure _) (.pure [])

theorem blockLines_keeps (fold : Bool) (indent fuel : Nat) (before : List Char) :
    scanning.Keeps (blockLines fold indent fuel before) := by
  induction fuel generalizing before with
  | zero => exact .pure _
  | succ fuel ih =>
      refine .bind position_keeps fun p => .bind (peek_keeps 0) fun c => .ite ?_ (.pure _)
      refine .bind (peek_keeps 0) fun flush => .bind (takeWhile_keeps _) fun line => ?_
      refine .bind lineBreak_keeps fun lineEnd => .bind remaining_keeps fun n => ?_
      refine .bind (blockBreaks_keeps indent n) fun blanks => ?_
      refine .bind position_keeps fun p => .bind (peek_keeps 0) fun c => .ite ?_ (.pure _)
      refine .bind (peek_keeps 0) fun first => .bind (ih blanks) fun more => .pure _

theorem blockScalar_keeps (fold : Bool) (parentIndent : Int) :
    scanning.Keeps (blockScalar fold parentIndent) := by
  refine .bind position_keeps fun start => .bind (skip_keeps 1) fun _ => ?_
  refine .bind (blockIndicators_keeps _) fun indicators => ?_
  obtain ⟨chomping, digit⟩ := indicators
  refine .bind (ignoredLine_keeps _) fun _ => ?_
  have last (leading : List Char) (indent : Nat)
      {token : List Char × List Char × List Char → Position → Token} :
      scanning.Keeps (remaining >>= fun n => blockLines fold indent (n + 1) leading >>= fun text =>
        position >>= fun finish => pure (token text finish)) :=
    .bind remaining_keeps fun n => .bind (blockLines_keeps fold indent _ leading) fun _ =>
      .bind position_keeps fun _ => .pure _
  cases digit with
  | none =>
      refine .bind remaining_keeps fun n => .bind (blockIndentation_keeps n 0) fun leading => ?_
      exact .bind (.pure _) fun _ => last _ _
  | some d =>
      refine .bind remaining_keeps fun n => .bind (blockBreaks_keeps _ n) fun leading => ?_
      exact .bind (.pure _) fun _ => last _ _

end Block

section Plain

theorem plainBreaks_keeps (fuel : Nat) : scanning.Keeps (plainBreaks fuel) := by
  induction fuel with
  | zero => exact .pure _
  | succ fuel ih =>
      refine .bind (peek_keeps 0) fun c => ?_
      cases c with
      | none => exact .pure _
      | some c =>
          refine .ite (.bind (skip_keeps 1) fun _ => ih) (.ite (.bind lineBreak_keeps fun b => ?_) ?_)
          · refine .bind atSeparator_keeps fun ends => .ite (.pure none) ?_
            exact .bind ih fun more => .pure _
          · exact .pure _

theorem plainSpaces_keeps : scanning.Keeps plainSpaces := by
  refine .bind (takeWhile_keeps _) fun blanks => .bind (peek_keeps 0) fun c => .ite ?_ (.pure _)
  refine .bind lineBreak_keeps fun first => .bind atSeparator_keeps fun ends => .ite (.pure _) ?_
  refine .bind remaining_keeps fun n => .bind (plainBreaks_keeps n) fun more => ?_
  cases more with
  | none => exact .pure _
  | some more => exact .pure _

theorem plainRuns_keeps (flow : Bool) (indent : Int) (fuel : Nat) (blanks : List Char)
    (finish : Position) (broken : Bool) :
    scanning.Keeps (plainRuns flow indent fuel blanks finish broken) := by
  induction fuel generalizing blanks finish broken with
  | zero => exact .pure _
  | succ fuel ih =>
      refine .bind .get fun c => .ite (.pure _) (.bind (skip_keeps _) fun _ => ?_)
      refine .bind position_keeps fun finish => .bind plainSpaces_keeps fun spaces => ?_
      refine .bind (peek_keeps 0) fun c => .bind position_keeps fun p => .ite (.pure _) ?_
      exact .bind (ih _ _ _) fun more => .pure _

theorem plainScalar_keeps (flow : Bool) (indent : Int) :
    scanning.Keeps (plainScalar flow indent) :=
  .bind position_keeps fun _ => .bind remaining_keeps fun _ =>
    .bind (plainRuns_keeps flow _ _ _ _ _) fun _ => .pure _

end Plain

section Directives

/-- The line of a version, read up to a cursor: nothing but blanks, dots and digits so far. -/
def OnVersionLine (text : List Char) (c : Cursor) : Prop :=
  ∃ lead, (∀ ch ∈ lead, ch = ' ' ∨ ch = '.' ∨ ch.isDigit) ∧
    text = '%' :: 'Y' :: 'A' :: 'M' :: 'L' :: (lead ++ c.rest)

theorem OnVersionLine.later {text more : List Char} {c c' : Cursor} (h : OnVersionLine text c)
    (rest : c.rest = more ++ c'.rest) (plain : ∀ ch ∈ more, ch = ' ' ∨ ch = '.' ∨ ch.isDigit) :
    OnVersionLine text c' := by
  obtain ⟨lead, before, same⟩ := h
  refine ⟨lead ++ more, List.forall_mem_append.mpr ⟨before, plain⟩, ?_⟩
  rw [same, rest, List.append_assoc]

theorem OnVersionLine.suffix {text : List Char} {c : Cursor} (h : OnVersionLine text c) :
    c.rest <:+ text := by
  obtain ⟨lead, -, rfl⟩ := h
  exact ⟨'%' :: 'Y' :: 'A' :: 'M' :: 'L' :: lead, rfl⟩

theorem directiveName_keeps (activity : Activity) : scanning.Keeps (directiveName activity) :=
  .bind (takeWhile_keeps _) fun _ => .bind (peek_keeps 0) fun _ => .ite (fail_keeps _ _) (.pure _)

/-- The name of a directive is what was read for it. -/
theorem directiveName_rest (activity : Activity) {c c' : Cursor} {name : String}
    (done : (directiveName activity).run c = .ok (name, c')) : c.rest = name.toList ++ c'.rest := by
  let run := c.takeWhile isWordChar
  have rest : c.rest = run.1 ++ run.2.rest := Cursor.rest_takeWhile c isWordChar
  have whole : (directiveName activity).run c = (if run.1.isEmpty || !endsField (run.2.peek 0) then
      fail activity (.expected alphanumeric (run.2.peek 0))
    else pure (String.ofList run.1) : Scan String).run run.2 := rfl
  rw [whole] at done
  split at done <;> cases done
  rw [String.toList_ofList]
  exact rest

/-- Where there are digits, the number that they stand for is read. -/
theorem versionNumber_run (activity : Activity) {c : Cursor} {digits : List Char}
    (run : c.rest.takeWhile Char.isDigit = digits) (some' : digits ≠ []) :
    (versionNumber activity).run c = ((readNatural 10 digits).mapError fun fault =>
      .value (.integer 10 (String.ofList digits) fault)).map fun n => (n, c.skip digits.length) := by
  subst run
  unfold versionNumber
  refine (congrFun (if_neg fun none' => some' (List.isEmpty_iff.mp none')) c).trans ?_
  cases readNatural 10 (c.rest.takeWhile Char.isDigit) <;> rfl

/-- A version number is oversized, or it is read digit by digit. -/
theorem versionNumber_cases (activity : Activity) {text : List Char} {c : Cursor}
    (line : OnVersionLine text c) : (within text).At c (versionNumber activity) ∧
      ∀ n c', (versionNumber activity).run c = .ok (n, c') → OnVersionLine text c' := by
  obtain ⟨digits, run⟩ : ∃ digits, c.rest.takeWhile Char.isDigit = digits := ⟨_, rfl⟩
  have decimal : ∀ ch ∈ digits, ch.isDigit := run ▸ List.all_eq_true.mp List.all_takeWhile
  have split : c.rest = digits ++ (c.skip digits.length).rest :=
    run ▸ Cursor.rest_takeWhile c Char.isDigit
  unfold Course.At
  by_cases none' : digits = []
  · have nothing : (versionNumber activity).run c =
        (fail activity (.expected "a digit" (c.peek 0)) : Scan Nat).run c := by
      unfold versionNumber
      exact congrFun (if_pos (List.isEmpty_iff.mpr (run.trans none'))) c
    rw [nothing]
    exact ⟨fun f same => (by cases same), fun n c' done => (by cases done)⟩
  · rw [versionNumber_run activity run none']
    cases known : readNatural 10 digits with
    | ok n =>
        refine ⟨⟨digits, split.symm⟩, fun n c' done => ?_⟩
        cases done
        exact line.later split fun ch member => .inr (.inr (decimal ch member))
    | error fault =>
        refine ⟨fun f same => ?_, fun n c' done => by cases done⟩
        have long := long_of_readNatural decimal none' known
        obtain ⟨lead, before, rfl⟩ := line
        rw [split, ← List.append_assoc]
        exact (Oversized.version before decimal long).holds

theorem versionValue_at (activity : Activity) {text : List Char} {c : Cursor}
    (line : OnVersionLine text c) : (within text).At c (versionValue activity) := by
  have still {α : Type} {m : Scan α} {c' : Cursor} (line' : OnVersionLine text c')
      (keeps : scanning.Keeps m) : (within text).At c' m :=
    within_of_scanning (keeps c') line'.suffix
  refine (still line (skipWhile_keeps (· == ' '))).bind fun _ c' skipped => ?_
  cases skipped
  have blanks : OnVersionLine text (c.skipWhile (· == ' ')) := by
    refine line.later (Cursor.rest_takeWhile c _) fun ch member => .inl ?_
    exact beq_iff_eq.mp (List.all_eq_true.mp List.all_takeWhile ch member)
  obtain ⟨first, onward⟩ := versionNumber_cases activity blanks
  refine first.bind fun major c₁ done => ?_
  have line₁ := onward major c₁ done
  refine (still line₁ (peek_keeps 0)).bind fun found c' read => ?_
  cases read
  dsimp only
  split
  · refine (still line₁ (fail_keeps _ _)).bind fun _ c' failed => ?_
    cases failed
  · next dot =>
    rw [bne_iff_ne, not_not] at dot
    have rest : c₁.rest = ['.'] ++ (c₁.skip 1).rest := Cursor.rest_of_peek dot
    have line₂ := line₁.later rest (List.forall_mem_singleton.mpr (.inr (.inl rfl)))
    refine (still line₁ (skip_keeps 1)).bind fun _ c' skipped => ?_
    cases skipped
    obtain ⟨second, onward⟩ := versionNumber_cases activity line₂
    refine second.bind fun minor c₃ done => still (onward minor c₃ done) ?_
    exact .bind (peek_keeps 0) fun _ => .ite (.pure _) (fail_keeps _ _)

theorem tagHandle_keeps (activity : Activity) : scanning.Keeps (tagHandle activity) := by
  refine .bind (peek_keeps 0) fun c => unless_keeps fun _ => .bind (peek_keeps 1) fun d => ?_
  refine .ite (.bind (skip_keeps 1) fun _ => .pure _) (.bind (skip_keeps 1) fun _ => ?_)
  refine .bind (takeWhile_keeps _) fun name => .bind (peek_keeps 0) fun c => unless_keeps fun _ => ?_
  exact .bind (skip_keeps 1) fun _ => .pure _

theorem uriBytes_keeps (activity : Activity) (fuel : Nat) :
    scanning.Keeps (uriBytes activity fuel) := by
  induction fuel with
  | zero => exact .pure []
  | succ fuel ih =>
      refine .bind (peek_keeps 0) fun c => .ite (.pure []) (.bind (skip_keeps 1) fun _ => ?_)
      refine .bind .get fun c => unless_keeps fun _ => .bind (skip_keeps 2) fun _ => ?_
      exact .bind ih fun more => .pure _

theorem uriEscapes_keeps (activity : Activity) : scanning.Keeps (uriEscapes activity) := by
  refine .bind position_keeps fun start => .bind remaining_keeps fun n => ?_
  refine .bind (uriBytes_keeps activity n) fun bytes => ?_
  cases Utf8.decode bytes with
  | ok text => exact .pure _
  | error fault => exact .throw fun _ _ same => by cases same

theorem uriRuns_keeps (activity : Activity) (fuel : Nat) :
    scanning.Keeps (uriRuns activity fuel) := by
  induction fuel with
  | zero => exact .pure []
  | succ fuel ih =>
      refine .bind (takeWhile_keeps _) fun run => .bind (peek_keeps 0) fun c => .ite ?_ (.pure _)
      exact .bind (uriEscapes_keeps activity) fun text => .bind ih fun more => .pure _

theorem tagUri_keeps (name : String) (start : Position) : scanning.Keeps (tagUri name start) := by
  refine .bind (peek_keeps 0) fun c => .bind remaining_keeps fun n => ?_
  exact .bind (uriRuns_keeps _ _) fun text => .ite (.pure _) (fail_keeps _ _)

theorem handleValue_keeps (activity : Activity) (start : Position) :
    scanning.Keeps (handleValue activity start) := by
  refine .bind (skipWhile_keeps _) fun _ => .bind (tagHandle_keeps activity) fun handle => ?_
  refine .bind (peek_keeps 0) fun c => unless_keeps fun _ => .bind (skipWhile_keeps _) fun _ => ?_
  refine .bind (tagUri_keeps _ start) fun leading => .bind (peek_keeps 0) fun c => ?_
  exact .ite (.pure _) (fail_keeps _ _)

/-- A directive at its percent sign. -/
theorem directive_at {c : Cursor} (percent : c.peek 0 = some '%') : scanning.At c directive := by
  have rest := Cursor.rest_of_peek percent
  have still {α : Type} {m : Scan α} {c' : Cursor} (keeps : scanning.Keeps m)
      (inside : c'.rest <:+ c.rest) : (within c.rest).At c' m :=
    within_of_scanning (keeps c') inside
  rw [scanning_at_iff]
  refine (still position_keeps List.suffix_rfl).bind fun start c' read => ?_
  cases read
  let start := c.pos
  refine (still (skip_keeps 1) List.suffix_rfl).bind fun _ c' skipped => ?_
  cases skipped
  have later : (c.skip 1).rest <:+ c.rest := rest ▸ List.suffix_cons _ _
  refine (still (directiveName_keeps _) later).bind fun name c₂ done => ?_
  have after := directiveName_rest _ done
  have inside : c₂.rest <:+ c.rest := List.IsSuffix.trans ⟨_, after.symm⟩ later
  let activity : Activity := ⟨"while scanning a directive", some start⟩
  have values {k : Directive → Scan Token} (onward : ∀ value, scanning.Keeps (k value)) :
      (within c.rest).At c₂ (if name == "YAML" then versionValue activity >>= k
        else if name == "TAG" then handleValue activity start >>= k
        else pure (.other name) >>= k) := by
    split
    · next yaml =>
      have line : OnVersionLine c.rest c₂ := by
        refine ⟨[], fun ch member => absurd member List.not_mem_nil, ?_⟩
        rw [rest, after, beq_iff_eq.mp yaml]
        rfl
      have version := versionValue_at activity line
      refine version.bind fun value c₃ done => still (onward value) ?_
      exact (version.leads done).trans inside
    · refine still (.ite ?_ (.bind (.pure _) onward)) inside
      exact .bind (handleValue_keeps _ _) onward
  refine values fun value => .bind position_keeps fun finish => ?_
  have last : scanning.Keeps (ignoredLine activity >>= fun _ =>
      pure (Token.mk (.directive value) start finish)) :=
    .bind (ignoredLine_keeps activity) fun _ => .pure _
  cases value with
  | other name => exact .bind (skipWhile_keeps _) fun _ => last
  | version major minor => exact last
  | handle handle leading => exact last

end Directives

section Properties

theorem anchorName_keeps (what : String) : scanning.Keeps (anchorName what) := by
  refine .bind position_keeps fun start => .bind (skip_keeps 1) fun _ => ?_
  refine .bind (takeWhile_keeps _) fun name => .bind (peek_keeps 0) fun c => ?_
  exact .ite (fail_keeps _ _) (.pure _)

theorem anchorToken_keeps : scanning.Keeps anchorToken :=
  .bind (anchorName_keeps _) fun _ => .bind position_keeps fun _ => .pure _

theorem aliasToken_keeps : scanning.Keeps aliasToken :=
  .bind (anchorName_keeps _) fun _ => .bind position_keeps fun _ => .pure _

theorem tagText_keeps (start : Position) : scanning.Keeps (tagText start) := by
  refine .bind (peek_keeps 1) fun c => .ite ?_ (.ite (.bind (skip_keeps 1) fun _ => .pure _) ?_)
  · refine .bind (skip_keeps 2) fun _ => .bind (tagUri_keeps _ start) fun suffix => ?_
    refine .bind (peek_keeps 0) fun c => unless_keeps fun _ => ?_
    exact .bind (skip_keeps 1) fun _ => .pure _
  · refine .bind .get fun c => .ite ?_ ?_
    · exact .bind (tagHandle_keeps _) fun handle => .bind (tagUri_keeps _ start) fun _ => .pure _
    · exact .bind (skip_keeps 1) fun _ => .bind (tagUri_keeps _ start) fun _ => .pure _

theorem tag_keeps : scanning.Keeps tag := by
  refine .bind position_keeps fun start => .bind (tagText_keeps start) fun text => ?_
  refine .bind (peek_keeps 0) fun c => .ite (.bind position_keeps fun _ => .pure _) (fail_keeps _ _)

end Properties

end Scan
end DataModel.Yaml
