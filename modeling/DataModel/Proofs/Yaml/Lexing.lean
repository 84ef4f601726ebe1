import DataModel.Proofs.Yaml.Scanning

/-!
Reading tokens. Indentation and simple keys leave the place in the text as it is, and every token is
read by going forward; so a text of which the tokens end at a value that does not exist holds an
oversized number.
-/
namespace DataModel.Yaml
open DataModel.Text
namespace Lexer

/-- Staying at a place of the text, where no number is read. -/
def standing : Course Lexer Failure where
  leads l l' := l'.cursor = l.cursor
  fails _ e := ∀ f, e ≠ .value f
  refl _ := rfl
  trans h h' := h'.trans h
  sooner _ fails := fails

/-- Going forward in the text of the tokens. -/
def lexing : Course Lexer Failure where
  leads l l' := scanning.leads l.cursor l'.cursor
  fails l e := scanning.fails l.cursor e
  refl l := scanning.refl l.cursor
  trans h h' := scanning.trans h h'
  sooner h fails := scanning.sooner h fails

section Steps
variable {α : Type} {l : Lexer}

theorem lexing_of_standing {m : Lex α} (h : standing.At l m) : lexing.At l m := by
  unfold Course.At
  cases run : m.run l with
  | error e => exact fun f same => absurd same (h.fails run f)
  | ok r =>
      have same : r.2.cursor = l.cursor := h.leads run
      show r.2.cursor.rest <:+ l.cursor.rest
      exact same ▸ List.suffix_rfl

theorem keeps_of_stands {m : Lex α} (h : standing.Keeps m) : lexing.Keeps m :=
  fun l => lexing_of_standing (h l)

theorem stands_then {β : Type} {m : Lex α} {k : α → Lex β} (h : standing.Keeps m)
    (next : ∀ a, lexing.Keeps (k a)) : lexing.Keeps (m >>= k) := .bind (keeps_of_stands h) next

theorem run_scan (s : Scan α) (l : Lexer) :
    (scan s).run l = (s.run l.cursor).map fun r => (r.1, { l with cursor := r.2 }) := by
  simp only [scan, StateT.run_bind, StateT.run_get, StateT.run_monadLift, pure_bind]
  cases s.run l.cursor <;> rfl

theorem scan_at {s : Scan α} (h : scanning.At l.cursor s) : lexing.At l (scan s) := by
  unfold Course.At
  rw [run_scan]
  cases run : s.run l.cursor with
  | error e => exact h.fails run
  | ok r => exact h.leads run

theorem scan_keeps {s : Scan α} (h : scanning.Keeps s) : lexing.Keeps (scan s) :=
  fun l => scan_at (h l.cursor)

theorem fail_stands (activity : Option Activity) (problem : Problem) :
    standing.Keeps (fail (α := α) activity problem) := by
  intro l f same
  cases same

theorem emit_stands (t : Token) : standing.Keeps (emit t) := fun _ => rfl

theorem allowKeys_stands (allowed : Bool) : standing.Keeps (allowKeys allowed) := fun _ => rfl

theorem inFlow_stands : standing.Keeps inFlow := fun _ => rfl

theorem position_stands : standing.Keeps (scan Scan.position) := fun _ => rfl

theorem emitFixed_keeps (kind : Token.Kind) (length : Nat) :
    lexing.Keeps (emitFixed kind length) := by
  refine .bind (scan_keeps Scan.position_keeps) fun start => ?_
  refine .bind (scan_keeps (Scan.skip_keeps length)) fun _ => ?_
  exact .bind (scan_keeps Scan.position_keeps) fun _ => keeps_of_stands (emit_stands _)

end Steps

section Keys

theorem dropStaleKeys_stands : standing.Keeps dropStaleKeys := by
  intro l
  refine .get ?_
  cases l.keys.find? _ with
  | some key => exact fail_stands _ _ l
  | none => exact .set rfl

theorem removeKey_stands : standing.Keeps removeKey := by
  intro l
  refine .get ?_
  cases l.keys.lookup l.flow with
  | none => exact Course.Keeps.pure () l
  | some key => exact .ite (fail_stands _ _ l) (.set rfl)

theorem saveKey_stands : standing.Keeps saveKey := by
  refine .bind .get fun l => .ite (.bind removeKey_stands fun _ => ?_) (.pure ())
  exact fun _ => rfl

end Keys

section Indents

theorem unwindTo_stands (column : Int) (fuel : Nat) : standing.Keeps (unwindTo column fuel) := by
  induction fuel with
  | zero => exact .pure ()
  | succ fuel ih =>
      intro l
      refine .get (.ite ?_ (Course.Keeps.pure () l))
      exact Course.At.bind (.set rfl) fun _ l' _ => ih l'

theorem unwind_stands (column : Int) : standing.Keeps (unwind column) :=
  .bind .get fun _ => unwindTo_stands column _

theorem openIndent_stands (column : Nat) : standing.Keeps (openIndent column) := by
  intro l
  refine .get (.ite ?_ (Course.Keeps.pure false l))
  exact Course.At.bind (.set rfl) fun _ l' _ => Course.Keeps.pure true l'

theorem openBlock_stands (kind : Token.Kind) (what : String) :
    standing.Keeps (openBlock kind what) := by
  have opening : standing.Keeps (scan Scan.position >>= fun pos => openIndent pos.column >>= fun
      opens => if opens then emit ⟨kind, pos, pos⟩ else pure ()) := by
    refine .bind position_stands fun pos => .bind (openIndent_stands _) fun opens => ?_
    exact .ite (emit_stands _) (.pure ())
  refine .bind inFlow_stands fun flow => .ite (.bind .get fun l => .ite ?_ opening) (.pure ())
  exact .bind (fail_stands _ _) fun _ => opening

end Indents

section Fetching
variable {α : Type} {s : Scan Token}

theorem fetchStreamEnd_keeps : lexing.Keeps fetchStreamEnd := by
  refine keeps_of_stands (.bind (unwind_stands _) fun _ => .bind removeKey_stands fun _ => ?_)
  refine .bind position_stands fun pos => .bind (emit_stands _) fun _ => ?_
  exact fun _ => rfl

/-- A directive is read where it stands. -/
theorem fetchDirective_at {l : Lexer} (percent : l.cursor.peek 0 = some '%') :
    lexing.At l fetchDirective := by
  refine (lexing_of_standing (unwind_stands _ l)).bind fun _ l₁ unwound => ?_
  refine (lexing_of_standing (removeKey_stands l₁)).bind fun _ l₂ removed => ?_
  refine (lexing_of_standing (allowKeys_stands false l₂)).bind fun _ l₃ allowed => ?_
  have same : l₃.cursor = l.cursor := calc
    l₃.cursor = l₂.cursor := (allowKeys_stands false l₂).leads allowed
    _ = l₁.cursor := (removeKey_stands l₁).leads removed
    _ = l.cursor := (unwind_stands _ l).leads unwound
  have directive := Scan.directive_at (c := l₃.cursor) (same ▸ percent)
  exact (scan_at directive).bind fun t l' _ => keeps_of_stands (emit_stands t) l'

theorem fetchMarker_keeps (kind : Token.Kind) : lexing.Keeps (fetchMarker kind) := by
  refine stands_then (unwind_stands _) fun _ => stands_then removeKey_stands fun _ => ?_
  exact stands_then (allowKeys_stands false) fun _ => emitFixed_keeps kind 3

theorem fetchFlowStart_keeps (kind : Token.Kind) : lexing.Keeps (fetchFlowStart kind) := by
  refine stands_then saveKey_stands fun _ => .bind (fun _ => List.suffix_rfl) fun _ => ?_
  exact emitFixed_keeps kind 1

theorem fetchFlowEnd_keeps (kind : Token.Kind) : lexing.Keeps (fetchFlowEnd kind) := by
  refine stands_then removeKey_stands fun _ => .bind (fun _ => List.suffix_rfl) fun _ => ?_
  exact emitFixed_keeps kind 1

theorem fetchFlowEntry_keeps : lexing.Keeps fetchFlowEntry :=
  stands_then (allowKeys_stands true) fun _ => stands_then removeKey_stands fun _ =>
    emitFixed_keeps .flowEntry 1

theorem fetchBlockEntry_keeps : lexing.Keeps fetchBlockEntry := by
  refine stands_then (openBlock_stands _ _) fun _ => ?_
  refine stands_then (allowKeys_stands true) fun _ => stands_then removeKey_stands fun _ => ?_
  exact emitFixed_keeps .blockEntry 1

theorem fetchKey_keeps : lexing.Keeps fetchKey := by
  refine stands_then (openBlock_stands _ _) fun _ => stands_then inFlow_stands fun flow => ?_
  refine stands_then (allowKeys_stands _) fun _ => stands_then removeKey_stands fun _ => ?_
  exact emitFixed_keeps .key 1

theorem fetchValue_keeps : lexing.Keeps fetchValue := by
  refine .bind .get fun l => ?_
  have last (f : Lexer → Lexer) (still : ∀ l, (f l).cursor = l.cursor) :
      lexing.Keeps (modify f >>= fun _ => emitFixed .value 1) := by
    have stands : standing.Keeps (modify f) := .update still
    exact stands_then stands fun _ => emitFixed_keeps .value 1
  cases l.keys.lookup l.flow with
  | some key =>
      refine .ite (stands_then (openIndent_stands _) fun opens => ?_) (.bind (.pure false) fun _ => ?_)
      · exact last _ fun _ => rfl
      · exact last _ fun _ => rfl
  | none =>
      refine stands_then (openBlock_stands _ _) fun _ => stands_then inFlow_stands fun flow => ?_
      refine stands_then (allowKeys_stands _) fun _ => stands_then removeKey_stands fun _ => ?_
      exact emitFixed_keeps .value 1

theorem fetchNode_keeps (h : scanning.Keeps s) : lexing.Keeps (fetchNode s) := by
  refine stands_then saveKey_stands fun _ => stands_then (allowKeys_stands false) fun _ => ?_
  exact .bind (scan_keeps h) fun t => keeps_of_stands (emit_stands t)

theorem fetchBlockScalar_keeps (fold : Bool) : lexing.Keeps (fetchBlockScalar fold) := by
  refine stands_then (allowKeys_stands true) fun _ => stands_then removeKey_stands fun _ => ?_
  refine .bind .get fun l => .bind (scan_keeps (Scan.blockScalar_keeps fold _)) fun t => ?_
  exact keeps_of_stands (emit_stands t)

theorem fetchPlain_keeps : lexing.Keeps fetchPlain := by
  refine stands_then saveKey_stands fun _ => .bind .get fun l => ?_
  refine .bind (scan_keeps (Scan.plainScalar_keeps _ _)) fun r => ?_
  exact stands_then (allowKeys_stands _) fun _ => keeps_of_stands (emit_stands _)

theorem skipToToken_keeps (fuel : Nat) : lexing.Keeps (skipToToken fuel) := by
  induction fuel with
  | zero => exact .pure ()
  | succ fuel ih =>
      refine .bind (scan_keeps (Scan.skipWhile_keeps _)) fun _ => ?_
      refine .bind (scan_keeps Scan.skipComment_keeps) fun _ => ?_
      refine .bind (scan_keeps Scan.lineBreak_keeps) fun b => .ite (.pure ()) ?_
      refine stands_then inFlow_stands fun flow => .ite ?_ ih
      exact stands_then (allowKeys_stands true) fun _ => ih

theorem skipByteOrderMark_keeps : lexing.Keeps skipByteOrderMark :=
  .bind .get fun _ => .ite (scan_keeps (Scan.skip_keeps 1)) (.pure ())

theorem atMarker_stands (c : Char) : standing.Keeps (atMarker c) := fun _ => rfl

theorem fetchCollection_keeps {c : Char} {m : Lex Unit} (known : fetchCollection c = some m) :
    lexing.Keeps m := by
  unfold fetchCollection at known
  split at known <;> cases known
  · exact fetchFlowStart_keeps _
  · exact fetchFlowStart_keeps _
  · exact fetchFlowEnd_keeps _
  · exact fetchFlowEnd_keeps _
  · exact fetchFlowEntry_keeps

theorem fetchIndicator_keeps {flow : Bool} {c : Char} {following : Option Char} {m : Lex Unit}
    (known : fetchIndicator flow c following = some m) : lexing.Keeps m := by
  unfold fetchIndicator at known
  split at known
  · split at known <;> cases known
    exact fetchBlockEntry_keeps
  · split at known <;> cases known
    exact fetchKey_keeps
  · split at known <;> cases known
    exact fetchValue_keeps
  · cases known
    exact fetchNode_keeps Scan.aliasToken_keeps
  · cases known
    exact fetchNode_keeps Scan.anchorToken_keeps
  · cases known
    exact fetchNode_keeps Scan.tag_keeps
  · split at known <;> cases known
    exact fetchBlockScalar_keeps false
  · split at known <;> cases known
    exact fetchBlockScalar_keeps true
  · cases known
    exact fetchNode_keeps (Scan.quotedScalar_keeps _)
  · cases known
    exact fetchNode_keeps (Scan.quotedScalar_keeps _)
  · cases known

/-- A token is read at its first character. -/
theorem fetchAt_at {l : Lexer} {c : Char} (first : l.cursor.peek 0 = some c) :
    lexing.At l (fetchAt c) := by
  refine .get ?_
  dsimp only
  split
  · next percent =>
    rw [Bool.and_eq_true, beq_iff_eq] at percent
    exact fetchDirective_at (percent.1 ▸ first)
  · refine stands_then (atMarker_stands '-') (fun _ => .ite (fetchMarker_keeps _) ?_) l
    refine stands_then (atMarker_stands '.') fun _ => .ite (fetchMarker_keeps _) ?_
    split
    · next known =>
      rcases Option.or_eq_some_iff.mp known with known | ⟨-, known⟩
      · exact fetchCollection_keeps known
      · exact fetchIndicator_keeps known
    · exact .ite fetchPlain_keeps (keeps_of_stands (fail_stands _ _))

theorem fetch_keeps : lexing.Keeps fetch := by
  refine .bind skipByteOrderMark_keeps fun _ => .bind (scan_keeps Scan.remaining_keeps) fun n => ?_
  refine .bind (skipToToken_keeps _) fun _ => stands_then dropStaleKeys_stands fun _ => ?_
  refine .bind .get fun l => stands_then (unwind_stands _) fun _ => fun l => .get ?_
  cases first : l.cursor.peek 0 with
  | none => exact fetchStreamEnd_keeps l
  | some c => exact fetchAt_at first

end Fetching

section Delivering

theorem deliver_stands (fuel : Nat) : standing.Keeps (deliver fuel) := by
  induction fuel with
  | zero => exact .pure []
  | succ fuel ih =>
      refine .bind .get fun l => ?_
      cases l.waiting with
      | nil => exact .pure []
      | cons t rest =>
          have giving : standing.Keeps (get >>= fun l => if l.done || l.isReady then
              set { l with waiting := rest, delivered := l.delivered + 1 } >>= fun _ =>
                deliver fuel >>= fun more => pure (t :: more)
              else pure []) := by
            intro l
            refine .get (.ite ?_ (Course.Keeps.pure [] l))
            exact Course.At.bind (.set rfl) fun _ l' _ => ih.bind (fun more => .pure _) l'
          refine .bind .get fun l => .ite ?_ giving
          exact .bind dropStaleKeys_stands fun _ => giving

end Delivering
end Lexer

open Lexer

/-- Tokens end at a value that does not exist only where an oversized number stands. -/
theorem TokenStream.run_failure (fuel : Nat) {l : Lexer} {f : ValueFault}
    (h : (TokenStream.run fuel l).failure = some (.value f)) : HoldsOversized l.cursor.rest := by
  induction fuel generalizing l with
  | zero => cases h
  | succ fuel ih =>
      rw [TokenStream.run] at h
      have stands := deliver_stands l.waiting.length l
      cases delivery : (deliver l.waiting.length).run l with
      | error failure =>
          rw [delivery] at h
          exact absurd (Option.some.inj h) (stands.fails delivery f)
      | ok r =>
          obtain ⟨tokens, l₁⟩ := r
          have same : l₁.cursor = l.cursor := stands.leads delivery
          rw [delivery] at h
          dsimp only at h
          rw [← same]
          split at h
          · cases h
          · cases fetching : fetch.run l₁ with
            | error failure =>
                rw [fetching] at h
                exact (fetch_keeps l₁).fails fetching f (Option.some.inj h)
            | ok r =>
                rw [fetching] at h
                exact (ih h).sooner ((fetch_keeps l₁).leads fetching)

theorem TokenStream.ofText_failure {text : String} {f : ValueFault}
    (h : (TokenStream.ofText text).failure = some (.value f)) : HoldsOversized (charsOf text) := by
  unfold TokenStream.ofText at h
  cases bad : unacceptable? (codes text) with
  | none =>
      rw [bad] at h
      exact TokenStream.run_failure _ h
  | some failure =>
      obtain ⟨i, -, found⟩ := Option.bind_eq_some_iff.mp bad
      obtain ⟨n, -, rfl⟩ := Option.map_eq_some_iff.mp found
      rw [bad] at h
      cases h

end DataModel.Yaml
