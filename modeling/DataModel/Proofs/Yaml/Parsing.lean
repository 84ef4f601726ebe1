import DataModel.Proofs.Yaml.Lexing
import DataModel.Yaml.Event

/-!
Reading events. The nesting of tokens is read without reading numbers, so where the events of a text
end at a value that does not exist, its tokens do.
-/
namespace DataModel.Yaml
open DataModel.Text
namespace Parse

/-- What comes after the last token stays the same, and is the only thing that may name a value. -/
def parsing : Course TokenReader Failure where
  leads r r' := r'.failure = r.failure
  fails r e := ∀ f, e = .value f → r.failure = some (.value f)
  refl _ := rfl
  trans h h' := h'.trans h
  sooner h fails f same := h ▸ fails f same

section Steps
variable {α : Type}

theorem fault_keeps {fault : Fault} : parsing.Keeps (α := α) (throw (.fault fault)) :=
  .throw fun _ _ same => by cases same

theorem peek_keeps : parsing.Keeps peek := by
  rintro ⟨tokens, failure, handles⟩
  refine .get (.get ?_)
  cases tokens with
  | cons t rest => exact rfl
  | nil =>
      cases failure with
      | none => exact rfl
      | some failure => exact fun f same => congrArg some same

theorem advance_keeps : parsing.Keeps advance := fun _ => rfl

theorem nextIs_keeps (p : Token.Kind → Bool) : parsing.Keeps (nextIs p) :=
  .bind peek_keeps fun _ => .pure _

theorem unexpected_keeps (what : String) (since : Option Position) (needed verb : String) :
    parsing.Keeps (unexpected (α := α) what since needed verb) :=
  .bind peek_keeps fun _ => fault_keeps

end Steps

section Nodes

theorem expandTag_keeps (since : Position) (t : Token) (text : TagText) :
    parsing.Keeps (expandTag since t text) := by
  unfold expandTag
  cases text.handle with
  | none => exact .pure _
  | some handle =>
      refine .bind .get fun r => ?_
      cases r.handles.lookup handle with
      | some leading => exact .pure _
      | none => exact fault_keeps

theorem anchorHere_keeps : parsing.Keeps anchorHere := by
  refine .bind peek_keeps fun t => ?_
  split
  · exact .bind advance_keeps fun _ => .pure _
  · exact .pure none

theorem tagHere_keeps : parsing.Keeps tagHere := by
  refine .bind peek_keeps fun t => ?_
  split
  · exact .bind advance_keeps fun _ => .pure _
  · exact .pure none

theorem decoration_keeps : parsing.Keeps decoration := by
  refine .bind peek_keeps fun t => .bind anchorHere_keeps fun first => ?_
  refine .bind tagHere_keeps fun tag => ?_
  have last (anchor : Option String) (start : Position) :
      parsing.Keeps (tag.mapM (fun p => expandTag start p.1 p.2) >>= fun tag =>
        pure (Decoration.mk anchor tag)) := by
    refine .bind ?_ fun _ => .pure _
    cases tag with
    | none => exact .pure none
    | some p => exact .map _ (expandTag_keeps start p.1 p.2)
  exact .ite (.bind anchorHere_keeps fun anchor => last anchor _) (.bind (.pure _) fun _ => last _ _)

theorem content_keeps (block indentless : Bool) (start : Position) (d : Decoration) :
    parsing.Keeps (content block indentless start d) := by
  have ending {empty : Bool} {what : String} {step : Step} : parsing.Keeps (if empty then pure step
      else unexpected what (some start) "the node content" "found") :=
    .ite (.pure step) (unexpected_keeps _ _ _ _)
  have taken {step : Step} : parsing.Keeps (advance >>= fun _ => pure step) :=
    .bind advance_keeps fun _ => .pure step
  refine .bind peek_keeps fun t => ?_
  dsimp only
  split
  · exact .ite (.pure _) ending
  · exact taken
  · exact taken
  · exact taken
  · exact .ite taken ending
  · exact .ite taken ending
  · exact ending

theorem node_keeps (block indentless : Bool) : parsing.Keeps (node block indentless) := by
  refine .bind peek_keeps fun t => ?_
  split
  · exact .bind advance_keeps fun _ => .pure _
  · exact .bind decoration_keeps fun d => content_keeps block indentless _ d

end Nodes

section Documents

theorem directives_error {ts : List Token} {versioned : Bool} {handles : List (String × String)}
    {e : Failure} (h : directives ts versioned handles = .error e) : ∃ fault, e = .fault fault := by
  induction ts generalizing versioned handles with
  | nil => cases h
  | cons t rest ih =>
      rw [directives] at h
      split at h
      · split at h
        · exact ⟨_, (Except.error.inj h).symm⟩
        · split at h
          · exact ⟨_, (Except.error.inj h).symm⟩
          · exact ih h
      · split at h
        · exact ⟨_, (Except.error.inj h).symm⟩
        · exact ih h
      · exact ih h
      · cases h

theorem explicitDocument_keeps : parsing.Keeps explicitDocument := by
  refine .bind (fun _ => rfl) fun _ => .bind peek_keeps fun t => ?_
  refine .ite (.bind advance_keeps fun _ => .pure _) (.bind .get fun r => ?_)
  refine .bind (.lift fun e failed => ?_) fun read => ?_
  · obtain ⟨fault, rfl⟩ := directives_error failed
    exact fun _ _ same => by cases same
  · obtain ⟨tokens, handles⟩ := read
    refine .bind (fun _ => rfl) fun _ => .bind (nextIs_keeps _) fun _ => ?_
    refine .ite (.bind (unexpected_keeps _ _ _ _) fun _ => ?_) ?_
    · exact .bind advance_keeps fun _ => .pure _
    · exact .bind advance_keeps fun _ => .pure _

end Documents

section Collections

theorem nodeOrEmpty_keeps (ends : Token.Kind → Bool) (pos : Position) (next : Expectation)
    {n : Parse Step} (h : parsing.Keeps n) : parsing.Keeps (nodeOrEmpty ends pos next n) :=
  .bind (nextIs_keeps ends) fun _ => .ite (.pure _) (.bind h fun _ => .pure _)

theorem closeBlock_keeps (what : String) (since : Position) (kind : Event.Kind) :
    parsing.Keeps (closeBlock what since kind) := by
  refine .bind peek_keeps fun t => .ite (.bind (unexpected_keeps _ _ _ _) fun _ => ?_) ?_
  · exact .bind advance_keeps fun _ => .pure _
  · exact .bind advance_keeps fun _ => .pure _

theorem flowSeparator_keeps (first : Bool) (what : String) (since : Position) (close : String) :
    parsing.Keeps (flowSeparator first what since close) :=
  .ite (.bind (nextIs_keeps _) fun _ => .ite advance_keeps (unexpected_keeps _ _ _ _)) (.pure ())

theorem flowClose_keeps (kind : Event.Kind) : parsing.Keeps (flowClose kind) :=
  .bind peek_keeps fun _ => .bind advance_keeps fun _ => .pure _

theorem flowSequenceStep_keeps (since : Position) (first : Bool) :
    parsing.Keeps (flowSequenceStep since first) := by
  refine .bind (nextIs_keeps _) fun _ => .ite (flowClose_keeps _) ?_
  refine .bind (flowSeparator_keeps _ _ _ _) fun _ => .bind peek_keeps fun t => ?_
  refine .ite (.bind advance_keeps fun _ => .pure _) (.ite (flowClose_keeps _) ?_)
  exact .bind (node_keeps false false) fun _ => .pure _

theorem flowMappingStep_keeps (since : Position) (first : Bool) :
    parsing.Keeps (flowMappingStep since first) := by
  refine .bind (nextIs_keeps _) fun _ => .ite (flowClose_keeps _) ?_
  refine .bind (flowSeparator_keeps _ _ _ _) fun _ => .bind peek_keeps fun t => ?_
  refine .ite (.bind advance_keeps fun _ => ?_) (.ite (flowClose_keeps _) ?_)
  · exact nodeOrEmpty_keeps _ _ _ (node_keeps false false)
  · exact .bind (node_keeps false false) fun _ => .pure _

theorem flowValueStep_keeps (ends : Token.Kind → Bool) (next : Expectation) :
    parsing.Keeps (flowValueStep ends next) := by
  refine .bind peek_keeps fun t => .ite (.bind advance_keeps fun _ => ?_) (.pure _)
  exact nodeOrEmpty_keeps _ _ _ (node_keeps false false)

theorem blockEntryStep_keeps (since : Position) : parsing.Keeps (blockEntryStep since) := by
  refine .bind peek_keeps fun t => .ite (.bind advance_keeps fun _ => ?_) (closeBlock_keeps _ _ _)
  exact nodeOrEmpty_keeps _ _ _ (node_keeps true false)

theorem indentlessEntryStep_keeps : parsing.Keeps indentlessEntryStep := by
  refine .bind peek_keeps fun t => .ite (.bind advance_keeps fun _ => ?_) (.pure _)
  exact nodeOrEmpty_keeps _ _ _ (node_keeps true false)

theorem blockKeyStep_keeps (since : Position) : parsing.Keeps (blockKeyStep since) := by
  refine .bind peek_keeps fun t => .ite (.bind advance_keeps fun _ => ?_) (closeBlock_keeps _ _ _)
  exact nodeOrEmpty_keeps _ _ _ (node_keeps true true)

theorem blockValueStep_keeps (since : Position) : parsing.Keeps (blockValueStep since) := by
  refine .bind peek_keeps fun t => .ite (.bind advance_keeps fun _ => ?_) (.pure _)
  exact nodeOrEmpty_keeps _ _ _ (node_keeps true true)

end Collections

section Whole

theorem firstDocumentStep_keeps : parsing.Keeps firstDocumentStep := by
  refine .bind peek_keeps fun t => .ite explicitDocument_keeps ?_
  exact .bind (fun _ => rfl) fun _ => .pure _

theorem documentContentStep_keeps : parsing.Keeps documentContentStep :=
  .bind peek_keeps fun _ => .ite (.pure _) (node_keeps true false)

theorem documentEndStep_keeps : parsing.Keeps documentEndStep :=
  .bind peek_keeps fun _ => .ite (.bind advance_keeps fun _ => .pure _) (.pure _)

theorem step_keeps (e : Expectation) : parsing.Keeps (step e) := by
  cases e with
  | firstDocument => exact firstDocumentStep_keeps
  | document => exact explicitDocument_keeps
  | documentEnd => exact documentEndStep_keeps
  | documentContent => exact documentContentStep_keeps
  | node => exact node_keeps true false
  | blockEntry since => exact blockEntryStep_keeps since
  | indentlessEntry => exact indentlessEntryStep_keeps
  | blockKey since => exact blockKeyStep_keeps since
  | blockValue since => exact blockValueStep_keeps since
  | flowEntry since first => exact flowSequenceStep_keeps since first
  | pairKey finish => exact nodeOrEmpty_keeps _ _ _ (node_keeps false false)
  | pairValue => exact flowValueStep_keeps _ _
  | pairEnd => exact .bind peek_keeps fun _ => .pure _
  | flowKey since first => exact flowMappingStep_keeps since first
  | flowValue since => exact flowValueStep_keeps _ _
  | flowNoValue since => exact .bind peek_keeps fun _ => .pure _

end Whole
end Parse

theorem EventStream.run_failure (fuel : Nat) {below : List Expectation} {r : TokenReader}
    {f : ValueFault} (h : (EventStream.run fuel below r).failure = some (.value f)) :
    r.failure = some (.value f) := by
  induction fuel generalizing below r with
  | zero => cases h
  | succ fuel ih =>
      cases below with
      | nil => cases h
      | cons e below =>
          rw [EventStream.run] at h
          have keeps := Parse.step_keeps e r
          cases stepping : (Parse.step e).run r with
          | error failure =>
              rw [stepping] at h
              exact keeps.fails stepping f (Option.some.inj h)
          | ok result =>
              obtain ⟨⟨event, more⟩, r'⟩ := result
              rw [stepping] at h
              exact (keeps.leads stepping) ▸ ih h

theorem EventStream.ofTokens_failure {s : TokenStream} {f : ValueFault}
    (h : (EventStream.ofTokens s).failure = some (.value f)) : s.failure = some (.value f) := by
  unfold EventStream.ofTokens at h
  split at h
  · exact h
  · exact EventStream.run_failure (r := ⟨_, s.failure, defaultHandles⟩) _ h

end DataModel.Yaml
