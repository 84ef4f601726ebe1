import DataModel.Proofs.Yaml.Parsing
import DataModel.Yaml.Node

/-!
Reading nodes. Whatever the nodes of a text, putting them together reads no value, so where this
ends at a value that does not exist, the tokens of the text do.
-/
namespace DataModel.Yaml
open DataModel.Text
namespace Compose

/-- What comes after the last event stays the same, and is the only thing that may name a value. -/
def composing : Course Composition Failure where
  leads c c' := c'.failure = c.failure
  fails c e := ∀ f, e = .value f → c.failure = some (.value f)
  refl _ := rfl
  trans h h' := h'.trans h
  sooner h fails f same := h ▸ fails f same

section Steps
variable {α : Type}

theorem fault_keeps {fault : Fault} : composing.Keeps (α := α) (throw (.fault fault)) :=
  .throw fun _ _ same => by cases same

theorem peek_keeps : composing.Keeps peek := by
  rintro ⟨events, failure, nodes, anchors⟩
  refine .get (.get ?_)
  cases events with
  | cons e rest => exact rfl
  | nil =>
      cases failure with
      | none => exact rfl
      | some failure => exact fun f same => congrArg some same

theorem advance_keeps : composing.Keeps advance := fun _ => rfl

theorem add_keeps (node : Node) (anchor : Option String) : composing.Keeps (add node anchor) :=
  fun _ => rfl

theorem fill_keeps (id : NodeId) (content : Content) : composing.Keeps (fill id content) :=
  fun _ => rfl

theorem aliased_keeps (name : String) (e : Event) : composing.Keeps (aliased name e) := by
  refine .bind .get fun c => ?_
  cases c.anchors.lookup name with
  | some id => exact .pure id
  | none => exact fault_keeps

theorem checkAnchor_keeps (anchor : Option String) (e : Event) :
    composing.Keeps (checkAnchor anchor e) := by
  cases anchor with
  | none => exact .pure ()
  | some name =>
      refine .bind .get fun c => ?_
      cases (c.anchors.lookup name).bind fun id => c.nodes[id]? with
      | none => exact .pure ()
      | some first => exact fault_keeps

end Steps

section Nodes

theorem until?_keeps {α : Type} {isEnd : Event.Kind → Bool} {item : Compose α}
    (kept : composing.Keeps item) (fuel : Nat) : composing.Keeps (until? isEnd item fuel) := by
  induction fuel with
  | zero => exact .pure []
  | succ fuel ih =>
      refine .bind peek_keeps fun e => .ite (.bind advance_keeps fun _ => .pure []) ?_
      exact .bind kept fun a => .bind ih fun more => .pure _

theorem node_keeps (fuel : Nat) : composing.Keeps (node fuel) := by
  induction fuel with
  | zero => exact .pure 0
  | succ fuel ih =>
      refine .bind peek_keeps fun e => ?_
      split
      · exact .bind advance_keeps fun _ => aliased_keeps _ e
      · exact .bind (checkAnchor_keeps _ e) fun _ => .bind advance_keeps fun _ => add_keeps _ _
      · refine .bind (checkAnchor_keeps _ e) fun _ => .bind advance_keeps fun _ => ?_
        refine .bind (add_keeps _ _) fun id => .bind (until?_keeps ih fuel) fun items => ?_
        exact .bind (fill_keeps _ _) fun _ => .pure _
      · have pair : composing.Keeps (do return (← node fuel, ← node fuel)) :=
          .bind ih fun _ => .bind ih fun _ => .pure _
        refine .bind (checkAnchor_keeps _ e) fun _ => .bind advance_keeps fun _ => ?_
        refine .bind (add_keeps _ _) fun id => .bind (until?_keeps pair fuel) fun pairs => ?_
        exact .bind (fill_keeps _ _) fun _ => .pure _
      · exact .bind advance_keeps fun _ => .pure 0

theorem document_keeps : composing.Keeps document := by
  have rest : composing.Keeps (do
      if (← peek).kind == .streamEnd then return none
      advance
      let root ← node ((← get).events.length + 1)
      discard peek
      return some root) := by
    refine .bind peek_keeps fun e => .ite (.pure none) (.bind advance_keeps fun _ => ?_)
    refine .bind .get fun c => .bind (node_keeps _) fun root => ?_
    exact .bind (.discard peek_keeps) fun _ => .pure _
  exact .bind peek_keeps fun e => .ite (.bind advance_keeps fun _ => rest) rest

end Nodes
end Compose

/-- The nodes of a text end at a value that does not exist only where an oversized number stands. -/
theorem Document.first?_failure {text : String} {f : ValueFault}
    (failed : Document.first? text = .error (.value f)) : HoldsOversized (charsOf text) := by
  unfold Document.first? at failed
  dsimp only at failed
  have keeps := Compose.document_keeps
    ⟨(EventStream.ofText text).events, (EventStream.ofText text).failure, #[], []⟩
  cases run : Compose.document.run
      ⟨(EventStream.ofText text).events, (EventStream.ofText text).failure, #[], []⟩ with
  | ok r =>
      rw [run] at failed
      cases failed
  | error e =>
      rw [run] at failed
      cases failed
      exact TokenStream.ofText_failure (EventStream.ofTokens_failure (keeps.fails run f rfl))

end DataModel.Yaml
