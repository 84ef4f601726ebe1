import DataModel.Grammar.File
import DataModel.Proofs.Source.Collecting

/-!
Every reader of a section takes one node. A section is read field by field and each field takes the
node of its value; what a section must give is checked behind its fields, and told at its start.
-/
namespace DataModel.Grammar
open DataModel.Source Read

theorem readReference_takes : TakesNode readReference := scalar_takes.map _

theorem readReferences_takes : TakesNode readReferences := scalars_takes.map _

section Properties

theorem regularFields_take : regularFields.Take := by
  intro key read known d
  unfold regularFields at known
  split at known <;> cases known
  · exact string_takes.map _
  · exact readReference_takes.map _
  · exact string_takes.map _
  · exact string_takes.map _
  · exact boolean_takes.map _
  · exact boolean_takes.map _
  · exact boolean_takes.map _
  · exact string_takes.map _

theorem readRegular_takes (location : Reference) : TakesNode (readRegular location) :=
  .section (regularFields_take.takes _ _) fun _ _ =>
    .bind (.require _ _ _) fun _ => .bind (.require _ _ _) fun _ => .bind (.require _ _ _) fun _ =>
      .pure _

theorem associationFields_take : associationFields.Take := by
  intro key read known d
  unfold associationFields at known
  split at known <;> cases known
  · exact readReference_takes.map _
  · exact string_takes.map _
  · exact (word_takes _).map _
  · exact string_takes.map _
  · exact string_takes.map _
  · exact boolean_takes.map _
  · exact boolean_takes.map _
  · exact string_takes.map _

theorem readAssociation_takes (location : Reference) : TakesNode (readAssociation location) :=
  .section (associationFields_take.takes _ _) fun _ _ =>
    .bind (.require _ _ _) fun _ => .bind (.require _ _ _) fun _ => .pure _

theorem compositionFields_take : compositionFields.Take := by
  intro key read known d
  unfold compositionFields at known
  split at known <;> cases known
  · exact readReference_takes.map _
  · exact string_takes.map _
  · exact (word_takes _).map _
  · exact readReference_takes.map _
  · exact string_takes.map _
  · exact string_takes.map _

theorem readComposition_takes (location : Reference) : TakesNode (readComposition location) :=
  .section (compositionFields_take.takes _ _) fun _ _ =>
    .bind (.require _ _ _) fun _ => .bind (.require _ _ _) fun _ => .bind (.require _ _ _) fun _ =>
      .pure _

theorem selectionFields_take : selectionFields.Take := by
  intro key read known d
  unfold selectionFields at known
  split at known <;> cases known
  · exact readReference_takes.map _
  · exact readReferences_takes.map _
  · exact readReferences_takes.map _
  · exact readReferences_takes.map _

theorem readSelection_takes : TakesNode readSelection :=
  .section (selectionFields_take.takes _ _) fun _ _ => .bind (.require _ _ _) fun _ => .pure _

theorem aliasFields_take : aliasFields.Take := by
  intro key read known d
  unfold aliasFields at known
  split at known <;> cases known
  · exact readSelection_takes.map _
  · exact string_takes.map _
  · exact string_takes.map _
  · exact string_takes.map _
  · exact string_takes.map _
  · exact boolean_takes.map _
  · exact readReference_takes.map _

theorem readPlaceholder_takes (location : Reference) (slot : Nat) :
    TakesNode (readPlaceholder location slot) :=
  .section (aliasFields_take.takes _ _) fun _ _ => .bind (.require _ _ _) fun _ => .pure _

theorem variant?_takes {slot : Nat} {key : String} {read : Reference → Read Property}
    (known : variant? slot key = some read) (location : Reference) : TakesNode (read location) := by
  unfold variant? at known
  split at known <;> cases known
  · exact readRegular_takes location
  · exact readAssociation_takes location
  · exact readComposition_takes location
  · exact readPlaceholder_takes location slot

/-- A property, by its leading key. -/
def readVariant (slot : Nat) (leading : Event) : Read Property :=
  match variant? slot leading.value with
  | some read =>
    if leading.kind == .scalar then read (reference leading)
    else Read.reject (.unknownVariant leading.value) leading
  | none => Read.reject (.unknownVariant leading.value) leading

theorem readVariant_takes (slot : Nat) (leading : Event) :
    TakesValue leading (readVariant slot leading) := by
  unfold readVariant
  split
  · next read known =>
    split
    · exact .inl (variant?_takes known _)
    · exact .inr ⟨_, by simp, rfl⟩
  · exact .inr ⟨_, by simp, rfl⟩

theorem run_readProperty (slot : Nat) (r : Reader) : (readProperty slot).run r =
    if r.current.kind = .mappingStart then (readVariant slot (r.peek 1)).run r
    else (.error (.at (.unexpected [.mappingStart] r.current) r.current), r) := by
  show (if (!([Event.Kind.mappingStart].contains r.current.kind)) = true then
    (discard (Read.expect [.mappingStart]) >>= fun _ => Read.peek 1 >>= readVariant slot)
    else Read.peek 1 >>= readVariant slot : Read Property).run r = _
  by_cases kind : r.current.kind = .mappingStart
  · rw [if_neg (by simp [kind]), if_pos kind]
    rfl
  · rw [if_pos (by simpa using kind), if_neg kind, discard_eq, run_bind, run_bind, run_expect,
      if_neg (by simpa using kind)]

theorem readProperty_takes (slot : Nat) : TakesNode (readProperty slot) where
  ends r closed := by
    rw [run_readProperty]
    split
    · exact (readVariant_takes slot (r.peek 1)).ends closed (r.peek_mem 1)
    · exact ⟨r.current, r.current_mem, Rejection.isAt (by simp) _⟩
  alone es nested := by
    obtain ⟨e, rest, rfl, -⟩ := nested.head_of_node
    by_cases kind : e.kind = .mappingStart
    · -- The leading key stands within the node: a mapping ends behind its first event.
      have entries : Nested (inner true) rest := nested.inside kind
      obtain ⟨leading, more, rfl⟩ := List.exists_cons_of_ne_nil entries.ne_nil
      obtain ⟨result, reads⟩ := (readVariant_takes slot leading).alone nested
      refine ⟨result, fun passed after stop => ?_⟩
      rw [run_readProperty, if_pos (by exact kind)]
      exact reads passed after stop
    · refine ⟨.error (.at (.unexpected [.mappingStart] e) e), .refuse fun r here => ?_⟩
      rw [run_readProperty, here, if_neg kind]

theorem readProperties_takes (before : List Property) : TakesNode (readProperties before) :=
  .eachItem (fun _ _ => (readProperty_takes _).map _) before

end Properties

section Sections

theorem classFields_take : classFields.Take := by
  intro key read known d
  unfold classFields at known
  split at known <;> cases known
  · exact string_takes.map _
  · exact string_takes.map _
  · exact string_takes.map _
  · exact string_takes.map _
  · exact string_takes.map _
  · exact string_takes.map _
  · exact string_takes.map _
  · exact readReference_takes.map _
  · exact (word_takes _).map _
  · exact boolean_takes.map _
  · exact readReferences_takes.map _
  · exact (readProperties_takes _).map _

theorem readClass_takes : TakesNode readClass :=
  .section (classFields_take.takes _ _) fun _ _ =>
    .bind (.require _ _ _) fun _ => .bind (.require _ _ _) fun _ => .pure _

theorem domainTypeFields_take : domainTypeFields.Take := by
  intro key read known d
  unfold domainTypeFields at known
  split at known <;> cases known
  · exact string_takes.map _
  · exact strings_takes.map _
  · exact strings_takes.map _

theorem readDomainType_takes (language : String) : TakesNode (readDomainType language) :=
  .section (domainTypeFields_take.takes _ _) fun _ _ => .bind (.require _ _ _) fun _ => .pure _

theorem converterFields_take : converterFields.Take := by
  intro key read known d
  unfold converterFields at known
  split at known
  · cases known
    exact readReferences_takes.map _
  · split at known <;> cases known
    exact string_takes.map _

theorem readConverter_takes : TakesNode readConverter := by
  refine .section (converterFields_take.takes _ _) fun start d => ?_
  split
  · exact .reject (by simp)
  · exact .pure d

theorem domainFields_take : domainFields.Take := by
  intro key read known d
  unfold domainFields at known
  split at known
  case h_7 =>
    split at known <;> cases known
    exact (readDomainType_takes _).map _
  all_goals cases known
  · exact string_takes.map _
  · exact string_takes.map _
  · exact integer_takes.map _
  · exact integer_takes.map _
  · exact string_takes.map _
  · exact (TakesNode.eachItem (fun _ _ => readConverter_takes.map _) _).map _

theorem readDomain_takes : TakesNode readDomain :=
  .section (domainFields_take.takes _ _) fun _ _ => .bind (.require _ _ _) fun _ => .pure _

theorem decoratorCodeFields_take : decoratorCodeFields.Take := by
  intro key read known d
  unfold decoratorCodeFields at known
  split at known <;> cases known
  · exact strings_takes.map _
  · exact strings_takes.map _
  · exact string_takes.map _
  · exact strings_takes.map _

theorem decoratorFields_take : decoratorFields.Take := by
  intro key read known d
  unfold decoratorFields at known
  split at known
  case h_3 =>
    split at known <;> cases known
    exact (decoratorCodeFields_take.takes _ _).map _
  all_goals cases known
  · exact string_takes.map _
  · exact string_takes.map _

theorem readDecorator_takes : TakesNode readDecorator :=
  .section (decoratorFields_take.takes _ _) fun _ _ => .bind (.require _ _ _) fun _ => .pure _

theorem readMethod_takes : TakesNode readMethod := by
  refine .scalar fun e => ?_
  split
  · exact .pure _
  · exact .reject (by simp)

theorem endpointFields_take : endpointFields.Take := by
  intro key read known d
  unfold endpointFields at known
  split at known <;> cases known
  · exact string_takes.map _
  · exact string_takes.map _
  · exact string_takes.map _
  · exact readMethod_takes.map _
  · exact (readProperties_takes _).map _
  · exact (readProperty_takes 0).map _

theorem readEndpoint_takes : TakesNode readEndpoint :=
  .section (endpointFields_take.takes _ _) fun _ _ =>
    .bind (.require _ _ _) fun _ => .bind (.require _ _ _) fun _ => .bind (.require _ _ _) fun _ =>
      .pure _

theorem fileAliasFields_take : fileAliasFields.Take := by
  intro key read known d
  unfold fileAliasFields at known
  split at known <;> cases known
  · exact readReference_takes.map _
  · exact readReferences_takes.map _
  · exact readReferences_takes.map _

theorem readFileAlias_takes : TakesNode readFileAlias :=
  .section (fileAliasFields_take.takes _ _) fun _ _ => .bind (.require _ _ _) fun _ => .pure _

end Sections

/-- Every reader of a section takes its node and nothing else, and comes to an end on whatever
events it is given. -/
theorem sections_take_node :
    (∀ slot, TakesNodeAnywhere (readProperty slot)) ∧ TakesNodeAnywhere readClass ∧
      TakesNodeAnywhere readDomain ∧ TakesNodeAnywhere readDecorator ∧
      TakesNodeAnywhere readEndpoint ∧ TakesNodeAnywhere readFileAlias :=
  ⟨fun slot => (readProperty_takes slot).anywhere, readClass_takes.anywhere,
    readDomain_takes.anywhere, readDecorator_takes.anywhere, readEndpoint_takes.anywhere,
    readFileAlias_takes.anywhere⟩

end DataModel.Grammar
