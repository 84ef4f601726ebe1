import DataModel.Proofs.Grammar.Entries

/-!
What a property is made of. A property is a mapping whose first key tells the rules for its entries,
and it is read just when the entries keep these rules; what it has in each field is what the field's
key was given last.
-/
namespace DataModel.Grammar
open DataModel.Source Read

section Regular

def regularRules : Rules where
  shape?
    | "name" | "domain" | "label" | "comment" | "defaultValue" => some .scalar
    | "primaryKey" | "unique" | "required" => some .flag
    | _ => none
  needed := ["name", "domain", "comment"]

def RegularDraft.onto (d : RegularDraft) (entries : Entries) : RegularDraft where
  name := (last textOf "name" entries).or d.name
  domain := (last referenceOf "domain" entries).or d.domain
  label := (last textOf "label" entries).or d.label
  comment := (last textOf "comment" entries).or d.comment
  primaryKey := (last flagOf "primaryKey" entries).getD d.primaryKey
  unique := (last flagOf "unique" entries).getD d.unique
  required := (last flagOf "required" entries).getD d.required
  defaultValue := (last textOf "defaultValue" entries).or d.defaultValue

theorem regular_overlay : Overlay "property" regularFields regularRules RegularDraft.onto where
  take := regularFields_take
  onto_nil d := by simp [RegularDraft.onto]
  onto_append d before after := by simp [RegularDraft.onto, last_append, Option.or_assoc]
  reads := by
    intro key value kind node d d'
    unfold field
    split
    · next read known =>
      unfold regularFields at known
      split at known <;> cases known
      · next same =>
        exact text_over kind node (by rw [same]; rfl) fun a found => by
          simp [RegularDraft.onto, same, found]
      · next same =>
        exact reference_over kind node (by rw [same]; rfl) fun a found => by
          simp [RegularDraft.onto, same, found]
      · next same =>
        exact text_over kind node (by rw [same]; rfl) fun a found => by
          simp [RegularDraft.onto, same, found]
      · next same =>
        exact text_over kind node (by rw [same]; rfl) fun a found => by
          simp [RegularDraft.onto, same, found]
      · next same =>
        exact flag_over kind node (by rw [same]; rfl) fun a found => by
          simp [RegularDraft.onto, same, found]
      · next same =>
        exact flag_over kind node (by rw [same]; rfl) fun a found => by
          simp [RegularDraft.onto, same, found]
      · next same =>
        exact flag_over kind node (by rw [same]; rfl) fun a found => by
          simp [RegularDraft.onto, same, found]
      · next same =>
        exact text_over kind node (by rw [same]; rfl) fun a found => by
          simp [RegularDraft.onto, same, found]
    · next unknown =>
      refine unknown_over ?_
      unfold regularFields at unknown
      split at unknown <;> cases unknown
      simp [regularRules]

end Regular

section Association

def multiplicityOf : List Event → Option Multiplicity :=
  wordOf [("oneToOne", .oneToOne), ("manyToOne", .manyToOne), ("oneToMany", .oneToMany),
    ("manyToMany", .manyToMany)]

/-- The role has the characters of the text, in order, that are no spaces. -/
def Unspaced (text role : String) : Prop := role.toList = text.toList.filter (· != ' ')

theorem unspaced_iff {text role : String} : Unspaced text role ↔ role = withoutSpaces text := by
  rw [Unspaced, withoutSpaces, ← String.toList_inj, String.toList_ofList]

/-- A role is read without its spaces. -/
theorem rel_unspaced {text role : Option String} :
    Option.Rel Unspaced text role ↔ role = text.map withoutSpaces := by
  constructor
  · rintro (same | _)
    · rw [Option.map_some, unspaced_iff.mp same]
    · rfl
  · rintro rfl
    cases text with
    | none => exact .none
    | some text => exact .some (unspaced_iff.mpr rfl)

def associationRules : Rules where
  shape?
    | "association" | "role" | "label" | "comment" | "defaultValue" => some .scalar
    | "type" => some (.word ["oneToOne", "manyToOne", "oneToMany", "manyToMany"])
    | "required" | "primaryKey" => some .flag
    | _ => none
  needed := ["association", "comment"]

def AssociationDraft.onto (d : AssociationDraft) (entries : Entries) : AssociationDraft where
  target := (last referenceOf "association" entries).or d.target
  role := ((last textOf "role" entries).map withoutSpaces).or d.role
  multiplicity := (last multiplicityOf "type" entries).getD d.multiplicity
  label := (last textOf "label" entries).or d.label
  comment := (last textOf "comment" entries).or d.comment
  required := (last flagOf "required" entries).getD d.required
  primaryKey := (last flagOf "primaryKey" entries).getD d.primaryKey
  defaultValue := (last textOf "defaultValue" entries).or d.defaultValue

theorem association_overlay :
    Overlay "association" associationFields associationRules AssociationDraft.onto where
  take := associationFields_take
  onto_nil d := by simp [AssociationDraft.onto]
  onto_append d before after := by
    simp [AssociationDraft.onto, last_append, Option.map_or, Option.or_assoc]
  reads := by
    intro key value kind node d d'
    unfold field
    split
    · next read known =>
      unfold associationFields at known
      split at known <;> cases known
      · next same =>
        exact reference_over kind node (by rw [same]; rfl) fun a found => by
          simp [AssociationDraft.onto, same, found]
      · next same =>
        exact text_over kind node (by rw [same]; rfl) fun a found => by
          simp [AssociationDraft.onto, same, found]
      · next same =>
        exact word_over kind node (by rw [same]; rfl) fun a found => by
          have found : multiplicityOf value = some a := found
          simp [AssociationDraft.onto, same, found]
      · next same =>
        exact text_over kind node (by rw [same]; rfl) fun a found => by
          simp [AssociationDraft.onto, same, found]
      · next same =>
        exact text_over kind node (by rw [same]; rfl) fun a found => by
          simp [AssociationDraft.onto, same, found]
      · next same =>
        exact flag_over kind node (by rw [same]; rfl) fun a found => by
          simp [AssociationDraft.onto, same, found]
      · next same =>
        exact flag_over kind node (by rw [same]; rfl) fun a found => by
          simp [AssociationDraft.onto, same, found]
      · next same =>
        exact text_over kind node (by rw [same]; rfl) fun a found => by
          simp [AssociationDraft.onto, same, found]
    · next unknown =>
      refine unknown_over ?_
      unfold associationFields at unknown
      split at unknown <;> cases unknown
      simp [associationRules]

end Association

section Composition

def shapeOf : List Event → Option DataModel.Shape := wordOf [("object", .object), ("list", .list)]

def compositionRules : Rules where
  shape?
    | "composition" | "name" | "domainKind" | "label" | "comment" => some .scalar
    | "kind" => some (.word ["object", "list"])
    | _ => none
  needed := ["composition", "name", "comment"]

def CompositionDraft.onto (d : CompositionDraft) (entries : Entries) : CompositionDraft where
  target := (last referenceOf "composition" entries).or d.target
  name := (last textOf "name" entries).or d.name
  shape := (last shapeOf "kind" entries).getD d.shape
  domainKind := (last referenceOf "domainKind" entries).or d.domainKind
  label := (last textOf "label" entries).or d.label
  comment := (last textOf "comment" entries).or d.comment

theorem composition_overlay :
    Overlay "composition" compositionFields compositionRules CompositionDraft.onto where
  take := compositionFields_take
  onto_nil d := by simp [CompositionDraft.onto]
  onto_append d before after := by simp [CompositionDraft.onto, last_append, Option.or_assoc]
  reads := by
    intro key value kind node d d'
    unfold field
    split
    · next read known =>
      unfold compositionFields at known
      split at known <;> cases known
      · next same =>
        exact reference_over kind node (by rw [same]; rfl) fun a found => by
          simp [CompositionDraft.onto, same, found]
      · next same =>
        exact text_over kind node (by rw [same]; rfl) fun a found => by
          simp [CompositionDraft.onto, same, found]
      · next same =>
        exact word_over kind node (by rw [same]; rfl) fun a found => by
          have found : shapeOf value = some a := found
          simp [CompositionDraft.onto, same, found]
      · next same =>
        exact reference_over kind node (by rw [same]; rfl) fun a found => by
          simp [CompositionDraft.onto, same, found]
      · next same =>
        exact text_over kind node (by rw [same]; rfl) fun a found => by
          simp [CompositionDraft.onto, same, found]
      · next same =>
        exact text_over kind node (by rw [same]; rfl) fun a found => by
          simp [CompositionDraft.onto, same, found]
    · next unknown =>
      refine unknown_over ?_
      unfold compositionFields at unknown
      split at unknown <;> cases unknown
      simp [compositionRules]

end Composition

section Alias

def selectionRules : Rules where
  shape?
    | "class" => some .scalar
    | "include" | "property" | "exclude" => some .scalars
    | _ => none
  needed := ["class"]

def SelectionDraft.onto (d : SelectionDraft) (entries : Entries) : SelectionDraft where
  target := (last referenceOf "class" entries).or d.target
  included := d.included ++ listed ["include", "property"] entries
  excluded := d.excluded ++ listed ["exclude"] entries

theorem selection_overlay :
    Overlay "alias reference" selectionFields selectionRules SelectionDraft.onto where
  take := selectionFields_take
  onto_nil d := by simp [SelectionDraft.onto]
  onto_append d before after := by
    simp [SelectionDraft.onto, last_append, listed_append, Option.or_assoc]
  reads := by
    intro key value kind node d d'
    unfold field
    split
    · next read known =>
      unfold selectionFields at known
      split at known <;> cases known
      · next same =>
        exact reference_over kind node (by rw [same]; rfl) fun a found => by
          simp [SelectionDraft.onto, same, found]
      · next same =>
        exact references_over kind node (by rw [same]; rfl) (by simp [SelectionDraft.onto, same])
      · next same =>
        exact references_over kind node (by rw [same]; rfl) (by simp [SelectionDraft.onto, same])
      · next same =>
        exact references_over kind node (by rw [same]; rfl) (by simp [SelectionDraft.onto, same])
    · next unknown =>
      refine unknown_over ?_
      unfold selectionFields at unknown
      split at unknown <;> cases unknown
      simp [selectionRules]

/-- The class that an alias takes properties from, with those that it names. -/
inductive Selects (entries : Entries) : Selection → Prop
  | mk {target : Reference} (hasClass : last referenceOf "class" entries = some target) :
    Selects entries ⟨target, listed ["include", "property"] entries, listed ["exclude"] entries⟩

theorem readSelection_given {value : List Event} (node : Nested .node value) {chosen : Selection} :
    readSelection.given value = some chosen ↔
      ∃ entries, IsMapping entries value ∧ selectionRules.Fit entries ∧ Selects entries chosen := by
  refine selection_overlay.section node
    (fun _ _ => .bind (.require _ _ _) fun _ => .pure _) (fun start entries chosen _ => ?_) ?_
  · simp only [given_require, given_pure, SelectionDraft.onto, Option.or_none, List.nil_append,
      Option.bind_eq_some_iff, Option.some.injEq]
    constructor
    · rintro ⟨target, hasClass, rfl⟩
      exact ⟨hasClass⟩
    · rintro ⟨hasClass⟩
      exact ⟨_, hasClass, rfl⟩
  · rintro entries _ ⟨hasClass⟩
    simp only [selectionRules, List.mem_singleton, forall_eq]
    exact ⟨_, _, Option.isSome_of_eq_some hasClass⟩

theorem isSome_readSelection {value : List Event} (node : Nested .node value) :
    (readSelection.given value).isSome ↔ selectionRules.shape.Fits value := by
  rw [Option.isSome_iff_exists]
  constructor
  · rintro ⟨chosen, given⟩
    obtain ⟨entries, mapping, fit, -⟩ := (readSelection_given node).mp given
    exact ⟨entries, mapping, fit⟩
  · rintro ⟨entries, mapping, fit⟩
    obtain ⟨target, hasClass⟩ : ∃ target, last referenceOf "class" entries = some target :=
      fit.last (by simp [selectionRules]) rfl isSome_referenceOf
    exact ⟨_, (readSelection_given node).mpr ⟨entries, mapping, fit, ⟨hasClass⟩⟩⟩

def aliasRules : Rules where
  shape?
    | "alias" => some selectionRules.shape
    | "prefix" | "suffix" | "label" | "comment" | "asListWithDomain" => some .scalar
    | "required" => some .flag
    | _ => none
  needed := ["alias"]

def AliasDraft.onto (d : AliasDraft) (entries : Entries) : AliasDraft where
  selection := (last readSelection.given "alias" entries).or d.selection
  leading := (last textOf "prefix" entries).getD d.leading
  trailing := (last textOf "suffix" entries).getD d.trailing
  label := (last textOf "label" entries).or d.label
  comment := (last textOf "comment" entries).or d.comment
  required := (last flagOf "required" entries).or d.required
  listDomain := (last referenceOf "asListWithDomain" entries).or d.listDomain

theorem alias_overlay : Overlay "alias" aliasFields aliasRules AliasDraft.onto where
  take := aliasFields_take
  onto_nil d := by simp [AliasDraft.onto]
  onto_append d before after := by simp [AliasDraft.onto, last_append, Option.or_assoc]
  reads := by
    intro key value kind node d d'
    unfold field
    split
    · next read known =>
      unfold aliasFields at known
      split at known <;> cases known
      · next same =>
        exact given_over rfl kind (by rw [same]; rfl) (isSome_readSelection node) fun a found => by
          simp [AliasDraft.onto, same, found]
      · next same =>
        exact text_over kind node (by rw [same]; rfl) fun a found => by
          simp [AliasDraft.onto, same, found]
      · next same =>
        exact text_over kind node (by rw [same]; rfl) fun a found => by
          simp [AliasDraft.onto, same, found]
      · next same =>
        exact text_over kind node (by rw [same]; rfl) fun a found => by
          simp [AliasDraft.onto, same, found]
      · next same =>
        exact text_over kind node (by rw [same]; rfl) fun a found => by
          simp [AliasDraft.onto, same, found]
      · next same =>
        exact flag_over kind node (by rw [same]; rfl) fun a found => by
          simp [AliasDraft.onto, same, found]
      · next same =>
        exact reference_over kind node (by rw [same]; rfl) fun a found => by
          simp [AliasDraft.onto, same, found]
    · next unknown =>
      refine unknown_over ?_
      unfold aliasFields at unknown
      split at unknown <;> cases unknown
      simp [aliasRules]

end Alias

section Properties

/-- What the entries of a property with that leading key say it is: each field has what its key was
given last. -/
inductive Describes (slot : Nat) (leading : Event) (entries : Entries) : Property → Prop
  | regular {name comment : String} {domainReference : Reference} {primaryKey : Bool}
    (variant : leading.value = "name")
    (hasName : last textOf "name" entries = some name)
    (hasDomain : last referenceOf "domain" entries = some domainReference)
    (hasComment : last textOf "comment" entries = some comment)
    (isKey : (last flagOf "primaryKey" entries).getD false = primaryKey) :
    Describes slot leading entries (.regular {
      name, label := last textOf "label" entries, comment
      location := ⟨leading.value, leading.line, leading.column⟩
      primaryKey, domainReference, domain := none
      unique := (last flagOf "unique" entries).getD false && !primaryKey
      required := (last flagOf "required" entries).getD false || primaryKey
      defaultValue := last textOf "defaultValue" entries, origin := none })
  | association {target : Reference} {role : Option String} {comment : String} {primaryKey : Bool}
    (variant : leading.value = "association")
    (hasTarget : last referenceOf "association" entries = some target)
    (hasRole : Option.Rel Unspaced (last textOf "role" entries) role)
    (hasComment : last textOf "comment" entries = some comment)
    (isKey : (last flagOf "primaryKey" entries).getD false = primaryKey) :
    Describes slot leading entries (.association {
      label := last textOf "label" entries, comment
      location := ⟨leading.value, leading.line, leading.column⟩
      primaryKey, reference := target, target := none, role
      multiplicity := (last multiplicityOf "type" entries).getD .manyToOne
      required := (last flagOf "required" entries).getD false || primaryKey
      defaultValue := last textOf "defaultValue" entries, givenName := none, origin := none })
  | composition {name comment : String} {target : Reference}
    (variant : leading.value = "composition")
    (hasTarget : last referenceOf "composition" entries = some target)
    (hasName : last textOf "name" entries = some name)
    (hasComment : last textOf "comment" entries = some comment) :
    Describes slot leading entries (.composition {
      name, label := last textOf "label" entries, comment
      location := ⟨leading.value, leading.line, leading.column⟩
      reference := target, target := none
      shape := (last shapeOf "kind" entries).getD .object
      domainKindReference := last referenceOf "domainKind" entries, domainKind := none })
  | placeholder {value : List Event} {chosen : Entries} {selection : Selection}
    (variant : leading.value = "alias")
    (hasAlias : last some "alias" entries = some value)
    (mapping : IsMapping chosen value) (fit : selectionRules.Fit chosen)
    (selects : Selects chosen selection) :
    Describes slot leading entries (.alias {
      label := last textOf "label" entries, comment := last textOf "comment" entries
      location := ⟨leading.value, leading.line, leading.column⟩
      slot, reference := selection.target
      included := selection.included, excluded := selection.excluded
      leading := (last textOf "prefix" entries).getD ""
      trailing := (last textOf "suffix" entries).getD ""
      required := last flagOf "required" entries
      listDomainReference := last referenceOf "asListWithDomain" entries, listDomain := none })

/-- The rules of a property, by its leading key. -/
def variantRules? : String → Option Rules
  | "name" => some regularRules
  | "association" => some associationRules
  | "composition" => some compositionRules
  | "alias" => some aliasRules
  | _ => none

/-- A mapping whose entries keep the rules that the first of them tells. -/
def IsProperty (leading : Event × List Event) (others : Entries) (node : List Event) : Prop :=
  IsMapping (leading :: others) node ∧
    ∃ rules, variantRules? leading.1.value = some rules ∧ rules.Fit (leading :: others)

variable {node : List Event} {leading : Event} {p : Property}

theorem readRegular_given (slot : Nat) (nested : Nested .node node)
    (variant : leading.value = "name") :
    (readRegular (reference leading)).given node = some p ↔
      ∃ entries, IsMapping entries node ∧ regularRules.Fit entries ∧
        Describes slot leading entries p := by
  refine regular_overlay.section nested (fun _ _ => .bind (.require _ _ _) fun _ =>
    .bind (.require _ _ _) fun _ => .bind (.require _ _ _) fun _ => .pure _)
    (fun start entries p _ => ?_) ?_
  · simp only [given_require, given_pure, RegularDraft.onto, Option.or_none,
      Option.bind_eq_some_iff, Option.some.injEq]
    constructor
    · rintro ⟨name, hasName, domain, hasDomain, comment, hasComment, rfl⟩
      exact .regular variant hasName hasDomain hasComment rfl
    · intro describes
      cases describes with
      | regular _ hasName hasDomain hasComment isKey =>
          subst isKey
          exact ⟨_, hasName, _, hasDomain, _, hasComment, rfl⟩
      | association other | composition other | placeholder other => simp [variant] at other
  · intro entries p describes
    cases describes with
    | regular _ hasName hasDomain hasComment _ =>
        simp only [regularRules, List.forall_mem_cons]
        exact ⟨⟨_, _, Option.isSome_of_eq_some hasName⟩, ⟨_, _, Option.isSome_of_eq_some hasDomain⟩,
          ⟨_, _, Option.isSome_of_eq_some hasComment⟩, nofun⟩
    | association other | composition other | placeholder other => simp [variant] at other

theorem readAssociation_given (slot : Nat) (nested : Nested .node node)
    (variant : leading.value = "association") :
    (readAssociation (reference leading)).given node = some p ↔
      ∃ entries, IsMapping entries node ∧ associationRules.Fit entries ∧
        Describes slot leading entries p := by
  refine association_overlay.section nested (fun _ _ => .bind (.require _ _ _) fun _ =>
    .bind (.require _ _ _) fun _ => .pure _) (fun start entries p _ => ?_) ?_
  · simp only [given_require, given_pure, AssociationDraft.onto, Option.or_none,
      Option.bind_eq_some_iff, Option.some.injEq]
    constructor
    · rintro ⟨target, hasTarget, comment, hasComment, rfl⟩
      exact .association variant hasTarget (rel_unspaced.mpr rfl) hasComment rfl
    · intro describes
      cases describes with
      | association _ hasTarget hasRole hasComment isKey =>
          subst isKey
          obtain rfl := rel_unspaced.mp hasRole
          exact ⟨_, hasTarget, _, hasComment, rfl⟩
      | regular other | composition other | placeholder other => simp [variant] at other
  · intro entries p describes
    cases describes with
    | association _ hasTarget _ hasComment _ =>
        simp only [associationRules, List.forall_mem_cons]
        exact ⟨⟨_, _, Option.isSome_of_eq_some hasTarget⟩,
          ⟨_, _, Option.isSome_of_eq_some hasComment⟩, nofun⟩
    | regular other | composition other | placeholder other => simp [variant] at other

theorem readComposition_given (slot : Nat) (nested : Nested .node node)
    (variant : leading.value = "composition") :
    (readComposition (reference leading)).given node = some p ↔
      ∃ entries, IsMapping entries node ∧ compositionRules.Fit entries ∧
        Describes slot leading entries p := by
  refine composition_overlay.section nested (fun _ _ => .bind (.require _ _ _) fun _ =>
    .bind (.require _ _ _) fun _ => .bind (.require _ _ _) fun _ => .pure _)
    (fun start entries p _ => ?_) ?_
  · simp only [given_require, given_pure, CompositionDraft.onto, Option.or_none,
      Option.bind_eq_some_iff, Option.some.injEq]
    constructor
    · rintro ⟨target, hasTarget, name, hasName, comment, hasComment, rfl⟩
      exact .composition variant hasTarget hasName hasComment
    · intro describes
      cases describes with
      | composition _ hasTarget hasName hasComment =>
          exact ⟨_, hasTarget, _, hasName, _, hasComment, rfl⟩
      | regular other | association other | placeholder other => simp [variant] at other
  · intro entries p describes
    cases describes with
    | composition _ hasTarget hasName hasComment =>
        simp only [compositionRules, List.forall_mem_cons]
        exact ⟨⟨_, _, Option.isSome_of_eq_some hasTarget⟩, ⟨_, _, Option.isSome_of_eq_some hasName⟩,
          ⟨_, _, Option.isSome_of_eq_some hasComment⟩, nofun⟩
    | regular other | association other | placeholder other => simp [variant] at other

/-- The alias that counts is the last one, and it was read. -/
theorem last_readSelection {entries : Entries} (allowed : ∀ e ∈ entries, aliasRules.Allow e)
    {selection : Selection} : last readSelection.given "alias" entries = some selection ↔
      ∃ value chosen, last some "alias" entries = some value ∧ IsMapping chosen value ∧
        selectionRules.Fit chosen ∧ Selects chosen selection := by
  have calls : ∀ e : Event, e.value = "alias" →
      aliasRules.shape? e.value = some selectionRules.shape := fun e same => by rw [same]; rfl
  rw [last_eq fun e member same => (allowed e member).means (calls e.1 same) isSome_readSelection,
    Option.bind_eq_some_iff]
  refine exists_congr fun value => ?_
  rw [exists_and_left]
  refine and_congr_right fun hasAlias => readSelection_given ?_
  obtain ⟨e, member, same, here⟩ := exists_of_last hasAlias
  obtain ⟨-, shape, -, fits⟩ := allowed e member
  exact Option.some.inj here ▸ shape.nested fits

theorem readPlaceholder_given (slot : Nat) (nested : Nested .node node)
    (variant : leading.value = "alias") :
    (readPlaceholder (reference leading) slot).given node = some p ↔
      ∃ entries, IsMapping entries node ∧ aliasRules.Fit entries ∧
        Describes slot leading entries p := by
  refine alias_overlay.section nested (fun _ _ => .bind (.require _ _ _) fun _ => .pure _)
    (fun start entries p allowed => ?_) ?_
  · simp only [given_require, given_pure, AliasDraft.onto, Option.or_none,
      Option.bind_eq_some_iff, Option.some.injEq, last_readSelection allowed]
    constructor
    · rintro ⟨selection, ⟨value, chosen, hasAlias, mapping, fit, selects⟩, rfl⟩
      exact .placeholder variant hasAlias mapping fit selects
    · intro describes
      cases describes with
      | placeholder _ hasAlias mapping fit selects =>
          exact ⟨_, ⟨_, _, hasAlias, mapping, fit, selects⟩, rfl⟩
      | regular other | association other | composition other => simp [variant] at other
  · intro entries p describes
    cases describes with
    | placeholder _ hasAlias mapping fit selects =>
        simp only [aliasRules, List.mem_singleton, forall_eq]
        exact ⟨_, _, Option.isSome_of_eq_some hasAlias⟩
    | regular other | association other | composition other => simp [variant] at other

theorem readVariant_given (slot : Nat) (nested : Nested .node node)
    (kind : leading.kind = .scalar) :
    (readVariant slot leading).given node = some p ↔
      ∃ rules, variantRules? leading.value = some rules ∧
        ∃ entries, IsMapping entries node ∧ rules.Fit entries ∧
          Describes slot leading entries p := by
  unfold readVariant
  split
  · next read known =>
    rw [if_pos (beq_iff_eq.mpr kind)]
    unfold variant? at known
    split at known <;> cases known
    · next variant =>
      rw [variant, readRegular_given slot nested variant]
      simp [variantRules?]
    · next variant =>
      rw [variant, readAssociation_given slot nested variant]
      simp [variantRules?]
    · next variant =>
      rw [variant, readComposition_given slot nested variant]
      simp [variantRules?]
    · next variant =>
      rw [variant, readPlaceholder_given slot nested variant]
      simp [variantRules?]
  · next unknown =>
    unfold variant? at unknown
    split at unknown <;> cases unknown
    rw [given_reject]
    simp [variantRules?]

/-- The first key of a mapping stands behind its start. -/
theorem leading_of_mapping {e e' : Event} {rest : List Event} {entries : Entries}
    (kind : e'.kind = .scalar) (h : IsMapping entries (e :: e' :: rest)) :
    ∃ value others, entries = (e', value) :: others := by
  obtain ⟨start, finish, -, closes, same⟩ := h
  cases entries with
  | nil =>
      cases same
      cases closes.symm.trans kind
  | cons entry others =>
      obtain ⟨key, value⟩ := entry
      cases (List.cons.inj (List.cons.inj same).2).1
      exact ⟨value, others, rfl⟩

/-- In a mapping that starts a property, the leading key comes next. -/
theorem readProperty_leading {e : Event} (slot : Nat) (opens : e.kind = .mappingStart)
    (leading : Event) (more : List Event) :
    (readProperty slot).given (e :: leading :: more) =
      (readVariant slot leading).given (e :: leading :: more) := by
  have leads : (readProperty slot).alone (e :: leading :: more) =
      (readVariant slot leading).alone (e :: leading :: more) := by
    rw [alone, run_readProperty]
    exact congrArg Prod.fst (if_pos opens)
  rw [given, leads]
  rfl

theorem readProperty_other {e : Event} (slot : Nat) (other : e.kind ≠ .mappingStart)
    (rest : List Event) : (readProperty slot).given (e :: rest) = none := by
  have rejected : (readProperty slot).alone (e :: rest) =
      .error (.at (.unexpected [.mappingStart] e) e) := by
    rw [alone, run_readProperty]
    exact congrArg Prod.fst (if_neg other)
  rw [given, rejected]
  rfl

/-- What leads a property is a scalar. -/
theorem readVariant_other (slot : Nat) (other : leading.kind ≠ .scalar) (es : List Event) :
    (readVariant slot leading).given es = none := by
  unfold readVariant
  split
  · rw [if_neg (by simpa using other), given_reject]
  · rw [given_reject]

/-- A property gives what its entries say, and nothing where they keep no rules. -/
theorem readProperty_given (slot : Nat) (nested : Nested .node node) :
    (readProperty slot).given node = some p ↔
      ∃ first others, IsProperty first others node ∧
        Describes slot first.1 (first :: others) p := by
  constructor
  · intro given
    obtain ⟨e, rest, rfl, -⟩ := nested.head_of_node
    by_cases opens : e.kind = .mappingStart
    · have entries : Nested (inner true) rest := nested.inside opens
      obtain ⟨leading, more, rfl⟩ := List.exists_cons_of_ne_nil entries.ne_nil
      rw [readProperty_leading slot opens] at given
      by_cases kind : leading.kind = .scalar
      · obtain ⟨rules, known, entries, mapping, fit, describes⟩ :=
          (readVariant_given slot nested kind).mp given
        obtain ⟨value, others, rfl⟩ := leading_of_mapping kind mapping
        exact ⟨_, others, ⟨mapping, rules, known, fit⟩, describes⟩
      · cases (readVariant_other slot kind _).symm.trans given
    · cases (readProperty_other slot opens rest).symm.trans given
  · rintro ⟨first, others, ⟨mapping, rules, known, fit⟩, describes⟩
    have kind := (fit.allowed first List.mem_cons_self).1
    obtain ⟨start, finish, opens, closes, rfl⟩ := id mapping
    rw [List.flatMap_cons, List.cons_append, List.cons_append] at mapping nested ⊢
    rw [readProperty_leading slot opens]
    exact (readVariant_given slot nested kind).mpr ⟨rules, known, _, mapping, fit, describes⟩

/-- Entries that keep the rules of a property describe one. -/
theorem exists_described (slot : Nat) {first : Event × List Event} {others : Entries}
    (h : IsProperty first others node) : ∃ p, Describes slot first.1 (first :: others) p := by
  obtain ⟨-, rules, known, fit⟩ := h
  unfold variantRules? at known
  split at known <;> cases known
  · next variant =>
    obtain ⟨name, hasName⟩ : ∃ name, last textOf "name" (first :: others) = some name :=
      fit.last (by simp [regularRules]) rfl isSome_textOf
    obtain ⟨target, hasDomain⟩ :
        ∃ target, last referenceOf "domain" (first :: others) = some target :=
      fit.last (by simp [regularRules]) rfl isSome_referenceOf
    obtain ⟨comment, hasComment⟩ :
        ∃ comment, last textOf "comment" (first :: others) = some comment :=
      fit.last (by simp [regularRules]) rfl isSome_textOf
    exact ⟨_, .regular variant hasName hasDomain hasComment rfl⟩
  · next variant =>
    obtain ⟨target, hasTarget⟩ :
        ∃ target, last referenceOf "association" (first :: others) = some target :=
      fit.last (by simp [associationRules]) rfl isSome_referenceOf
    obtain ⟨comment, hasComment⟩ :
        ∃ comment, last textOf "comment" (first :: others) = some comment :=
      fit.last (by simp [associationRules]) rfl isSome_textOf
    exact ⟨_, .association variant hasTarget (rel_unspaced.mpr rfl) hasComment rfl⟩
  · next variant =>
    obtain ⟨target, hasTarget⟩ :
        ∃ target, last referenceOf "composition" (first :: others) = some target :=
      fit.last (by simp [compositionRules]) rfl isSome_referenceOf
    obtain ⟨name, hasName⟩ : ∃ name, last textOf "name" (first :: others) = some name :=
      fit.last (by simp [compositionRules]) rfl isSome_textOf
    obtain ⟨comment, hasComment⟩ :
        ∃ comment, last textOf "comment" (first :: others) = some comment :=
      fit.last (by simp [compositionRules]) rfl isSome_textOf
    exact ⟨_, .composition variant hasTarget hasName hasComment⟩
  · next variant =>
    obtain ⟨selection, read⟩ :
        ∃ selection, last readSelection.given "alias" (first :: others) = some selection :=
      fit.last (by simp [aliasRules]) rfl isSome_readSelection
    obtain ⟨value, chosen, hasAlias, mapping, fit, selects⟩ :=
      (last_readSelection fit.allowed).mp read
    exact ⟨_, .placeholder variant hasAlias mapping fit selects⟩

/-- A property is read just where its entries keep the rules that its first key tells, and it has
in each field what they say; the reader is then behind the node. -/
theorem readProperty_describes (slot : Nat) {node : List Event} (nested : Nested .node node)
    (passed after : List Event) (stop : Event) :
    let read := (readProperty slot).run ⟨passed, node ++ after, stop⟩
    ((∃ p r, read = (.ok p, r)) ↔ ∃ first others, IsProperty first others node) ∧
      ∀ p r, read = (.ok p, r) ↔
        (∃ first others, IsProperty first others node ∧
          Describes slot first.1 (first :: others) p) ∧
        r = ⟨node.reverse ++ passed, after, stop⟩ := by
  intro read
  have whole : ∀ p r, read = (.ok p, r) ↔ (readProperty slot).given node = some p ∧
      r = ⟨node.reverse ++ passed, after, stop⟩ := by
    intro p r
    obtain ⟨result, reads⟩ := (readProperty_takes slot).alone node nested
    obtain ⟨r', run, behind⟩ := reads passed after stop
    rw [reads.given_eq, show read = (result, r') from run]
    constructor
    · rintro ⟨⟩
      exact ⟨rfl, behind p rfl⟩
    · rintro ⟨given, rfl⟩
      cases result with
      | error y => cases given
      | ok p' =>
          cases given
          rw [behind p rfl]
  have told : ∀ p r, read = (.ok p, r) ↔ (∃ first others, IsProperty first others node ∧
      Describes slot first.1 (first :: others) p) ∧ r = ⟨node.reverse ++ passed, after, stop⟩ :=
    fun p r => (whole p r).trans (and_congr_left fun _ => readProperty_given slot nested)
  refine ⟨⟨?_, ?_⟩, told⟩
  · rintro ⟨p, r, run⟩
    obtain ⟨⟨first, others, is, -⟩, -⟩ := (told p r).mp run
    exact ⟨first, others, is⟩
  · rintro ⟨first, others, is⟩
    obtain ⟨p, describes⟩ := exists_described slot is
    exact ⟨p, _, (told p _).mpr ⟨⟨first, others, is, describes⟩, rfl⟩⟩

end Properties

namespace Describing

def text (value : String) (column : Nat) : Event := ⟨.scalar, value, 1, column⟩

def mark (kind : Event.Kind) (column : Nat) : Event := ⟨kind, "", 1, column⟩

def mapping (start : Nat) (entries : Entries) (finish : Nat) : List Event :=
  mark .mappingStart start ::
    (entries.flatMap (fun x => x.1 :: x.2) ++ [mark .mappingEnd finish])

theorem mapping_nested {start finish : Nat} {entries : Entries}
    (each : ∀ entry ∈ entries, entry.1.kind = .scalar ∧ Nested .node entry.2) :
    Nested .node (mapping start entries finish) :=
  .mapping rfl (.ofEntries each rfl)

/-- The second alias of `{alias: {class: B}, prefix: p, alias: {property: y, class: C, include:
[x]}}`. -/
def chosen : Entries :=
  [(text "property" 38, [text "y" 48]), (text "class" 51, [text "C" 58]),
    (text "include" 61, [mark .sequenceStart 70, text "x" 71, mark .sequenceEnd 72])]

def node : List Event :=
  mapping 1 [(text "alias" 2, mapping 9 [(text "class" 10, [text "B" 17])] 18),
    (text "prefix" 21, [text "p" 29]), (text "alias" 30, mapping 37 chosen 73)] 74

def placeholder : Placeholder where
  label := none
  comment := none
  location := ⟨"alias", 1, 2⟩
  slot := 0
  reference := ⟨"C", 1, 58⟩
  included := [⟨"y", 1, 48⟩, ⟨"x", 1, 71⟩]
  excluded := []
  leading := "p"
  trailing := ""
  required := none
  listDomainReference := none
  listDomain := none

theorem node_nested : Nested .node node := by
  have first : Nested .node (mapping 9 [(text "class" 10, [text "B" 17])] 18) :=
    mapping_nested (List.forall_mem_singleton.mpr ⟨rfl, .scalar rfl⟩)
  have second : Nested .node (mapping 37 chosen 73) := by
    refine mapping_nested ?_
    simp only [chosen, List.forall_mem_cons]
    exact ⟨⟨rfl, .scalar rfl⟩, ⟨rfl, .scalar rfl⟩,
      ⟨rfl, .sequence rfl (.item (n := [_]) (.scalar rfl) (.noItem rfl))⟩, nofun⟩
  refine mapping_nested ?_
  simp only [List.forall_mem_cons]
  exact ⟨⟨rfl, first⟩, ⟨rfl, .scalar rfl⟩, ⟨rfl, second⟩, nofun⟩

/-- Of an alias given twice the second one counts, with all that it includes. -/
theorem readProperty_describes_alias :
    let read := (readProperty 0).run ⟨[], node ++ [], mark .streamEnd 75⟩
    Nested .node node ∧
      read = (.ok (.alias placeholder), ⟨node.reverse ++ [], [], mark .streamEnd 75⟩) ∧
      ∃ first others, IsProperty first others node ∧
        Describes 0 first.1 (first :: others) (.alias placeholder) := by
  intro read
  have run : read = (.ok (.alias placeholder), ⟨node.reverse ++ [], [], mark .streamEnd 75⟩) := rfl
  have told := (readProperty_describes 0 node_nested [] [] (mark .streamEnd 75)).2
  exact ⟨node_nested, run, ((told _ _).mp run).1⟩

end Describing

end DataModel.Grammar
