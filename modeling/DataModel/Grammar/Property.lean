import DataModel.Model.Property
import DataModel.Source.Reader

/-!
The grammar of properties. The first key of a property tells its variant: `name`, `association`,
`composition` or `alias`. A key may come more than once; its last value counts, but all included
and excluded names of an alias are collected.
-/
namespace DataModel.Grammar
open DataModel.Source

def reference (e : Event) : Reference := ⟨e.value, e.line, e.column⟩

def readReference : Read Reference := return reference (← Read.scalar)

def readReferences : Read (List Reference) := return (← Read.scalars).map reference

structure RegularDraft where
  name : Option String := none
  domain : Option Reference := none
  label : Option String := none
  comment : Option String := none
  primaryKey : Bool := false
  unique : Bool := false
  required : Bool := false
  defaultValue : Option String := none

def regularFields : Read.Fields RegularDraft
  | "name" => some fun d => return { d with name := ← Read.string }
  | "domain" => some fun d => return { d with domain := ← readReference }
  | "label" => some fun d => return { d with label := ← Read.string }
  | "comment" => some fun d => return { d with comment := ← Read.string }
  | "primaryKey" => some fun d => return { d with primaryKey := ← Read.boolean }
  | "unique" => some fun d => return { d with unique := ← Read.boolean }
  | "required" => some fun d => return { d with required := ← Read.boolean }
  | "defaultValue" => some fun d => return { d with defaultValue := ← Read.string }
  | _ => none

/-- A primary key is always required, and needs no uniqueness of its own. -/
def readRegular (location : Reference) : Read Property := do
  let start ← Read.current
  let d ← Read.fields "property" regularFields {}
  let name ← Read.require d.name "name" "property" start
  let within := s!"property '{name}'"
  let domainReference ← Read.require d.domain "domain" within start
  let comment ← Read.require d.comment "comment" within start
  return .regular
    { name, label := d.label, comment, location, primaryKey := d.primaryKey, domainReference
      domain := none, unique := d.unique && !d.primaryKey, required := d.required || d.primaryKey
      defaultValue := d.defaultValue, origin := none }

structure AssociationDraft where
  target : Option Reference := none
  role : Option String := none
  multiplicity : Multiplicity := .manyToOne
  label : Option String := none
  comment : Option String := none
  required : Bool := false
  primaryKey : Bool := false
  defaultValue : Option String := none

def multiplicities : List (String × Multiplicity) :=
  [.oneToOne, .manyToOne, .oneToMany, .manyToMany].map fun m => (m.word, m)

def withoutSpaces (s : String) : String := String.ofList (s.toList.filter (· != ' '))

def associationFields : Read.Fields AssociationDraft
  | "association" => some fun d => return { d with target := ← readReference }
  | "role" => some fun d => return { d with role := withoutSpaces (← Read.string) }
  | "type" => some fun d => return { d with multiplicity := ← Read.word multiplicities }
  | "label" => some fun d => return { d with label := ← Read.string }
  | "comment" => some fun d => return { d with comment := ← Read.string }
  | "required" => some fun d => return { d with required := ← Read.boolean }
  | "primaryKey" => some fun d => return { d with primaryKey := ← Read.boolean }
  | "defaultValue" => some fun d => return { d with defaultValue := ← Read.string }
  | _ => none

def readAssociation (location : Reference) : Read Property := do
  let start ← Read.current
  let d ← Read.fields "association" associationFields {}
  let target ← Read.require d.target "association" "association" start
  let comment ← Read.require d.comment "comment" s!"association to '{target.name}'" start
  return .association
    { label := d.label, comment, location, primaryKey := d.primaryKey, reference := target
      target := none, role := d.role, multiplicity := d.multiplicity
      required := d.required || d.primaryKey, defaultValue := d.defaultValue, givenName := none
      origin := none }

structure CompositionDraft where
  target : Option Reference := none
  name : Option String := none
  shape : Shape := .object
  domainKind : Option Reference := none
  label : Option String := none
  comment : Option String := none

def shapes : List (String × Shape) := [.object, .list].map fun s => (s.word, s)

def compositionFields : Read.Fields CompositionDraft
  | "composition" => some fun d => return { d with target := ← readReference }
  | "name" => some fun d => return { d with name := ← Read.string }
  | "kind" => some fun d => return { d with shape := ← Read.word shapes }
  | "domainKind" => some fun d => return { d with domainKind := ← readReference }
  | "label" => some fun d => return { d with label := ← Read.string }
  | "comment" => some fun d => return { d with comment := ← Read.string }
  | _ => none

def readComposition (location : Reference) : Read Property := do
  let start ← Read.current
  let d ← Read.fields "composition" compositionFields {}
  let target ← Read.require d.target "composition" "composition" start
  let name ← Read.require d.name "name" "composition" start
  let comment ← Read.require d.comment "comment" s!"composition '{name}'" start
  return .composition
    { name, label := d.label, comment, location, reference := target, target := none
      shape := d.shape, domainKindReference := d.domainKind, domainKind := none }

/-- The class of an alias, with the properties chosen from it. -/
structure SelectionDraft where
  target : Option Reference := none
  included : List Reference := []
  excluded : List Reference := []

structure Selection where
  target : Reference
  included : List Reference
  excluded : List Reference

def selectionFields : Read.Fields SelectionDraft
  | "class" => some fun d => return { d with target := ← readReference }
  | "include" | "property" =>
    some fun d => return { d with included := d.included ++ (← readReferences) }
  | "exclude" => some fun d => return { d with excluded := d.excluded ++ (← readReferences) }
  | _ => none

def readSelection : Read Selection := do
  let start ← Read.current
  let d ← Read.fields "alias reference" selectionFields {}
  let target ← Read.require d.target "class" "alias" start
  return { target, included := d.included, excluded := d.excluded }

structure AliasDraft where
  selection : Option Selection := none
  leading : String := ""
  trailing : String := ""
  label : Option String := none
  comment : Option String := none
  required : Option Bool := none
  listDomain : Option Reference := none

def aliasFields : Read.Fields AliasDraft
  | "alias" => some fun d => return { d with selection := ← readSelection }
  | "prefix" => some fun d => return { d with leading := ← Read.string }
  | "suffix" => some fun d => return { d with trailing := ← Read.string }
  | "label" => some fun d => return { d with label := ← Read.string }
  | "comment" => some fun d => return { d with comment := ← Read.string }
  | "required" => some fun d => return { d with required := ← Read.boolean }
  | "asListWithDomain" => some fun d => return { d with listDomain := ← readReference }
  | _ => none

def readPlaceholder (location : Reference) (slot : Nat) : Read Property := do
  let start ← Read.current
  let d ← Read.fields "alias" aliasFields {}
  let selection ← Read.require d.selection "alias" "alias" start
  return .alias
    { label := d.label, comment := d.comment, location, slot, reference := selection.target
      included := selection.included, excluded := selection.excluded, leading := d.leading
      trailing := d.trailing, required := d.required, listDomainReference := d.listDomain
      listDomain := none }

/-- The reader of a variant, by its leading key. -/
def variant? (slot : Nat) : String → Option (Reference → Read Property)
  | "name" => some readRegular
  | "association" => some readAssociation
  | "composition" => some readComposition
  | "alias" => some (readPlaceholder · slot)
  | _ => none

/-- Reads a property, the `slot`-th of its owner. -/
def readProperty (slot : Nat) : Read Property := do
  if !(← Read.check [.mappingStart]) then discard (Read.expect [.mappingStart])
  let leading ← Read.peek 1
  match variant? slot leading.value with
  | some read =>
    if leading.kind == .scalar then read (reference leading)
    else Read.reject (.unknownVariant leading.value) leading
  | none => Read.reject (.unknownVariant leading.value) leading

/-- Reads a sequence of properties behind the ones already read. -/
def readProperties (before : List Property) : Read (List Property) :=
  Read.eachItem (fun _ ps => return ps ++ [← readProperty ps.length]) before

end DataModel.Grammar
