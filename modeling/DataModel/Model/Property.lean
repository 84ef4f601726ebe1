import DataModel.Model.Reference

/-!
Properties of classes and endpoints. A property belongs to the entity whose list holds it. An
alias is a placeholder: resolving replaces it by copies of another class's properties, and every
copy remembers the placeholder it came from.
-/
namespace DataModel

inductive Multiplicity where
  | oneToOne | manyToOne | oneToMany | manyToMany
  deriving DecidableEq

def Multiplicity.word : Multiplicity → String
  | .oneToOne => "oneToOne"
  | .manyToOne => "manyToOne"
  | .oneToMany => "oneToMany"
  | .manyToMany => "manyToMany"

/-- The shape of a composed object. -/
inductive Shape where
  | object | list
  deriving DecidableEq

def Shape.word : Shape → String
  | .object => "object"
  | .list => "list"

/-- A placeholder for properties of another class. -/
structure Placeholder where
  label : Option String
  comment : Option String
  location : Reference
  /-- Its number among the declared properties of its owner. -/
  slot : Nat
  reference : Reference
  /-- The properties to copy, in order; empty for all of them. -/
  included : List Reference
  /-- The properties to leave out when all are copied. -/
  excluded : List Reference
  leading : String
  trailing : String
  required : Option Bool
  listDomainReference : Option Reference
  listDomain : Option Key
  deriving DecidableEq

/-- A value of a domain. -/
structure Regular where
  name : String
  label : Option String
  comment : String
  location : Reference
  primaryKey : Bool
  domainReference : Reference
  domain : Option Key
  unique : Bool
  required : Bool
  defaultValue : Option String
  origin : Option Placeholder
  deriving DecidableEq

/-- A link to the single primary key of another class. -/
structure Association where
  label : Option String
  comment : String
  location : Reference
  primaryKey : Bool
  reference : Reference
  target : Option Key
  role : Option String
  multiplicity : Multiplicity
  required : Bool
  defaultValue : Option String
  /-- The name that a copy was given; other associations have a derived one. -/
  givenName : Option String
  origin : Option Placeholder
  deriving DecidableEq

/-- An object of another class, or a list of them. -/
structure Composition where
  name : String
  label : Option String
  comment : String
  location : Reference
  reference : Reference
  target : Option Key
  shape : Shape
  domainKindReference : Option Reference
  domainKind : Option Key
  deriving DecidableEq

inductive Property where
  | regular (p : Regular)
  | association (p : Association)
  | composition (p : Composition)
  | alias (p : Placeholder)
  deriving DecidableEq

namespace Property

def location : Property → Reference
  | .regular p => p.location
  | .association p => p.location
  | .composition p => p.location
  | .alias p => p.location

/-- The placeholder that a copy was made for. -/
def origin? : Property → Option Placeholder
  | .regular p => p.origin
  | .association p => p.origin
  | .composition _ | .alias _ => none

def isPrimaryKey : Property → Bool
  | .regular p => p.primaryKey
  | .association p => p.primaryKey
  | .composition _ | .alias _ => false

/-- Regular properties and associations can be copied by an alias. -/
def isField : Property → Bool
  | .regular _ | .association _ => true
  | .composition _ | .alias _ => false

def isAlias : Property → Bool
  | .alias _ => true
  | _ => false

def alias? : Property → Option Placeholder
  | .alias p => some p
  | _ => none

end Property

/-- The name of a placeholder: that of its class between what a copy's name starts and ends with. -/
def Placeholder.name (p : Placeholder) : String := p.leading ++ p.reference.name ++ p.trailing

end DataModel
