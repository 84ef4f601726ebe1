import DataModel.Model.Property
import DataModel.Table

/-!
What a model file declares: domains, decorators, classes, endpoints, and aliases that re-export
classes and endpoints of other files.
-/
namespace DataModel

/-- The application and the module that an entity is generated into. -/
structure Namespace where
  app : String
  module : String
  deriving DecidableEq

inductive Stereotype where
  | none | static | reference
  deriving DecidableEq

def Stereotype.word : Stereotype → String
  | .none => "None"
  | .static => "Static"
  | .reference => "Reference"

/-- The type of a domain in one language. -/
structure DomainType where
  type : String
  imports : List String
  annotations : List String
  deriving DecidableEq

/-- How values of a domain become values of other domains. -/
structure Converter where
  targetReferences : List Reference
  targets : List Key
  templates : Table String
  deriving DecidableEq

structure Domain where
  name : String
  label : Option String
  length : Option Int
  scale : Option Int
  mediaType : Option String
  implementations : Table DomainType
  converters : List Converter
  location : Option Reference
  deriving DecidableEq

/-- What a decorator adds to a class in one language. -/
structure DecoratorCode where
  annotations : List String
  imports : List String
  baseType : Option String
  implements : List String
  deriving DecidableEq

structure Decorator where
  name : String
  description : Option String
  implementations : Table DecoratorCode
  location : Option Reference
  deriving DecidableEq

structure Class where
  name : String
  comment : String
  label : Option String
  trigram : Option String
  pluralName : Option String
  stereotype : Stereotype
  isReference : Bool
  orderProperty : Option String
  defaultProperty : Option String
  parentReference : Option Reference
  parent : Option Key
  decoratorReferences : List Reference
  decorators : List Key
  properties : List Property
  home : Option Namespace
  location : Option Reference
  deriving DecidableEq

def Class.primaryKeys (c : Class) : List Property := c.properties.filter (·.isPrimaryKey)

structure Endpoint where
  name : String
  method : String
  route : String
  description : Option String
  params : List Property
  returns : Option Property
  home : Option Namespace
  location : Option Reference
  deriving DecidableEq

/-- Parameters and return value together. -/
def Endpoint.properties (e : Endpoint) : List Property := e.params ++ e.returns.toList

/-- Re-exports of another file's classes and endpoints. -/
structure FileAlias where
  file : Reference
  classes : List Reference
  endpoints : List Reference
  location : Option Reference
  deriving DecidableEq

/-- Everything loaded from one model file. -/
structure ModelFile where
  name : String
  path : String
  module : String
  source : String
  tags : List String
  uses : List Reference
  domains : List Domain
  decorators : List Decorator
  classes : List Class
  endpoints : List Endpoint
  aliases : List FileAlias
  deriving DecidableEq

end DataModel
