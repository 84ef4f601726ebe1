import DataModel.Grammar.Property
import DataModel.Model.Entity

/-!
The grammar of sections: classes, domains, decorators, endpoints and file aliases. A reader starts
on the section's mapping and ends behind it. What the section refers to stays a reference.
-/
namespace DataModel.Grammar
open DataModel.Source

structure ClassDraft where
  name : Option String := none
  comment : Option String := none
  label : Option String := none
  trigram : Option String := none
  pluralName : Option String := none
  orderProperty : Option String := none
  defaultProperty : Option String := none
  stereotype : Stereotype := .none
  isReference : Bool := false
  parent : Option Reference := none
  decorators : List Reference := []
  properties : List Property := []

def stereotypes : List (String × Stereotype) :=
  [.none, .static, .reference].map fun s => (s.word, s)

def classFields : Read.Fields ClassDraft
  | "name" => some fun d => return { d with name := ← Read.string }
  | "comment" => some fun d => return { d with comment := ← Read.string }
  | "label" => some fun d => return { d with label := ← Read.string }
  | "trigram" => some fun d => return { d with trigram := ← Read.string }
  | "pluralName" => some fun d => return { d with pluralName := ← Read.string }
  | "orderProperty" => some fun d => return { d with orderProperty := ← Read.string }
  | "defaultProperty" => some fun d => return { d with defaultProperty := ← Read.string }
  | "extends" => some fun d => return { d with parent := ← readReference }
  | "stereotype" => some fun d => return { d with stereotype := ← Read.word stereotypes }
  | "reference" => some fun d => return { d with isReference := ← Read.boolean }
  | "decorators" => some fun d => return { d with decorators := ← readReferences }
  | "properties" => some fun d => return { d with properties := ← readProperties d.properties }
  | _ => none

/-- A class with a stereotype is a reference class too. -/
def readClass : Read Class := do
  let start ← Read.current
  let d ← Read.fields "class" classFields {}
  let name ← Read.require d.name "name" "class" start
  let comment ← Read.require d.comment "comment" s!"class '{name}'" start
  return {
    name, comment, label := d.label, trigram := d.trigram, pluralName := d.pluralName
    stereotype := d.stereotype, isReference := d.isReference || d.stereotype != .none
    orderProperty := d.orderProperty, defaultProperty := d.defaultProperty
    parentReference := d.parent, parent := none, decoratorReferences := d.decorators
    decorators := [], properties := d.properties, home := none, location := none }

def domainLanguages : List String := ["csharp", "java", "ts", "sql"]

structure DomainTypeDraft where
  type : Option String := none
  imports : List String := []
  annotations : List String := []

def domainTypeFields : Read.Fields DomainTypeDraft
  | "type" => some fun d => return { d with type := ← Read.string }
  | "imports" => some fun d => return { d with imports := ← Read.strings }
  | "annotations" => some fun d => return { d with annotations := ← Read.strings }
  | _ => none

def readDomainType (language : String) : Read DomainType := do
  let start ← Read.current
  let within := s!"{language} domain implementation"
  let d ← Read.fields within domainTypeFields {}
  let type ← Read.require d.type "type" within start
  return { type, imports := d.imports, annotations := d.annotations }

def converterFields : Read.Fields Converter
  | "to" => some fun d => return { d with targetReferences := ← readReferences }
  | key =>
    if domainLanguages.contains key then
      some fun d => return { d with templates := d.templates.put key (← Read.string) }
    else none

/-- A converter has at least one target. -/
def readConverter : Read Converter := do
  let start ← Read.current
  let d ← Read.fields "domain converter" converterFields ⟨[], [], []⟩
  if d.targetReferences.isEmpty then
    Read.reject (.missingProperty "to" "domain converter") start
  else return d

structure DomainDraft where
  name : Option String := none
  label : Option String := none
  length : Option Int := none
  scale : Option Int := none
  mediaType : Option String := none
  implementations : Table DomainType := []
  converters : List Converter := []

def domainFields : Read.Fields DomainDraft
  | "name" => some fun d => return { d with name := ← Read.string }
  | "label" => some fun d => return { d with label := ← Read.string }
  | "length" => some fun d => return { d with length := ← Read.integer }
  | "scale" => some fun d => return { d with scale := ← Read.integer }
  | "mediaType" => some fun d => return { d with mediaType := ← Read.string }
  | "converters" => some fun d => do
    let converters ← Read.eachItem (fun _ cs => return cs ++ [← readConverter]) d.converters
    return { d with converters }
  | key =>
    if domainLanguages.contains key then
      some fun d => do
        let type ← readDomainType key
        return { d with implementations := d.implementations.put key type }
    else none

def readDomain : Read Domain := do
  let start ← Read.current
  let d ← Read.fields "domain" domainFields {}
  let name ← Read.require d.name "name" "domain" start
  return {
    name, label := d.label, length := d.length, scale := d.scale, mediaType := d.mediaType
    implementations := d.implementations, converters := d.converters, location := none }

def decoratorLanguages : List String := ["csharp", "java"]

def decoratorCodeFields : Read.Fields DecoratorCode
  | "annotations" => some fun d => return { d with annotations := ← Read.strings }
  | "imports" => some fun d => return { d with imports := ← Read.strings }
  | "extends" => some fun d => return { d with baseType := ← Read.string }
  | "implements" => some fun d => return { d with implements := ← Read.strings }
  | _ => none

def readDecoratorCode (language : String) : Read DecoratorCode :=
  Read.fields s!"{language} decorator implementation" decoratorCodeFields ⟨[], [], none, []⟩

structure DecoratorDraft where
  name : Option String := none
  description : Option String := none
  implementations : Table DecoratorCode := []

def decoratorFields : Read.Fields DecoratorDraft
  | "name" => some fun d => return { d with name := ← Read.string }
  | "description" => some fun d => return { d with description := ← Read.string }
  | key =>
    if decoratorLanguages.contains key then
      some fun d => do
        let code ← readDecoratorCode key
        return { d with implementations := d.implementations.put key code }
    else none

def readDecorator : Read Decorator := do
  let start ← Read.current
  let d ← Read.fields "decorator" decoratorFields {}
  let name ← Read.require d.name "name" "decorator" start
  return {
    name, description := d.description, implementations := d.implementations, location := none }

structure EndpointDraft where
  name : Option String := none
  route : Option String := none
  description : Option String := none
  method : Option String := none
  params : List Property := []
  returns : Option Property := none

def methods : List String := ["GET", "POST", "PUT", "DELETE", "PATCH"]

def readMethod : Read String := do
  let e ← Read.scalar
  if methods.contains e.value then return e.value
  else Read.reject (.unknownMethod e.value) e

def endpointFields : Read.Fields EndpointDraft
  | "name" => some fun d => return { d with name := ← Read.string }
  | "route" => some fun d => return { d with route := ← Read.string }
  | "description" => some fun d => return { d with description := ← Read.string }
  | "method" => some fun d => return { d with method := ← readMethod }
  | "params" => some fun d => return { d with params := ← readProperties d.params }
  | "returns" => some fun d => return { d with returns := ← readProperty 0 }
  | _ => none

def readEndpoint : Read Endpoint := do
  let start ← Read.current
  let d ← Read.fields "endpoint" endpointFields {}
  let name ← Read.require d.name "name" "endpoint" start
  let within := s!"endpoint '{name}'"
  let method ← Read.require d.method "method" within start
  let route ← Read.require d.route "route" within start
  return {
    name, method, route, description := d.description, params := d.params, returns := d.returns
    home := none, location := none }

structure FileAliasDraft where
  file : Option Reference := none
  classes : List Reference := []
  endpoints : List Reference := []

def fileAliasFields : Read.Fields FileAliasDraft
  | "file" => some fun d => return { d with file := ← readReference }
  | "classes" => some fun d => return { d with classes := ← readReferences }
  | "endpoints" => some fun d => return { d with endpoints := ← readReferences }
  | _ => none

def readFileAlias : Read FileAlias := do
  let start ← Read.current
  let d ← Read.fields "alias" fileAliasFields {}
  let file ← Read.require d.file "file" "alias" start
  return { file, classes := d.classes, endpoints := d.endpoints, location := none }

end DataModel.Grammar
