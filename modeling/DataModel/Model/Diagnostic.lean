import DataModel.Model.Version

/-!
Diagnostics: what is wrong with a resolved model, or only untidy. The wording of each finding is
a template in which a mark stands for the name of the reference it is about.
-/
namespace DataModel

/-- The stable codes of diagnostics. -/
inductive Code where
  | missingFile | missingClass | missingDomain | missingProperty | missingEndpoint
  | missingDecorator | associationKey | compositeKey | circularDependency | duplicateProperty
  | unusedUse | unsortedUse
  deriving DecidableEq

def Code.text : Code → String
  | .missingFile => "TMD1001"
  | .missingClass => "TMD1002"
  | .missingDomain => "TMD1003"
  | .missingProperty => "TMD1004"
  | .missingEndpoint => "TMD1005"
  | .missingDecorator => "TMD1006"
  | .associationKey => "TMD1007"
  | .compositeKey => "TMD1008"
  | .circularDependency => "TMD1009"
  | .duplicateProperty => "TMD1010"
  | .unusedUse => "TMD9001"
  | .unsortedUse => "TMD9002"

def Code.all : List Code :=
  [.missingFile, .missingClass, .missingDomain, .missingProperty, .missingEndpoint,
    .missingDecorator, .associationKey, .compositeKey, .circularDependency, .duplicateProperty,
    .unusedUse, .unsortedUse]

def Code.ofText? (text : String) : Option Code := Code.all.find? (·.text == text)

/-- The element a diagnostic is about. -/
inductive Subject where
  | file (v : VersionId)
  | domain (k : Key)
  | class (k : Key)
  | property (p : Property)
  | fileAlias (a : FileAlias)
  deriving DecidableEq

structure Diagnostic where
  file : Option VersionId
  subject : Option Subject
  template : String
  reference : Option Reference
  code : Code
  isError : Bool
  deriving DecidableEq

/-- Replaces every mark `{0}` by a name. -/
def fillMarks (name : List Char) : List Char → List Char
  | '\x7b' :: '0' :: '\x7d' :: rest => name ++ fillMarks name rest
  | c :: rest => c :: fillMarks name rest
  | [] => []

namespace Diagnostic

def message (d : Diagnostic) : String :=
  match d.reference with
  | none => d.template
  | some r => String.ofList (fillMarks r.name.toList d.template.toList)

def line (d : Diagnostic) : Nat := (d.reference.map (·.line)).getD 0

def column (d : Diagnostic) : Nat := (d.reference.map (·.column)).getD 0

/-- A diagnostic on one line: where it is, what it says, and its code. -/
def text (d : Diagnostic) (m : Model) : String :=
  let path := ((d.file.bind m.file?).map (·.path)).getD "<model>"
  s!"{path}[{d.line},{d.column}] - {d.message} ({d.code.text})"

end Diagnostic

/-- What resolving can find. -/
inductive Finding where
  | missingFile
  | missingClass
  | missingDomain
  | missingDecorator
  | missingProperty (className : String)
  | associationKey
  | missingAliasFile
  | classNotInFile (file : String)
  | endpointNotInFile (file : String)
  | compositeKey (className : String) (keys : List String)
  | duplicateProperty (property className : String)
  | unusedUse
  | unsortedUse
  | circularDependency (names : List String)
  deriving DecidableEq

namespace Finding

def code : Finding → Code
  | .missingFile | .missingAliasFile => .missingFile
  | .missingClass | .classNotInFile _ => .missingClass
  | .missingDomain => .missingDomain
  | .missingDecorator => .missingDecorator
  | .missingProperty _ => .missingProperty
  | .associationKey => .associationKey
  | .endpointNotInFile _ => .missingEndpoint
  | .compositeKey .. => .compositeKey
  | .duplicateProperty .. => .duplicateProperty
  | .unusedUse => .unusedUse
  | .unsortedUse => .unsortedUse
  | .circularDependency _ => .circularDependency

/-- Untidy imports are warnings; everything else is an error. -/
def isError : Finding → Bool
  | .unusedUse | .unsortedUse => false
  | _ => true

def template : Finding → String
  | .missingFile => "The referenced file '\x7b0\x7d' cannot be found."
  | .missingClass => "Class '\x7b0\x7d' cannot be found in the file or its dependencies."
  | .missingDomain => "Domain '\x7b0\x7d' cannot be found."
  | .missingDecorator => "Decorator '\x7b0\x7d' cannot be found in the file or its dependencies."
  | .missingProperty className => s!"Property '\x7b0\x7d' cannot be found on class '{className}'."
  | .associationKey =>
    "Class '\x7b0\x7d' must have exactly one primary key to be the target of an association."
  | .missingAliasFile => "File '\x7b0\x7d' cannot be found in the dependencies of the file."
  | .classNotInFile file => s!"Class '\x7b0\x7d' cannot be found in file '{file}'."
  | .endpointNotInFile file => s!"Endpoint '\x7b0\x7d' cannot be found in file '{file}'."
  | .compositeKey className keys =>
    let names := ", ".intercalate keys
    s!"Class '{className}' must have a single primary key ({names} found)."
  | .duplicateProperty property className =>
    s!"Property '{property}' is declared more than once in class '{className}'."
  | .unusedUse => "Import '\x7b0\x7d' is not used."
  | .unsortedUse => "Import '\x7b0\x7d' is out of order."
  | .circularDependency names =>
    let path := " -> ".intercalate names
    s!"Circular dependency between model files: {path}."

def diagnostic (f : Finding) (file : VersionId) (subject : Subject)
    (reference : Option Reference) : Diagnostic :=
  { file, subject, template := f.template, reference, code := f.code, isError := f.isError }

end Finding
end DataModel
