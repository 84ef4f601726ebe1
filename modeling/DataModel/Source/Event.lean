import DataModel.Yaml.Event

/-!
The structure of a model file, flat: boundaries of documents, mappings and sequences, and the
scalars between them, each with its line and column counted from one. A model file uses no
aliases; anchors and tags say nothing in it.
-/
namespace DataModel.Source
open DataModel.Text

inductive Event.Kind where
  | streamStart | streamEnd
  | documentStart | documentEnd
  | mappingStart | mappingEnd
  | sequenceStart | sequenceEnd
  | scalar
  deriving DecidableEq, Inhabited

def Event.Kind.name : Event.Kind → String
  | .streamStart => "stream start"
  | .streamEnd => "stream end"
  | .documentStart => "document start"
  | .documentEnd => "document end"
  | .mappingStart => "mapping start"
  | .mappingEnd => "mapping end"
  | .sequenceStart => "sequence start"
  | .sequenceEnd => "sequence end"
  | .scalar => "scalar"

def Event.Kind.all : List Event.Kind :=
  [.streamStart, .streamEnd, .documentStart, .documentEnd, .mappingStart, .mappingEnd,
    .sequenceStart, .sequenceEnd, .scalar]

structure Event where
  kind : Event.Kind
  /-- The text of a scalar; empty for everything else. -/
  value : String
  line : Nat
  column : Nat
  deriving DecidableEq, Inhabited

def Event.describe (e : Event) : String :=
  match e.kind with
  | .scalar => s!"scalar {quoted e.value}"
  | kind => kind.name

/-- Why a model file is refused. -/
inductive Problem where
  | malformed (text : String)
  | aliasUsed
  | invalidByte (byte : UInt8)
  | unexpected (kinds : List Event.Kind) (found : Event)
  | notBoolean (text : String)
  | notInteger (text : String)
  | notAllowed (text : String) (allowed : List String)
  | unknownMethod (text : String)
  | unknownVariant (text : String)
  | unknownProperty (key : String) (within : String)
  | missingProperty (key : String) (within : String)
  | unknownSection (key : String)
  /-- Reading makes no headway. -/
  | endless
  deriving DecidableEq

def Problem.text : Problem → String
  | .malformed text => text
  | .aliasUsed => "YAML aliases are not supported in model files"
  | .invalidByte byte => s!"Invalid UTF-8 byte 0x{hex 2 byte.toNat}"
  | .unexpected kinds found =>
    let expected := ", ".intercalate (kinds.map (·.name))
    s!"Expected {expected}, got {found.describe}"
  | .notBoolean text => s!"Expected 'true' or 'false', got {quoted text}"
  | .notInteger text => s!"Expected an integer, got {quoted text}"
  | .notAllowed text allowed =>
    let values := ", ".intercalate (allowed.map quoted)
    s!"Invalid value {quoted text}, expected one of {values}"
  | .unknownMethod text => s!"Unsupported HTTP method {quoted text}"
  | .unknownVariant text => s!"Unknown property kind {quoted text}"
  | .unknownProperty key within => s!"Unknown property '{key}' in {within}"
  | .missingProperty key within => s!"Missing required property '{key}' in {within}"
  | .unknownSection key => s!"Unknown document type '{key}'"
  | .endless => "Reading does not end"

/-- The key that a problem is about. -/
def Problem.key? : Problem → Option String
  | .unknownProperty key _ | .missingProperty key _ | .unknownSection key => some key
  | _ => none

/-- A problem at a place of a model file. -/
structure Rejection where
  problem : Problem
  line : Nat
  column : Nat
  deriving DecidableEq

def Rejection.message (r : Rejection) : String :=
  s!"Line {r.line}, column {r.column}: {r.problem.text}"

def Rejection.at (problem : Problem) (e : Event) : Rejection := ⟨problem, e.line, e.column⟩

/-- Why a text gives no events: it is refused, or it names a value that does not exist. -/
inductive Failure where
  | rejected (r : Rejection)
  | value (f : Yaml.ValueFault)
  deriving DecidableEq

def Failure.message : Failure → String
  | .rejected r => r.message
  | .value f => f.message

def Failure.ofYaml : Yaml.Failure → Failure
  | .fault f => .rejected ⟨.malformed f.problem.text, f.pos.line + 1, f.pos.column + 1⟩
  | .unacceptable code index => .rejected ⟨.malformed (Yaml.unacceptableText code index), 1, 1⟩
  | .value f => .value f

/-- The kind and the text of an event; an alias has none. -/
def content? : Yaml.Event.Kind → Option (Event.Kind × String)
  | .streamStart => some (.streamStart, "")
  | .streamEnd => some (.streamEnd, "")
  | .documentStart => some (.documentStart, "")
  | .documentEnd => some (.documentEnd, "")
  | .alias _ => none
  | .scalar _ text _ => some (.scalar, text)
  | .sequenceStart _ => some (.sequenceStart, "")
  | .sequenceEnd => some (.sequenceEnd, "")
  | .mappingStart _ => some (.mappingStart, "")
  | .mappingEnd => some (.mappingEnd, "")

def Event.ofYaml (e : Yaml.Event) : Except Failure Event :=
  match content? e.kind with
  | some (kind, value) => .ok ⟨kind, value, e.pos.line + 1, e.pos.column + 1⟩
  | none => .error (.rejected ⟨.aliasUsed, e.pos.line + 1, e.pos.column + 1⟩)

/-- The events of a model file. The first fault in the text decides, an alias included. -/
def events (text : String) : Except Failure (List Event) := do
  let stream := Yaml.EventStream.ofText text
  let events ← stream.events.mapM Event.ofYaml
  match stream.failure with
  | none => return events
  | some failure => throw (.ofYaml failure)

end DataModel.Source
