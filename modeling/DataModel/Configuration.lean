import DataModel.FileTree
import DataModel.Settings
import DataModel.Text.Utf8
import DataModel.Yaml.Value

/-!
The configuration file: a document whose mapping gives the settings of a model. Every field that
has no fitting value is reported, in the order of the fields; keys of other tools are left alone.
-/
namespace DataModel
open DataModel.Text

namespace Configuration

/-- Why a field is refused. -/
inductive Complaint where
  | missing
  | noText
  | textEncoding
  | noPath
  | noBoolean
  | booleanWord
  | noList
  | noCode
  deriving DecidableEq

def Complaint.kind : Complaint → String
  | .missing => "missing"
  | .noText => "string_type"
  | .textEncoding => "string_unicode"
  | .noPath => "path_type"
  | .noBoolean => "bool_type"
  | .booleanWord => "bool_parsing"
  | .noList => "list_type"
  | .noCode => "enum"

/-- All codes, as a choice. -/
def codeChoice : String :=
  let codes := Code.all.map fun c => s!"'{c.text}'"
  ", ".intercalate codes.dropLast ++ " or " ++ codes.getLast?.getD ""

def Complaint.message : Complaint → String
  | .missing => "Field required"
  | .noText => "Input should be a valid string"
  | .textEncoding => "Input should be a valid string, unable to parse raw data as a unicode string"
  | .noPath => "Input is not a valid path for <class 'pathlib.Path'>"
  | .noBoolean => "Input should be a valid boolean"
  | .booleanWord => "Input should be a valid boolean, unable to interpret input"
  | .noList => "Input should be a valid list"
  | .noCode => s!"Input should be {codeChoice}"

/-- A refused field, or a refused item of one. -/
structure Detail where
  field : String
  item : Option Nat
  complaint : Complaint
  deriving DecidableEq

inductive Fault where
  | notFound
  | unreadable (f : FileFault)
  | undecodable (f : Utf8.Fault)
  | malformed (text : String)
  | value (f : Yaml.ValueFault)
  | notMapping
  | invalid (details : List Detail)
  | path (f : PathFault)

/-- A fault of the file's own; the others come from what it refers to. -/
def Fault.isReported : Fault → Bool
  | .undecodable _ | .value _ | .path _ => false
  | _ => true

def Fault.message (path : Path) : Fault → String
  | .notFound => s!"Configuration file not found: {path.toString}"
  | .unreadable f => s!"Cannot read configuration file: {f.message}"
  | .undecodable f => f.message
  | .malformed text => s!"Invalid YAML in {path.toString}: {text}"
  | .value f => f.message
  | .notMapping => s!"{path.toString}: configuration must be a YAML mapping"
  | .invalid details =>
    let noun := if details.length == 1 then "error" else "errors"
    s!"Invalid configuration {path.toString}: {details.length} validation {noun} for ModelConfig"
  | .path f => f.message

/-- Line ends of all systems become line feeds. -/
def withLineFeeds : List Char → List Char
  | '\r' :: '\n' :: rest => '\n' :: withLineFeeds rest
  | '\r' :: rest => '\n' :: withLineFeeds rest
  | c :: rest => c :: withLineFeeds rest
  | [] => []

abbrev Checked (α : Type) := Except Complaint α

def asText : Yaml.Value → Checked String
  | .text s => .ok s
  | .bytes b => (Utf8.decode b).mapError fun _ => .textEncoding
  | _ => .error .noText

def asPath : Yaml.Value → Checked Path
  | .text s => .ok (.ofString s)
  | _ => .error .noPath

def trueWords : List String := ["1", "t", "y", "on", "yes", "true"]
def falseWords : List String := ["0", "f", "n", "no", "off", "false"]

def booleanWord (s : String) : Checked Bool :=
  let small := String.ofList (s.toList.map Char.toLower)
  if hasSurrogate s then .error .textEncoding
  else if trueWords.contains small then .ok true
  else if falseWords.contains small then .ok false
  else .error .booleanWord

/-- Numbers beyond this one are no whole numbers of a machine. -/
def wholeBound : Nat := Nat.pow 2 63

def booleanNumber (n : Int) : Checked Bool :=
  if n == 0 then .ok false
  else if n == 1 then .ok true
  else if -(wholeBound : Int) ≤ n && n < wholeBound then .error .booleanWord
  else .error .noBoolean

def asBoolean : Yaml.Value → Checked Bool
  | .boolean b => .ok b
  | .integer n => booleanNumber n
  | .number x =>
    let bound := Float.ofNat wholeBound
    if x == 0.0 then .ok false
    else if x == 1.0 then .ok true
    else if x.floor == x && -bound < x && x < bound then .error .booleanWord
    else .error .noBoolean
  | .text s => booleanWord s
  | .bytes b =>
    match Utf8.decode b with
    | .ok s => booleanWord s
    | .error _ => .error .booleanWord
  | _ => .error .noBoolean

/-- The members of a set, each once: a node is the same as itself, and as the nodes of its value. -/
def members (d : Yaml.Built) (keys : List Yaml.NodeId) : List Yaml.Value :=
  (keys.eraseDups.foldl (fun (found : List Yaml.Value) key =>
    let v := d.value key
    if found.any v.same then found else v :: found) []).reverse

/-- The text of an item, as far as it has one. -/
def textOf? : Yaml.Value → Option String
  | .text s => some s
  | _ => none

/-- The items of a list; those of a set come in falling order. -/
def asItems (d : Yaml.Built) : Yaml.Value → Checked (List (Option String))
  | .list items => .ok (items.map fun id => textOf? (d.value id))
  | .set keys =>
    let texts := (members d keys).map textOf?
    .ok (texts.mergeSort fun a b => b.getD "" ≤ a.getD "")
  | .tuples count => .ok (List.replicate count none)
  | _ => .error .noList

/-- The value of a key; of keys that come twice the last one counts. -/
def lookUp (d : Yaml.Built) (pairs : List (Yaml.NodeId × Yaml.NodeId)) (name : String) :
    Option Yaml.Value :=
  let pair? := pairs.reverse.find? fun (key, _) => textOf? (d.value key) == some name
  pair?.map fun (_, v) => d.value v

/-- The value of a field under the first of its names that is there. -/
def field? (d : Yaml.Built) (pairs : List (Yaml.NodeId × Yaml.NodeId)) (names : List String) :
    Option (String × Yaml.Value) :=
  names.findSome? fun n => (lookUp d pairs n).map fun v => (n, v)

/-- A field that need not be there. -/
def optional {α : Type} (found : Option (String × Yaml.Value)) (read : Yaml.Value → Checked α)
    (default : α) : Except (List Detail) α :=
  match found with
  | none => .ok default
  | some (name, v) => (read v).mapError fun c => [⟨name, none, c⟩]

def required {α : Type} (name : String) (found : Option (String × Yaml.Value))
    (read : Yaml.Value → Checked α) : Except (List Detail) α :=
  match found with
  | none => .error [⟨name, none, .missing⟩]
  | some (name, v) => (read v).mapError fun c => [⟨name, none, c⟩]

def asCode (item : Option String) : Checked Code :=
  match item.bind Code.ofText? with
  | some code => .ok code
  | none => .error (if item.any hasSurrogate then .textEncoding else .noCode)

def asCodes (name : String) (items : List (Option String)) : Except (List Detail) (List Code) :=
  let read := items.map asCode
  let wrong := read.zipIdx.filterMap fun
    | (.error c, i) => some ⟨name, some i, c⟩
    | (.ok _, _) => none
  if wrong.isEmpty then .ok (read.filterMap (·.toOption)) else .error wrong

/-- All fields, or everything that is wrong with them. -/
def ofPairs (d : Yaml.Built) (pairs : List (Yaml.NodeId × Yaml.NodeId)) :
    Except (List Detail) Settings :=
  let app := required "app" (field? d pairs ["app"]) asText
  let root := optional (field? d pairs ["modelRoot", "model_root"]) asPath (.ofString ".")
  let composite :=
    optional (field? d pairs ["allowCompositePrimaryKey", "allow_composite_primary_key"]) asBoolean
      false
  let nowarn := do asCodes "nowarn" (← optional (field? d pairs ["nowarn"]) (asItems d) [])
  match app, root, composite, nowarn with
  | .ok app, .ok modelRoot, .ok allowCompositeKeys, .ok nowarn =>
    .ok { app, modelRoot, allowCompositeKeys, nowarn }
  | app, root, composite, nowarn =>
    let details {α : Type} : Except (List Detail) α → List Detail
      | .error ds => ds
      | .ok _ => []
    .error (details app ++ details root ++ details composite ++ details nowarn)

def ofYaml (text : String) : Yaml.Failure → Fault
  | .fault f => .malformed (f.describe (charsOf text))
  | .unacceptable code index => .malformed (Yaml.unacceptableText code index)
  | .value f => .value f

/-- The settings that a text gives, with the model root as it is written. -/
def parse (text : String) : Except Fault Settings := do
  match ← (Yaml.Document.first? text).mapError (ofYaml text) with
  | none => throw .notMapping
  | some d =>
    let d ← d.build.mapError (ofYaml text)
    match d.value d.document.root with
    | .mapping pairs => (ofPairs d pairs).mapError .invalid
    | _ => throw .notMapping

/-- Why a file was not read, told of the path it is known by. -/
def notRead (path : Path) : FileFault → Fault
  | .system .missing _ | .time .missing => .notFound
  | .system cause _ | .time cause => .unreadable (.system cause path.toString)
  | .name f => .path (.name (path.nameFault?.getD f))

/-- The settings in a file. A relative model root starts at the directory of the file. -/
def load (t : FileTree) (current path : Path) : Except Fault Settings := do
  let bytes ← (t.read (path.under current)).mapError (notRead path)
  let text ← (Utf8.decode bytes).mapError .undecodable
  let settings ← parse (String.ofList (withLineFeeds text.toList))
  if settings.modelRoot.isAbsolute then return settings
  else
    let root ← (t.resolve current (settings.modelRoot.under path.parent)).mapError .path
    return { settings with modelRoot := root }

end Configuration
end DataModel
