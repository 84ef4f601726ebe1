import DataModel.Text.Base64
import DataModel.Text.Case
import DataModel.Text.Number
import DataModel.Text.Quotient
import DataModel.Yaml.Calendar
import DataModel.Yaml.Node

/-!
The values of nodes, by their tags. Building a value goes breadth first: a collection's parts are
built after the collections met before it. Merge keys bring in the pairs of other mappings, which
stand before the mapping's own, so that the own ones win.
-/
namespace DataModel.Yaml
open DataModel.Text

/-- A value. Collections refer to their parts by node. -/
inductive Value where
  | null
  | boolean (b : Bool)
  | integer (n : Int)
  | number (x : Float)
  | text (s : String)
  | bytes (b : List UInt8)
  | time (t : Timestamp)
  | list (items : List NodeId)
  /-- A list of pairs. -/
  | tuples (count : Nat)
  | mapping (pairs : List (NodeId × NodeId))
  | set (keys : List NodeId)

namespace Value

/-- The whole number that a number of any type is. -/
def whole? : Value → Option Int
  | .boolean b => some b.toNat
  | .integer n => some n
  | .number x =>
    match Quotient.ofFloat? x with
    | some q => if q.isWhole then some (if x < 0.0 then -(q.whole : Int) else q.whole) else none
    | none => none
  | _ => none

/-- Whether two values are the same key. Numbers are, whatever their types, if they are equal; what
is not a number is no key twice. -/
def same : Value → Value → Bool
  | .null, .null => true
  | .text s, .text t => s == t
  | .bytes b, .bytes c => b == c
  | .time t, .time u => t.same u
  | v, w =>
    match v.whole?, w.whole?, v, w with
    | some m, some n, _, _ => m == n
    | none, none, .number x, .number y => x == y
    | _, _, _, _ => false

end Value

namespace Scalar

def refuse {α : Type} (f : ValueFault) : Except Failure α := .error (.value f)

def isTrueWord (s : String) : Option Bool :=
  if s == "yes" || s == "true" || s == "on" then some true
  else if s == "no" || s == "false" || s == "off" then some false
  else none

def boolean (text : String) : Except Failure Value :=
  let small := lower text
  match isTrueWord small with
  | some b => .ok (.boolean b)
  | none => refuse (.boolean small)

def withoutGaps (text : String) : List Char := text.toList.filter (· != '_')

/-- The sign of a number and what follows it. -/
def signed : List Char → Bool × List Char
  | '-' :: rest => (true, rest)
  | '+' :: rest => (false, rest)
  | rest => (false, rest)

def splitAtColons (text : List Char) : List (List Char) :=
  text.foldr (fun c parts =>
    if c == ':' then [] :: parts
    else match parts with
      | [] => [[c]]
      | p :: ps => (c :: p) :: ps) [[]]

def integerIn (base : Nat) (text : List Char) : Except Failure Int :=
  match readInteger base (String.ofList text) with
  | .ok n => .ok n
  | .error f => refuse (.integer base (String.ofList text) f)

/-- A whole number without its sign: binary, hexadecimal, octal, in sixtieths, or decimal. -/
def magnitude (text : List Char) : Except Failure Int :=
  match text with
  | [] => refuse .noDigits
  | ['0'] => .ok 0
  | '0' :: 'b' :: rest => integerIn 2 rest
  | '0' :: 'x' :: rest => integerIn 16 rest
  | '0' :: _ => integerIn 8 text
  | _ =>
    if text.contains ':' then do
      let parts ← (splitAtColons text).mapM (integerIn 10)
      return parts.foldl (fun n part => n * 60 + part) 0
    else integerIn 10 text

def integer (text : String) : Except Failure Value := do
  let body := withoutGaps text
  if body.isEmpty then refuse .noDigits
  let (negative, body) := signed body
  let n ← magnitude body
  return .integer (if negative then -n else n)

def numberOf (text : List Char) : Except Failure Float :=
  match readNumber (String.ofList text) with
  | some x => .ok x
  | none => refuse (.number (String.ofList text))

/-- How much the part counts that has so many parts behind it. -/
def weight (i : Nat) : Except Failure Float :=
  let x := Float.ofNat (Nat.pow 60 i)
  if x.isInf then refuse .numberSize else .ok x

/-- The sum of parts that each count sixty times the next, the last part first. -/
def sixtieths (parts : List Float) : Except Failure Float :=
  parts.zipIdx.foldlM (fun sum (part, i) => return sum + part * (← weight i)) 0.0

def number (text : String) : Except Failure Value := do
  let body := (lower (String.ofList (withoutGaps text))).toList
  if body.isEmpty then refuse .noDigits
  let (negative, body) := signed body
  let x ←
    if body == ".inf".toList then pure (1.0 / 0.0)
    else if body == ".nan".toList then pure (0.0 / 0.0)
    else if body.contains ':' then do
      let parts ← (splitAtColons body).mapM numberOf
      sixtieths parts.reverse
    else numberOf body
  return .number (if negative then -x else x)

/-- Why a text is not of plain characters only: the first run of others. -/
def notAscii? (text : List Nat) : Option String :=
  match text.findIdx? (0x7f < ·) with
  | none => none
  | some start =>
    let run := (text.drop start).takeWhile (0x7f < ·)
    let what :=
      match run with
      | [code] =>
        let escape := if code < 0x100 then "\\x" ++ hex 2 code
          else if code < 0x10000 then "\\u" ++ hex 4 code
          else "\\U" ++ hex 8 code
        s!"character '{escape}' in position {start}"
      | _ => s!"characters in position {start}-{start + run.length - 1}"
    some s!"'ascii' codec can't encode {what}: ordinal not in range(128)"

def binary (text : String) (pos : Position) : Except Failure Value :=
  match notAscii? (codes text) with
  | some reason => .error (.fault ⟨none, .notAscii reason, pos⟩)
  | none =>
    match Base64.decode text with
    | .ok bytes => .ok (.bytes bytes)
    | .error f => .error (.fault ⟨none, .badBase64 f.message, pos⟩)

def timestamp (text : String) : Except Failure Value :=
  match Timestamp.parts? (withoutFinalBreak text.toList) with
  | none => refuse .noTime
  | some t =>
    match t.check with
    | .ok () => .ok (.time t)
    | .error f => refuse (.calendar f)

end Scalar

namespace Document

def node? (d : Document) (id : NodeId) : Option Node := d.nodes[id]?

def contentOf (d : Document) (id : NodeId) : Content :=
  ((d.node? id).map (·.content)).getD (.scalar "")

def posOf (d : Document) (id : NodeId) : Position := ((d.node? id).map (·.pos)).getD .start

def tagOf (d : Document) (id : NodeId) : String := ((d.node? id).map (·.tag)).getD ""

def fail {α : Type} (d : Document) (problem : Problem) (at' : NodeId) : Except Failure α :=
  .error (.fault ⟨none, problem, d.posOf at'⟩)

def failIn {α : Type} (d : Document) (what : String) (within : NodeId) (problem : Problem)
    (at' : NodeId) : Except Failure α :=
  .error (.fault ⟨some ⟨what, some (d.posOf within)⟩, problem, d.posOf at'⟩)

/-- The text of a node. A mapping has the text of its value key. -/
def textOf (d : Document) : Nat → NodeId → Except Failure String
  | 0, id => d.fail (.wrongNode "a scalar node" (d.contentOf id).kind) id
  | fuel + 1, id =>
    match d.contentOf id with
    | .scalar text => .ok text
    | .sequence _ => d.fail (.wrongNode "a scalar node" "sequence") id
    | .mapping pairs =>
      match pairs.find? fun p => d.tagOf p.1 == Tag.value with
      | some (_, v) => d.textOf fuel v
      | none => d.fail (.wrongNode "a scalar node" "mapping") id

def text (d : Document) (id : NodeId) : Except Failure String := d.textOf (d.nodes.size + 1) id

/-- The tags of collections, which are built later than they are met. -/
def collectionTags : List String :=
  [Tag.orderedMap, Tag.pairs, Tag.set, Tag.sequence, Tag.mapping]

def isCollection (d : Document) (id : NodeId) : Bool := collectionTags.contains (d.tagOf id)

/-- The value of a node that is no collection by its tag. -/
def scalarValue (d : Document) (id : NodeId) : Except Failure Value := do
  let tag := d.tagOf id
  if tag == Tag.null then
    discard (d.text id)
    return .null
  else if tag == Tag.boolean then Scalar.boolean (← d.text id)
  else if tag == Tag.integer then Scalar.integer (← d.text id)
  else if tag == Tag.number then Scalar.number (← d.text id)
  else if tag == Tag.binary then Scalar.binary (← d.text id) (d.posOf id)
  else if tag == Tag.timestamp then
    let text ← d.text id
    match d.contentOf id with
    | .scalar _ => Scalar.timestamp text
    | _ => Scalar.refuse .timeOfMapping
  else if tag == Tag.text then return .text (← d.text id)
  else d.fail (.unknownTag tag) id

/-- The shallow value of a collection; its parts are nodes. -/
def collection (d : Document) (id : NodeId) : Value :=
  let tag := d.tagOf id
  match d.contentOf id with
  | .sequence items => if tag == Tag.sequence then .list items else .tuples items.length
  | .mapping pairs => if tag == Tag.set then .set (pairs.map (·.1)) else .mapping pairs
  | .scalar _ => .null

def setPairs (d : Document) (id : NodeId) (pairs : List (NodeId × NodeId)) : Document :=
  { d with nodes := d.nodes.modify id fun n => { n with content := .mapping pairs } }

def pairsOf (d : Document) (id : NodeId) : List (NodeId × NodeId) :=
  match d.contentOf id with
  | .mapping pairs => pairs
  | _ => []

/-- Value keys are texts once their mapping is read as a mapping. -/
def valueKeysAsTexts (d : Document) (id : NodeId) : Document :=
  (d.pairsOf id).foldl (fun d (key, _) =>
    if d.tagOf key == Tag.value then
      { d with nodes := d.nodes.modify key fun n => { n with tag := Tag.text } }
    else d) d

/-- The first pair with a merge key, and the pairs without it. -/
def takeMerge (d : Document) : List (NodeId × NodeId) →
    Option (NodeId × List (NodeId × NodeId))
  | [] => none
  | (k, v) :: rest =>
    if d.tagOf k == Tag.merge then some (v, rest)
    else (d.takeMerge rest).map fun (w, others) => (w, (k, v) :: others)

def mergeCount (d : Document) : Nat :=
  (d.nodes.toList.map fun n =>
    match n.content with
    | .mapping pairs => (pairs.filter fun p => d.tagOf p.1 == Tag.merge).length
    | _ => 0).foldl (· + ·) 0

def merging : String := "while constructing a mapping"

/-- Merges what the merge keys of a mapping name into it; `merged` are the pairs collected so far.
Every step takes a merge key away, so `fuel` is more than their number. -/
def flattenFrom : Nat → NodeId → List (NodeId × NodeId) → Document → Except Failure Document
  | 0, _, _, d => .ok d
  | fuel + 1, id, merged, d =>
    let d := d.valueKeysAsTexts id
    match d.takeMerge (d.pairsOf id) with
    | none =>
      .ok (if merged.isEmpty then d else d.setPairs id (merged ++ d.pairsOf id))
    | some (v, others) =>
      let d := d.setPairs id others
      match d.contentOf v with
      | .mapping _ => do
        let d ← flattenFrom fuel v [] d
        flattenFrom fuel id (merged ++ d.pairsOf v) d
      | .sequence items => do
        let (d, groups) ← items.foldlM (fun (d, groups) item =>
          match d.contentOf item with
          | .mapping _ => do
            let d ← flattenFrom fuel item [] d
            return (d, d.pairsOf item :: groups)
          | other => d.failIn merging id
              (.wrongNode "a mapping for merging" other.kind) item) (d, [])
        flattenFrom fuel id (merged ++ groups.flatten) d
      | .scalar _ =>
        d.failIn merging id (.wrongNode "a mapping or list of mappings for merging" "scalar") v

def flatten (d : Document) (id : NodeId) : Except Failure Document :=
  flattenFrom (d.mergeCount + 1) id [] d

end Document

/-- A document whose nodes have their values. A scalar keeps the value it had when it was met, even
if its type changes later. -/
structure Built where
  document : Document
  scalars : List (NodeId × Value)

def Built.value (b : Built) (id : NodeId) : Value :=
  (b.scalars.lookup id).getD (b.document.collection id)

/-- The nodes met so far, and the collections among them whose parts are not built yet. -/
structure Building extends Built where
  met : List NodeId
  waiting : List NodeId

abbrev Build := StateT Building (Except Failure)

namespace Build

def check (f : Document → Except Failure Unit) : Build Unit := do
  let b ← get
  StateT.lift (f b.document)

/-- Meets a node: a scalar is built at once. -/
def meet (id : NodeId) : Build Unit := do
  let b ← get
  if !b.met.contains id then
    if b.document.isCollection id then
      set { b with met := id :: b.met, waiting := b.waiting ++ [id] }
    else
      let v ← StateT.lift (b.document.scalarValue id)
      set { b with met := id :: b.met, scalars := (id, v) :: b.scalars }

def meetAll (ids : List NodeId) : Build Unit := ids.forM meet

/-- The parts of a mapping, pair by pair. A collection is no key. -/
def mappingParts (id : NodeId) : Build Unit := do
  let b ← get
  match b.document.contentOf id with
  | .mapping _ =>
    let d ← StateT.lift (b.document.flatten id)
    set { b with document := d }
    (d.pairsOf id).forM fun (key, value) => do
      meet key
      if d.isCollection key then check fun d => d.failIn Document.merging id .unhashableKey key
      meet value
  | other => check fun d => d.fail (.wrongNode "a mapping node" other.kind) id

def sequenceParts (id : NodeId) : Build Unit := do
  match (← get).document.contentOf id with
  | .sequence items => meetAll items
  | other => check fun d => d.fail (.wrongNode "a sequence node" other.kind) id

/-- The parts of a sequence of mappings with one pair each. -/
def pairParts (what : String) (id : NodeId) : Build Unit := do
  match (← get).document.contentOf id with
  | .sequence items =>
    items.forM fun item => do
      match (← get).document.contentOf item with
      | .mapping [(key, value)] =>
        meet key
        meet value
      | .mapping pairs => check fun d => d.failIn what id (.itemCount pairs.length) item
      | other =>
        check fun d => d.failIn what id (.wrongNode "a mapping of length 1" other.kind) item
  | other => check fun d => d.failIn what id (.wrongNode "a sequence" other.kind) id

def parts (id : NodeId) : Build Unit := do
  let tag := (← get).document.tagOf id
  if tag == Tag.sequence then sequenceParts id
  else if tag == Tag.orderedMap then pairParts "while constructing an ordered map" id
  else if tag == Tag.pairs then pairParts "while constructing pairs" id
  else mappingParts id

/-- Builds what waits, each collection once. -/
def buildWaiting : Nat → Build Unit
  | 0 => return ()
  | fuel + 1 => do
    let b ← get
    match b.waiting with
    | [] => return ()
    | id :: waiting =>
      set { b with waiting }
      parts id
      buildWaiting fuel

end Build

/-- The document with all merges made, if every node of it has a value. -/
def Document.build (d : Document) : Except Failure Built :=
  let all : Build Unit := do
    Build.meet d.root
    Build.buildWaiting (d.nodes.size + 1)
  (StateT.run all ⟨⟨d, []⟩, [], []⟩).map fun r => r.2.toBuilt

end DataModel.Yaml
