import DataModel.Yaml.Event
import DataModel.Yaml.Tag

/-!
Documents: the nodes of a text with their tags. An alias is the node of its anchor, so nodes refer
to each other by number and may form circles.
-/
namespace DataModel.Yaml
open DataModel.Text

abbrev NodeId := Nat

inductive Content where
  | scalar (text : String)
  | sequence (items : List NodeId)
  | mapping (pairs : List (NodeId × NodeId))
  deriving DecidableEq

def Content.kind : Content → String
  | .scalar _ => "scalar"
  | .sequence _ => "sequence"
  | .mapping _ => "mapping"

structure Node where
  tag : String
  content : Content
  pos : Position
  deriving DecidableEq

structure Document where
  nodes : Array Node
  root : NodeId

/-- What is read and built so far. -/
structure Composition where
  events : List Event
  failure : Option Failure
  nodes : Array Node
  anchors : List (String × NodeId)

abbrev Compose := StateT Composition (Except Failure)

namespace Compose

def peek : Compose Event := do
  match (← get).events, (← get).failure with
  | e :: _, _ => return e
  | [], some failure => throw failure
  | [], none => return ⟨.streamEnd, .start⟩

def advance : Compose Unit := modify fun c => { c with events := c.events.tail }

/-- Adds a node under its anchor. -/
def add (node : Node) (anchor : Option String) : Compose NodeId := do
  let c ← get
  let id := c.nodes.size
  let anchors := match anchor with
    | some name => (name, id) :: c.anchors
    | none => c.anchors
  set { c with nodes := c.nodes.push node, anchors }
  return id

def fill (id : NodeId) (content : Content) : Compose Unit :=
  modify fun c => { c with nodes := c.nodes.modify id fun n => { n with content } }

def aliased (name : String) (e : Event) : Compose NodeId := do
  match (← get).anchors.lookup name with
  | some id => return id
  | none => throw (.fault ⟨none, .undefinedAnchor name, e.pos⟩)

/-- An anchor stands once in a document. -/
def checkAnchor (anchor : Option String) (e : Event) : Compose Unit := do
  match anchor with
  | none => return ()
  | some name =>
    let c ← get
    match (c.anchors.lookup name).bind fun id => c.nodes[id]? with
    | none => return ()
    | some first =>
      let what := s!"found duplicate anchor {quoted name}; first occurrence"
      throw (.fault ⟨some ⟨what, some first.pos⟩, .secondOccurrence, e.pos⟩)

/-- The tag that is written, or else the one that the content has by itself; a lone mark is no
tag. -/
def tagOr (d : Decoration) (own : String) : String :=
  match d.tag with
  | some tag => if tag == "!" then own else tag
  | none => own

/-- Reads items up to an end, which is consumed. -/
def until? (isEnd : Event.Kind → Bool) {α : Type} (item : Compose α) : Nat → Compose (List α)
  | 0 => return []
  | fuel + 1 => do
    if isEnd (← peek).kind then
      advance
      return []
    else
      let a ← item
      return a :: (← until? isEnd item fuel)

/-- Reads a node. `fuel` bounds its depth and the number of its parts. -/
def node : Nat → Compose NodeId
  | 0 => return 0
  | fuel + 1 => do
    let e ← peek
    match e.kind with
    | .alias name =>
      advance
      aliased name e
    | .scalar d text untyped =>
      checkAnchor d.anchor e
      advance
      let own := if untyped then Tag.ofText text else Tag.text
      add ⟨tagOr d own, .scalar text, e.pos⟩ d.anchor
    | .sequenceStart d =>
      checkAnchor d.anchor e
      advance
      let id ← add ⟨tagOr d Tag.sequence, .sequence [], e.pos⟩ d.anchor
      let items ← until? (· == .sequenceEnd) (node fuel) fuel
      fill id (.sequence items)
      return id
    | .mappingStart d =>
      checkAnchor d.anchor e
      advance
      let id ← add ⟨tagOr d Tag.mapping, .mapping [], e.pos⟩ d.anchor
      let pairs ← until? (· == .mappingEnd) (do return (← node fuel, ← node fuel)) fuel
      fill id (.mapping pairs)
      return id
    | _ => advance; return 0

/-- The first document of a stream; what comes after it is not read. -/
def document : Compose (Option NodeId) := do
  if (← peek).kind == .streamStart then advance
  if (← peek).kind == .streamEnd then return none
  advance
  let root ← node ((← get).events.length + 1)
  discard peek
  return some root

end Compose

/-- The first document of a text. -/
def Document.first? (text : String) : Except Failure (Option Document) := do
  let stream := EventStream.ofText text
  let (root, c) ← Compose.document.run ⟨stream.events, stream.failure, #[], []⟩
  return root.map fun root => ⟨c.nodes, root⟩

end DataModel.Yaml
