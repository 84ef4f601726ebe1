import DataModel.Yaml.Token.Stream

/-!
Events: the nesting of a text's tokens, written flat. An automaton with a stack of expectations
reads tokens and emits one event a step, so the events before a failure are known.
-/
namespace DataModel.Yaml
open DataModel.Text

/-- What a node carries besides its content. -/
structure Decoration where
  anchor : Option String
  tag : Option String
  deriving DecidableEq

def Decoration.none : Decoration := ⟨Option.none, Option.none⟩

inductive Event.Kind where
  | streamStart | streamEnd
  | documentStart | documentEnd
  | alias (name : String)
  /-- `untyped` tells that the text decides the type of the scalar. -/
  | scalar (d : Decoration) (text : String) (untyped : Bool)
  | sequenceStart (d : Decoration)
  | sequenceEnd
  | mappingStart (d : Decoration)
  | mappingEnd
  deriving DecidableEq

structure Event where
  kind : Event.Kind
  pos : Position
  deriving DecidableEq

/-- What the automaton reads next. Positions are those of the collection's start, for messages. -/
inductive Expectation where
  | firstDocument
  | document
  | documentEnd
  | documentContent
  | node
  | blockEntry (since : Position)
  | indentlessEntry
  | blockKey (since : Position)
  | blockValue (since : Position)
  | flowEntry (since : Position) (first : Bool)
  | pairKey (finish : Position)
  | pairValue
  | pairEnd
  | flowKey (since : Position) (first : Bool)
  | flowValue (since : Position)
  | flowNoValue (since : Position)
  deriving DecidableEq

/-- The handles of tags that need no directive. -/
def defaultHandles : List (String × String) := [("!", "!"), ("!!", "tag:yaml.org,2002:")]

/-- The tokens still to read, and what comes after the last of them. -/
structure TokenReader where
  tokens : List Token
  failure : Option Failure
  handles : List (String × String)

abbrev Parse := StateT TokenReader (Except Failure)

/-- An event, and what has to be read before the expectations below. -/
abbrev Step := Event × List Expectation

namespace Parse

/-- The token that comes next. After the last token comes the failure that ended the text. -/
def peek : Parse Token := do
  match (← get).tokens, (← get).failure with
  | t :: _, _ => return t
  | [], some failure => throw failure
  | [], none => return ⟨.streamEnd, .start, .start⟩

def advance : Parse Unit := modify fun r => { r with tokens := r.tokens.tail }

def nextIs (p : Token.Kind → Bool) : Parse Bool := return p (← peek).kind

def unexpected {α} (what : String) (since : Option Position) (needed verb : String) : Parse α := do
  let t ← peek
  throw (.fault ⟨since.map fun p => ⟨what, p⟩, .unexpectedToken needed verb t.kind.label, t.start⟩)

def emptyScalar (pos : Position) : Event := ⟨.scalar .none "" true, pos⟩

/-- The full tag of a tag text. -/
def expandTag (since : Position) (t : Token) (text : TagText) : Parse String := do
  match text.handle with
  | none => return text.suffix
  | some handle =>
    match (← get).handles.lookup handle with
    | some leading => return leading ++ text.suffix
    | none =>
      throw (.fault ⟨some ⟨"while parsing a node", since⟩, .undefinedHandle handle, t.start⟩)

def anchorHere : Parse (Option String) := do
  match (← peek).kind with
  | .anchor name => advance; return some name
  | _ => return none

def tagHere : Parse (Option (Token × TagText)) := do
  let t ← peek
  match t.kind with
  | .tag text => advance; return some (t, text)
  | _ => return none

/-- The anchor and the tag before a node, in either order. -/
def decoration : Parse Decoration := do
  let start := (← peek).start
  let first ← anchorHere
  let tag ← tagHere
  let anchor ← if first.isNone && tag.isSome then anchorHere else pure first
  let tag ← tag.mapM fun (t, text) => expandTag start t text
  return ⟨anchor, tag⟩

/-- The content of a node after its decoration, which starts at the node's first token. -/
def content (block indentless : Bool) (start : Position) (d : Decoration) : Parse Step := do
  let t ← peek
  let free := d.tag.isNone || d.tag == some "!"
  match t.kind with
  | .blockEntry =>
    if indentless then return (⟨.sequenceStart d, start⟩, [.indentlessEntry])
  | .scalar text plain =>
    advance
    return (⟨.scalar d text ((plain && d.tag.isNone) || d.tag == some "!"), start⟩, [])
  | .flowSequenceStart =>
    advance
    return (⟨.sequenceStart d, start⟩, [.flowEntry t.start true])
  | .flowMappingStart =>
    advance
    return (⟨.mappingStart d, start⟩, [.flowKey t.start true])
  | .blockSequenceStart =>
    if block then
      advance
      return (⟨.sequenceStart d, start⟩, [.blockEntry t.start])
  | .blockMappingStart =>
    if block then
      advance
      return (⟨.mappingStart d, start⟩, [.blockKey t.start])
  | _ => pure ()
  if d.anchor.isSome || d.tag.isSome then return (⟨.scalar d "" free, start⟩, [])
  else
    let style := if block then "block" else "flow"
    unexpected s!"while parsing a {style} node" start "the node content" "found"

/-- The first event of a node. -/
def node (block indentless : Bool) : Parse Step := do
  let t ← peek
  match t.kind with
  | .alias name => advance; return (⟨.alias name, t.start⟩, [])
  | _ =>
    let d ← decoration
    content block indentless t.start d

/-- Reads the directives before a document: at most one version, distinct handles. -/
def directives : List Token → Bool → List (String × String) →
    Except Failure (List Token × List (String × String))
  | [], _, handles => .ok ([], handles)
  | t :: rest, versioned, handles =>
    match t.kind with
    | .directive (.version major _) =>
      if versioned then .error (.fault ⟨none, .duplicateVersion, t.start⟩)
      else if major != 1 then .error (.fault ⟨none, .incompatibleVersion, t.start⟩)
      else directives rest true handles
    | .directive (.handle handle leading) =>
      if (handles.lookup handle).isSome then
        .error (.fault ⟨none, .duplicateHandle handle, t.start⟩)
      else directives rest versioned ((handle, leading) :: handles)
    | .directive (.other _) => directives rest versioned handles
    | _ => .ok (t :: rest, handles)

def explicitDocument : Parse Step := do
  modify fun r => { r with tokens := r.tokens.dropWhile (·.kind == .documentEnd) }
  let t ← peek
  if t.kind == .streamEnd then
    advance
    return (⟨.streamEnd, t.start⟩, [])
  else
    let (tokens, handles) ← directives (← get).tokens false []
    modify fun r => { r with tokens, handles := handles ++ defaultHandles }
    if !(← nextIs (· == .documentStart)) then
      unexpected "" none "'<document start>'" "found"
    advance
    return (⟨.documentStart, t.start⟩, [.documentContent, .documentEnd])

def isDirective : Token.Kind → Bool
  | .directive _ => true
  | _ => false

def endsBlockItem (k : Token.Kind) : Bool := k == .key || k == .value || k == .blockEnd

/-- A value of a pair: a node unless a token that ends the item stands there. -/
def nodeOrEmpty (ends : Token.Kind → Bool) (pos : Position) (next : Expectation)
    (n : Parse Step) : Parse Step := do
  if ← nextIs ends then return (emptyScalar pos, [next])
  else
    let (e, more) ← n
    return (e, more ++ [next])

/-- The end of a collection, or the message that it should have ended. -/
def closeBlock (what : String) (since : Position) (kind : Event.Kind) : Parse Step := do
  let t ← peek
  if t.kind != .blockEnd then unexpected what since "<block end>" "found"
  advance
  return (⟨kind, t.start⟩, [])

/-- Between two items of a flow collection stands a comma. -/
def flowSeparator (first : Bool) (what : String) (since : Position) (close : String) :
    Parse Unit := do
  if !first then
    if ← nextIs (· == .flowEntry) then advance
    else unexpected what since s!"',' or '{close}'" "got"

def flowClose (kind : Event.Kind) : Parse Step := do
  let t ← peek
  advance
  return (⟨kind, t.start⟩, [])

def flowSequenceStep (since : Position) (first : Bool) : Parse Step := do
  if ← nextIs (· == .flowSequenceEnd) then flowClose .sequenceEnd
  else
    flowSeparator first "while parsing a flow sequence" since "]"
    let t ← peek
    if t.kind == .key then
      advance
      return (⟨.mappingStart .none, t.start⟩, [.pairKey t.finish, .flowEntry since false])
    else if t.kind == .flowSequenceEnd then flowClose .sequenceEnd
    else
      let (e, more) ← node false false
      return (e, more ++ [.flowEntry since false])

def flowMappingStep (since : Position) (first : Bool) : Parse Step := do
  let ends (k : Token.Kind) := k == .value || k == .flowEntry || k == .flowMappingEnd
  if ← nextIs (· == .flowMappingEnd) then flowClose .mappingEnd
  else
    flowSeparator first "while parsing a flow mapping" since "\x7d"
    let t ← peek
    if t.kind == .key then
      advance
      nodeOrEmpty ends t.finish (.flowValue since) (node false false)
    else if t.kind == .flowMappingEnd then flowClose .mappingEnd
    else
      let (e, more) ← node false false
      return (e, more ++ [.flowNoValue since])

/-- A value in a flow collection, which needs its indicator. -/
def flowValueStep (ends : Token.Kind → Bool) (next : Expectation) : Parse Step := do
  let t ← peek
  if t.kind == .value then
    advance
    nodeOrEmpty ends t.finish next (node false false)
  else return (emptyScalar t.start, [next])

def blockEntryStep (since : Position) : Parse Step := do
  let t ← peek
  if t.kind == .blockEntry then
    advance
    nodeOrEmpty (fun k => k == .blockEntry || k == .blockEnd) t.finish (.blockEntry since)
      (node true false)
  else closeBlock "while parsing a block collection" since .sequenceEnd

def indentlessEntryStep : Parse Step := do
  let t ← peek
  if t.kind == .blockEntry then
    advance
    nodeOrEmpty (fun k => k == .blockEntry || endsBlockItem k) t.finish .indentlessEntry
      (node true false)
  else return (⟨.sequenceEnd, t.start⟩, [])

def blockKeyStep (since : Position) : Parse Step := do
  let t ← peek
  if t.kind == .key then
    advance
    nodeOrEmpty endsBlockItem t.finish (.blockValue since) (node true true)
  else closeBlock "while parsing a block mapping" since .mappingEnd

def blockValueStep (since : Position) : Parse Step := do
  let t ← peek
  if t.kind == .value then
    advance
    nodeOrEmpty endsBlockItem t.finish (.blockKey since) (node true true)
  else return (emptyScalar t.start, [.blockKey since])

def firstDocumentStep : Parse Step := do
  let t ← peek
  if isDirective t.kind || t.kind == .documentStart || t.kind == .streamEnd then explicitDocument
  else
    modify fun r => { r with handles := defaultHandles }
    return (⟨.documentStart, t.start⟩, [.node, .documentEnd])

def documentContentStep : Parse Step := do
  let t ← peek
  if isDirective t.kind || t.kind == .documentStart || t.kind == .documentEnd
      || t.kind == .streamEnd then
    return (emptyScalar t.start, [])
  else node true false

def documentEndStep : Parse Step := do
  let t ← peek
  if t.kind == .documentEnd then advance
  return (⟨.documentEnd, t.start⟩, [.document])

def pairKeyStep (finish : Position) : Parse Step :=
  nodeOrEmpty (fun k => k == .value || k == .flowEntry || k == .flowSequenceEnd) finish .pairValue
    (node false false)

def step : Expectation → Parse Step
  | .firstDocument => firstDocumentStep
  | .document => explicitDocument
  | .documentEnd => documentEndStep
  | .documentContent => documentContentStep
  | .node => node true false
  | .blockEntry since => blockEntryStep since
  | .indentlessEntry => indentlessEntryStep
  | .blockKey since => blockKeyStep since
  | .blockValue since => blockValueStep since
  | .flowEntry since first => flowSequenceStep since first
  | .pairKey finish => pairKeyStep finish
  | .pairValue => flowValueStep (fun k => k == .flowEntry || k == .flowSequenceEnd) .pairEnd
  | .pairEnd => do return (⟨.mappingEnd, (← peek).start⟩, [])
  | .flowKey since first => flowMappingStep since first
  | .flowValue since =>
    flowValueStep (fun k => k == .flowEntry || k == .flowMappingEnd) (.flowKey since false)
  | .flowNoValue since => do return (emptyScalar (← peek).start, [.flowKey since false])

end Parse

/-- The events of a text up to its end or to the failure that ends it. -/
structure EventStream where
  events : List Event
  failure : Option Failure
  deriving DecidableEq

/-- Every step but a few consumes a token, and none is followed by more than three that do not,
so the fuel that `ofText` gives is never used up. -/
def EventStream.run : Nat → List Expectation → TokenReader → EventStream
  | 0, _, _ => ⟨[], none⟩
  | _ + 1, [], _ => ⟨[], none⟩
  | fuel + 1, e :: below, reader =>
    match (Parse.step e).run reader with
    | .error failure => ⟨[], some failure⟩
    | .ok ((event, more), reader) =>
      let rest := EventStream.run fuel (more ++ below) reader
      ⟨event :: rest.events, rest.failure⟩

def EventStream.ofTokens (s : TokenStream) : EventStream :=
  match s.tokens with
  | [] => ⟨[], s.failure⟩
  | first :: tokens =>
    let rest := EventStream.run (4 * tokens.length + 8) [.firstDocument]
      ⟨tokens, s.failure, defaultHandles⟩
    ⟨⟨.streamStart, first.start⟩ :: rest.events, rest.failure⟩

def EventStream.ofText (text : String) : EventStream := .ofTokens (.ofText text)

end DataModel.Yaml
