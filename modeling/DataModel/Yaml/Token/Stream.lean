import DataModel.Yaml.Token.Property

/-!
The tokens of a text. Indentation and simple keys are not written down in the text, so a token is
delivered only once it is certain that no key or collection starts before it. A failure therefore
hides the tokens that still waited; `TokenStream` keeps those delivered before it.
-/
namespace DataModel.Yaml
open DataModel.Text

/-- A token that becomes a key if a value indicator follows it soon enough. -/
structure SimpleKey where
  /-- The number of the token among all tokens. -/
  number : Nat
  required : Bool
  pos : Position
  deriving DecidableEq

structure Lexer where
  cursor : Cursor
  /-- Depth of flow collections; unbalanced closing brackets make it negative. -/
  flow : Int
  /-- Tokens scanned and not yet delivered. -/
  waiting : List Token
  delivered : Nat
  /-- Column of the innermost block collection, and those of the enclosing ones. -/
  indent : Int
  indents : List Int
  keysAllowed : Bool
  /-- At most one possible key for each flow depth. -/
  keys : List (Int × SimpleKey)
  done : Bool

namespace Lexer

def ofText (text : List Char) : Lexer :=
  { cursor := .ofText text, flow := 0, waiting := [⟨.streamStart, .start, .start⟩], delivered := 0
    indent := -1, indents := [], keysAllowed := true, keys := [], done := false }

abbrev Lex := StateT Lexer (Except Failure)

def scan {α} (s : Scan α) : Lex α := do
  let l ← get
  let (a, cursor) ← s.run l.cursor
  set { l with cursor }
  return a

def fail {α} (activity : Option Activity) (problem : Problem) : Lex α :=
  scan (Scan.fail activity problem)

def emit (t : Token) : Lex Unit := modify fun l => { l with waiting := l.waiting ++ [t] }

def allowKeys (allowed : Bool) : Lex Unit := modify fun l => { l with keysAllowed := allowed }

/-- A token of `length` characters. -/
def emitFixed (kind : Token.Kind) (length : Nat) : Lex Unit := do
  let start ← scan Scan.position
  scan (Scan.skip length)
  emit ⟨kind, start, ← scan Scan.position⟩

def missingColon {α} (key : SimpleKey) : Lex α :=
  fail (some ⟨"while scanning a simple key", key.pos⟩) .missingColon

/-- A key lies on one line and within 1024 characters. -/
def isStale (pos : Position) (key : SimpleKey) : Bool :=
  key.pos.line != pos.line || 1024 < pos.index - key.pos.index

def dropStaleKeys : Lex Unit := do
  let l ← get
  match l.keys.find? fun (_, k) => isStale l.cursor.pos k && k.required with
  | some (_, k) => missingColon k
  | none => set { l with keys := l.keys.filter fun (_, k) => !isStale l.cursor.pos k }

/-- Forgets the possible key of the current flow depth. -/
def removeKey : Lex Unit := do
  let l ← get
  match l.keys.lookup l.flow with
  | some k =>
    if k.required then missingColon k
    else set { l with keys := l.keys.filter fun (d, _) => d != l.flow }
  | none => return ()

/-- Notes that the next token may be a key. -/
def saveKey : Lex Unit := do
  let l ← get
  if l.keysAllowed then
    removeKey
    let pos := l.cursor.pos
    let key : SimpleKey :=
      ⟨l.delivered + l.waiting.length, l.flow == 0 && l.indent == (pos.column : Int), pos⟩
    modify fun l => { l with keys := l.keys ++ [(l.flow, key)] }

/-- Ends the block collections that are indented deeper than a column. -/
def unwindTo (column : Int) : Nat → Lex Unit
  | 0 => return ()
  | fuel + 1 => do
    let l ← get
    if l.flow == 0 && column < l.indent then
      let pos := l.cursor.pos
      set { l with
        waiting := l.waiting ++ [Token.mk .blockEnd pos pos]
        indent := l.indents.head?.getD (-1)
        indents := l.indents.tail }
      unwindTo column fuel

def unwind (column : Int) : Lex Unit := do
  unwindTo column ((← get).indents.length + 1)

/-- Starts a block collection at a column, unless one of that indentation is open. -/
def openIndent (column : Nat) : Lex Bool := do
  let l ← get
  if l.indent < column then
    set { l with indents := l.indent :: l.indents, indent := (column : Int) }
    return true
  else return false

def inFlow : Lex Bool := return (← get).flow != 0

/-- Opens a block collection where its first indicator stands. -/
def openBlock (kind : Token.Kind) (what : String) : Lex Unit := do
  if !(← inFlow) then
    if !(← get).keysAllowed then fail none (.notAllowedHere what)
    let pos ← scan Scan.position
    if ← openIndent pos.column then emit ⟨kind, pos, pos⟩

def fetchStreamEnd : Lex Unit := do
  unwind (-1)
  removeKey
  let pos ← scan Scan.position
  emit ⟨.streamEnd, pos, pos⟩
  modify fun l => { l with keysAllowed := false, keys := [], done := true }

def fetchDirective : Lex Unit := do
  unwind (-1)
  removeKey
  allowKeys false
  emit (← scan Scan.directive)

def fetchMarker (kind : Token.Kind) : Lex Unit := do
  unwind (-1)
  removeKey
  allowKeys false
  emitFixed kind 3

def fetchFlowStart (kind : Token.Kind) : Lex Unit := do
  saveKey
  modify fun l => { l with flow := l.flow + 1, keysAllowed := true }
  emitFixed kind 1

def fetchFlowEnd (kind : Token.Kind) : Lex Unit := do
  removeKey
  modify fun l => { l with flow := l.flow - 1, keysAllowed := false }
  emitFixed kind 1

def fetchFlowEntry : Lex Unit := do
  allowKeys true
  removeKey
  emitFixed .flowEntry 1

def fetchBlockEntry : Lex Unit := do
  openBlock .blockSequenceStart "sequence entries"
  allowKeys true
  removeKey
  emitFixed .blockEntry 1

def fetchKey : Lex Unit := do
  openBlock .blockMappingStart "mapping keys"
  allowKeys !(← inFlow)
  removeKey
  emitFixed .key 1

/-- A value indicator turns the possible key of its depth into a key, with the start of a block
mapping before it where none is open at that column. -/
def fetchValue : Lex Unit := do
  let l ← get
  match l.keys.lookup l.flow with
  | some key =>
    let place := key.number - l.delivered
    let opens ← if l.flow == 0 then openIndent key.pos.column else pure false
    let started : List Token :=
      if opens then [⟨.blockMappingStart, key.pos, key.pos⟩, ⟨.key, key.pos, key.pos⟩]
      else [⟨.key, key.pos, key.pos⟩]
    modify fun m => { m with
      keys := m.keys.filter fun (d, _) => d != m.flow
      waiting := m.waiting.take place ++ started ++ m.waiting.drop place
      keysAllowed := false }
  | none =>
    openBlock .blockMappingStart "mapping values"
    allowKeys !(← inFlow)
    removeKey
  emitFixed .value 1

/-- A token that may be a key, and after which no key may start. -/
def fetchNode (s : Scan Token) : Lex Unit := do
  saveKey
  allowKeys false
  emit (← scan s)

def fetchBlockScalar (fold : Bool) : Lex Unit := do
  allowKeys true
  removeKey
  emit (← scan (Scan.blockScalar fold (← get).indent))

def fetchPlain : Lex Unit := do
  saveKey
  let l ← get
  let (token, broken) ← scan (Scan.plainScalar (l.flow != 0) l.indent)
  allowKeys broken
  emit token

/-- Characters that start no plain scalar, unless a word follows `-`, `?` or `:`. -/
def isIndicator (c : Char) : Bool :=
  "-?:,[]\x7b\x7d#&*!|>'\"%@".contains c || c == Char.ofNat 0x60

def startsPlain (flow : Bool) (c : Char) (following : Option Char) : Bool :=
  !(endsWord (some c) || isIndicator c)
    || (!endsWord following && (c == '-' || (!flow && (c == '?' || c == ':'))))

/-- Skips blanks, comments and line breaks; in block context a key may start on a new line. -/
def skipToToken : Nat → Lex Unit
  | 0 => return ()
  | fuel + 1 => do
    scan (Scan.skipWhile (· == ' '))
    scan Scan.skipComment
    let b ← scan Scan.lineBreak
    if b.isEmpty then return ()
    else
      if !(← inFlow) then allowKeys true
      skipToToken fuel

def skipByteOrderMark : Lex Unit := do
  let c := (← get).cursor
  if c.pos.index == 0 && c.peek == some byteOrderMark then scan (Scan.skip 1)

/-- A document marker at the start of a line. -/
def atMarker (c : Char) : Lex Bool := do
  let cursor := (← get).cursor
  return cursor.pos.column == 0 && cursor.rest.take 3 == [c, c, c] && endsWord (cursor.peek 3)

def fetchCollection (c : Char) : Option (Lex Unit) :=
  match c with
  | '[' => some (fetchFlowStart .flowSequenceStart)
  | '\x7b' => some (fetchFlowStart .flowMappingStart)
  | ']' => some (fetchFlowEnd .flowSequenceEnd)
  | '\x7d' => some (fetchFlowEnd .flowMappingEnd)
  | ',' => some fetchFlowEntry
  | _ => none

def fetchIndicator (flow : Bool) (c : Char) (following : Option Char) : Option (Lex Unit) :=
  match c with
  | '-' => if endsWord following then some fetchBlockEntry else none
  | '?' => if flow || endsWord following then some fetchKey else none
  | ':' => if flow || endsWord following then some fetchValue else none
  | '*' => some (fetchNode Scan.aliasToken)
  | '&' => some (fetchNode Scan.anchorToken)
  | '!' => some (fetchNode Scan.tag)
  | '|' => if flow then none else some (fetchBlockScalar false)
  | '>' => if flow then none else some (fetchBlockScalar true)
  | '\'' => some (fetchNode (Scan.quotedScalar '\''))
  | '"' => some (fetchNode (Scan.quotedScalar '"'))
  | _ => none

def fetchAt (c : Char) : Lex Unit := do
  let l ← get
  let flow := l.flow != 0
  let following := l.cursor.peek 1
  if c == '%' && l.cursor.pos.column == 0 then fetchDirective
  else if c == '-' && (← atMarker '-') then fetchMarker .documentStart
  else if c == '.' && (← atMarker '.') then fetchMarker .documentEnd
  else
    match (fetchCollection c).or (fetchIndicator flow c following) with
    | some fetch => fetch
    | none =>
      if startsPlain flow c following then fetchPlain
      else fail (some ⟨"while scanning for the next token", none⟩) (.cannotStart c)

/-- Scans the next token, with the collection starts and ends before it. -/
def fetch : Lex Unit := do
  skipByteOrderMark
  skipToToken ((← scan Scan.remaining) + 1)
  dropStaleKeys
  unwind (← get).cursor.pos.column
  match (← get).cursor.peek with
  | none => fetchStreamEnd
  | some c => fetchAt c

/-- The first waiting token is no possible key. -/
def isReady (l : Lexer) : Bool := l.keys.all fun (_, k) => k.number != l.delivered

/-- Delivers the tokens that are ready. -/
def deliver : Nat → Lex (List Token)
  | 0 => return []
  | fuel + 1 => do
    match (← get).waiting with
    | [] => return []
    | t :: rest =>
      if !(← get).done then dropStaleKeys
      let l ← get
      if l.done || l.isReady then
        set { l with waiting := rest, delivered := l.delivered + 1 }
        return t :: (← deliver fuel)
      else return []

end Lexer

/-- The tokens of a text up to its end or to the failure that ends it. -/
structure TokenStream where
  tokens : List Token
  failure : Option Failure
  deriving DecidableEq

open Lexer in
/-- Alternates delivering and fetching; each fetch but the last consumes a character. -/
def TokenStream.run : Nat → Lexer → TokenStream
  | 0, _ => ⟨[], none⟩
  | fuel + 1, l =>
    match (deliver l.waiting.length).run l with
    | .error failure => ⟨[], some failure⟩
    | .ok (tokens, l) =>
      if l.done then ⟨tokens, none⟩
      else
        match fetch.run l with
        | .error failure => ⟨tokens, some failure⟩
        | .ok ((), l) =>
          let rest := TokenStream.run fuel l
          ⟨tokens ++ rest.tokens, rest.failure⟩

def TokenStream.ofText (text : String) : TokenStream :=
  match unacceptable? (codes text) with
  | some failure => ⟨[], some failure⟩
  | none =>
    let cs := charsOf text
    TokenStream.run (cs.length + 2) (.ofText cs)

end DataModel.Yaml
