import DataModel.Source.Event

/-!
Reading events one by one. A reader stands between the events it has consumed and those still to
come; the end of the stream stands behind them and is never consumed, so reading past the end goes
on seeing it. A rejected read leaves the reader where the rejection arose.
-/
namespace DataModel.Source
open DataModel.Text

structure Reader where
  /-- The consumed events, the latest first. -/
  passed : List Event
  rest : List Event
  /-- The end of the stream. -/
  stop : Event
  deriving DecidableEq

namespace Reader

/-- The last event is the one that is never consumed. -/
def ofEvents (events : List Event) : Reader :=
  ⟨[], events.dropLast, events.getLast?.getD ⟨.streamEnd, "", 1, 1⟩⟩

def ofText (text : String) : Except Failure Reader := (events text).map ofEvents

def current (r : Reader) : Event := r.rest.head?.getD r.stop

/-- The event `k` places ahead, or the last one. -/
def peek (r : Reader) (k : Nat) : Event := r.rest[k]?.getD r.stop

/-- All events, wherever the reader stands. -/
def events (r : Reader) : List Event := r.passed.reverse ++ r.rest ++ [r.stop]

/-- The event some places ahead, or the last one. A place before the first event is counted back
from the end, and there is none if that is too far as well. -/
def at? (r : Reader) (k : Int) : Option Event :=
  let all := r.events
  let place := min (r.passed.length + k) (all.length - 1)
  if 0 ≤ place then all[place.toNat]?
  else if 0 ≤ all.length + place then all[(all.length + place).toNat]?
  else none

def advance (r : Reader) : Reader :=
  match r.rest with
  | [] => r
  | e :: rest => { r with passed := e :: r.passed, rest }

end Reader

abbrev Read := ExceptT Rejection (StateM Reader)

namespace Read
variable {α σ : Type}

def reject (problem : Problem) (e : Event) : Read α := throw (.at problem e)

def current : Read Event := return (← get).current

def peek (k : Nat) : Read Event := return (← get).peek k

def advance : Read Event := do
  let r ← get
  set r.advance
  return r.current

def check (kinds : List Event.Kind) : Read Bool := return kinds.contains (← current).kind

/-- Consumes an event of one of the kinds, and nothing else. -/
def expect (kinds : List Event.Kind) : Read Event := do
  if ← check kinds then advance
  else
    let e ← current
    reject (.unexpected kinds e) e

def accept (kind : Event.Kind) : Read (Option Event) := do
  if ← check [kind] then return some (← advance) else return none

def scalar : Read Event := expect [.scalar]

def string : Read String := return (← scalar).value

def boolean : Read Bool := do
  let e ← scalar
  if e.value == "true" then return true
  else if e.value == "false" then return false
  else reject (.notBoolean e.value) e

def integer : Read Int := do
  let e ← scalar
  match readInteger 10 e.value with
  | .ok n => return n
  | .error _ => reject (.notInteger e.value) e

/-- One of a few words; `values` pairs each with its meaning. -/
def word (values : List (String × α)) : Read α := do
  let e ← scalar
  match values.lookup e.value with
  | some a => return a
  | none => reject (.notAllowed e.value (values.map (·.1))) e

/-- A collection that is read item by item. -/
inductive Walk where
  /-- Nothing of the collection is consumed yet. -/
  | fresh (mapping : Bool)
  | inside (mapping : Bool)
  | finished
  deriving DecidableEq

/-- The next key of a mapping, consumed; none at its end, which is consumed too. -/
def nextKey : Read (Option Event) := do
  if ← check [.mappingEnd] then
    discard advance
    return none
  else return some (← scalar)

/-- The first event of the next item of a sequence, not consumed; none at its end, which is. -/
def nextItem : Read (Option Event) := do
  if ← check [.sequenceEnd] then
    discard advance
    return none
  else return some (← current)

def enter (mapping : Bool) : Read Unit :=
  discard (expect [if mapping then .mappingStart else .sequenceStart])

/-- The next item of a walk. A walk that was rejected or has ended gives no more. -/
def Walk.next : Walk → Read (Option Event)
  | .fresh mapping => do
    enter mapping
    if mapping then nextKey else nextItem
  | .inside mapping => if mapping then nextKey else nextItem
  | .finished => return none

/-- Reads the items up to the end of their collection. `next` gives the next item and `body`
consumes what belongs to it. Items that consume nothing would be read for ever; the fuel ends
first, which is a problem of its own. -/
def items (next : Read (Option Event)) (body : Event → σ → Read σ) : Nat → σ → Read σ
  | 0, _ => do reject .endless (← current)
  | fuel + 1, s => do
    match ← next with
    | none => return s
    | some e => items next body fuel (← body e s)

/-- The number of reads after which only the end of the stream is left. -/
def bound : Read Nat := return (← get).rest.length + 1

/-- Reads a mapping; `body` consumes the value of each key. -/
def eachKey (body : Event → σ → Read σ) (s : σ) : Read σ := do
  enter true
  items nextKey body (← bound) s

/-- Reads a sequence; `body` consumes each item. -/
def eachItem (body : Event → σ → Read σ) (s : σ) : Read σ := do
  enter false
  items nextItem body (← bound) s

/-- A single scalar, or a sequence of them. -/
def scalars : Read (List Event) := do
  if ← check [.scalar] then return [← advance]
  else eachItem (fun _ read => return read ++ [← scalar]) []

def strings : Read (List String) := return (← scalars).map (·.value)

/-- How a section reads the value of each key it knows, into a draft. -/
abbrev Fields (σ : Type) := String → Option (σ → Read σ)

/-- Reads a section key by key into a draft. -/
def fields (what : String) (known : Fields σ) (draft : σ) : Read σ :=
  eachKey (fun key draft =>
    match known key.value with
    | some read => read draft
    | none => reject (.unknownProperty key.value what) key) draft

/-- A value that a section must give. -/
def require (value : Option α) (key what : String) (start : Event) : Read α :=
  match value with
  | some a => return a
  | none => reject (.missingProperty key what) start

end Read
end DataModel.Source
