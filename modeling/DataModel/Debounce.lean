import DataModel.Time

/-!
Delayed calls, one for each key. A push replaces the waiting call of its key and starts the delay
anew, so only a call that nothing pushed over is made. Calls are made in the order of their due
times, and of two due at once the one pushed first comes first.
-/
namespace DataModel

structure WaitingCall (κ α : Type) where
  key : κ
  args : α
  due : Time
  /-- The number of the push that it waits for. -/
  number : Nat

/-- Waiting calls and the clock they wait on. -/
structure Debouncer (κ α : Type) where
  now : Time
  /-- In the order of their pushes. -/
  waiting : List (WaitingCall κ α)
  pushes : Nat

namespace Debouncer
variable {κ α σ : Type}

def start : Debouncer κ α := ⟨.zero, [], 0⟩

def push [BEq κ] (d : Debouncer κ α) (delay : Time) (key : κ) (args : α) : Debouncer κ α :=
  { d with
    waiting :=
      d.waiting.filter (fun c => !(c.key == key)) ++ [⟨key, args, d.now.after delay, d.pushes⟩]
    pushes := d.pushes + 1 }

/-- Drops the waiting calls of some keys. -/
def cancel (d : Debouncer κ α) (keys : κ → Bool) : Debouncer κ α :=
  { d with waiting := d.waiting.filter fun c => !keys c.key }

def pending (d : Debouncer κ α) (keys : κ → Bool) : Nat := (d.waiting.filter (keys ·.key)).length

/-- The call that is due first. -/
def first? : List (WaitingCall κ α) → Option (WaitingCall κ α)
  | [] => none
  | c :: rest =>
    match first? rest with
    | none => some c
    | some other => if other.due.seconds < c.due.seconds then some other else some c

/-- Takes the first call that is due by a time, and moves the clock there. -/
def takeDue? (d : Debouncer κ α) (limit : Rat) : Option (WaitingCall κ α × Debouncer κ α) :=
  match first? d.waiting with
  | none => none
  | some c =>
    if c.due.seconds ≤ limit then
      some (c, { d with now := c.due, waiting := d.waiting.filter (·.number != c.number) })
    else none

/-- Makes the calls that are due by a time. A call may push again; `fuel` bounds their number. -/
def callDue (call : WaitingCall κ α → Debouncer κ α × σ → Debouncer κ α × σ) (limit : Rat) :
    Nat → Debouncer κ α × σ → Debouncer κ α × σ
  | 0, s => s
  | fuel + 1, (d, s) =>
    match d.takeDue? limit with
    | none => (d, s)
    | some (c, d) => callDue call limit fuel (call c (d, s))

/-- Lets time pass. -/
def advance (call : WaitingCall κ α → Debouncer κ α × σ → Debouncer κ α × σ) (span : Time)
    (fuel : Nat) (s : Debouncer κ α × σ) : Debouncer κ α × σ :=
  let limit := s.1.now.after span
  let (d, s) := callDue call limit.seconds fuel s
  ({ d with now := limit }, s)

end Debouncer
end DataModel
