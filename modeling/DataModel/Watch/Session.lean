import DataModel.Debounce
import DataModel.FileTree.Edit
import DataModel.Log
import DataModel.Watch.FileWatcher

/-!
A session: a tree of files that changes, watchers of it on one clock, and a listener that is
called with the paths that have changed and been quiet for a while.
-/
namespace DataModel

/-- What is called with a changed path, and how log records become events of the listener. -/
structure Listener (σ ε : Type) where
  changed : FileTree → Time → Path → σ → σ × List ε
  log : Log.Record → ε

structure Session (σ ε : Type) where
  tree : FileTree
  watchers : List FileWatcher
  /-- The watchers that poll, by number, in the order of their starts. -/
  loops : List Nat
  /-- The changes that wait, by watcher and path. -/
  calls : Debouncer (Nat × Path) Unit
  listener : σ
  /-- What happened, in order. -/
  events : List ε

namespace Session
variable {σ ε : Type}

def watchLogger : String := "topmodel.store.watch"

def new (tree : FileTree) (listener : σ) : Session σ ε := ⟨tree, [], [], .start, listener, []⟩

def emit (s : Session σ ε) (events : List ε) : Session σ ε :=
  { s with events := s.events ++ events }

def addWatcher (s : Session σ ε) (w : FileWatcher) : Session σ ε × Nat :=
  ({ s with watchers := s.watchers ++ [w] }, s.watchers.length)

/-- Starts a watcher: it scans, and polls from now on. -/
def startWatcher (s : Session σ ε) (n : Nat) : Except FileFault (Session σ ε) :=
  match s.watchers[n]? with
  | none => .ok s
  | some w => do
    let w ← w.start s.tree
    return { s with watchers := s.watchers.set n w, loops := s.loops ++ [n] }

/-- Polls once, and pushes a call for every difference. -/
def poll (s : Session σ ε) (n : Nat) : Except FileFault (List Path × Session σ ε) :=
  match s.watchers[n]? with
  | none => .ok ([], s)
  | some w => do
    let (changed, w) ← w.poll s.tree
    let calls := changed.foldl (fun calls p => calls.push w.delay (n, p) ()) s.calls
    return (changed, { s with watchers := s.watchers.set n w, calls })

def pending (s : Session σ ε) (n : Nat) : Nat := s.calls.pending (·.1 == n)

/-- Lets time pass, and makes the calls that fall due. -/
def advance (l : Listener σ ε) (s : Session σ ε) (span : Time) : Session σ ε :=
  let call (c : WaitingCall (Nat × Path) Unit) :
      Debouncer (Nat × Path) Unit × (σ × List ε) → Debouncer (Nat × Path) Unit × (σ × List ε)
    | (d, listener, events) =>
      let (listener, more) := l.changed s.tree d.now c.key.2 listener
      (d, listener, events ++ more)
  let (calls, listener, events) :=
    Debouncer.advance call span s.calls.waiting.length (s.calls, s.listener, s.events)
  { s with calls, listener, events }

/-- One turn of a loop: waiting, then polling. A poll that fails is logged. -/
def turn (l : Listener σ ε) (n : Nat) (s : Session σ ε) : Session σ ε :=
  match s.watchers[n]? with
  | none => s
  | some w =>
    if w.stopped then s
    else
      let s := s.advance l w.interval
      match s.poll n with
      | .ok (_, s) => s
      | .error _ =>
        s.emit [l.log ⟨.error, watchLogger, s!"Failed to scan {w.root.toString}"⟩]

/-- Lets every loop take some turns, one loop after the other. -/
def tick (l : Listener σ ε) (polls : Nat) (s : Session σ ε) : Session σ ε :=
  s.loops.foldl (fun s n => (List.range polls).foldl (fun s _ => s.turn l n) s) s

/-- Stops a watcher and drops the changes that still wait. -/
def stopWatcher (l : Listener σ ε) (n : Nat) (s : Session σ ε) : Session σ ε :=
  let dropped := s.pending n
  let s := { s with watchers := s.watchers.modify n fun w => { w with stopped := true } }
  let s := if dropped == 0 then s
    else s.emit [l.log ⟨.info, watchLogger, s!"Dropping {dropped} undelivered change(s)"⟩]
  { s with calls := s.calls.cancel (·.1 == n) }

def edit (s : Session σ ε) (e : FileTree.Edit) : Except FileFault (Session σ ε) :=
  return { s with tree := ← s.tree.edit e }

end Session
end DataModel
