import DataModel.Store.Update
import DataModel.Watch.Session

/-!
A store in a session: the store listens to the changes of its model root.
-/
namespace DataModel

abbrev StoreSession := Session Store StoreEvent

namespace StoreSession

/-- A change is applied; an interruption of it ends as an event. -/
def reaction : Listener Store StoreEvent where
  changed t _ path s :=
    let o := s.onFileChanged t path none
    let ended := match o.result with
      | .error i => [.interrupted i]
      | .ok _ => []
    (o.store, o.events ++ ended)
  log := .log

/-- Does something to the store. -/
def act {α : Type} (s : StoreSession) (f : Store → FileTree → Outcome α) :
    Except Interruption α × StoreSession :=
  let o := f s.listener s.tree
  (o.result, { s with listener := o.store }.emit o.events)

/-- Starts a watcher of the model root. -/
def watch (s : StoreSession) (delay interval : Time) : Except Interruption Nat × StoreSession :=
  let root := s.listener.settings.modelRoot
  let s := s.emit [Store.logEvent .info s!"Watching {root.toString}"]
  let (s, n) := s.addWatcher (.new root delay interval)
  match s.startWatcher n with
  | .error f => (.error (.file f), s)
  | .ok s => (.ok n, s)

/-- Numbers the watchers, starts watching if a delay and an interval are given, and loads the
model. The number of the watcher of files is the answer. -/
def loadAll (s : StoreSession) (watching : Option (Time × Time)) :
    Except Interruption (Option Nat) × StoreSession :=
  let (_, s) := s.act fun store _ => store.register
  let (started, s) : Except Interruption (Option Nat) × StoreSession :=
    match watching with
    | none => (.ok none, s)
    | some (delay, interval) =>
      let (n, s) := s.watch delay interval
      (n.map some, s)
  match started with
  | .error i => (.error i, s)
  | .ok n =>
    let (loaded, s) := s.act fun store t => store.loadModel t
    (loaded.map fun _ => n, s)

end StoreSession
end DataModel
