import DataModel.FileTree
import DataModel.Grammar.File
import DataModel.Log
import DataModel.Resolution.Resolve
import DataModel.Settings

/-!
The store: the committed files of a model, the changes that wait for the next batch, and the files
that could not be loaded. Committed versions are never changed; a batch makes new ones.
-/
namespace DataModel

/-- The two calls that a watcher receives. -/
inductive Stage where
  | errors | changed
  deriving DecidableEq

def Stage.word : Stage → String
  | .errors => "errors"
  | .changed => "changed"

/-- Something that is told about batches. It may fail when it is called. -/
structure Watcher where
  name : String
  number : Nat
  failing : Option Stage
  deriving DecidableEq

def Watcher.fullName (w : Watcher) : String := s!"{w.name}@{w.number}"

/-- What keeps an operation of the store from ending. -/
inductive Interruption where
  | watcher (fullName : String) (stage : Stage)
  | path (f : PathFault)
  | file (f : FileFault)
  | source (f : Source.Failure)
  | stuck (s : Resolution.Stuck)
  deriving DecidableEq

def Interruption.message : Interruption → String
  | .watcher fullName stage => s!"{fullName} failed on {stage.word}"
  | .path f => f.message
  | .file f => f.message
  | .source f => f.message
  | .stuck .endlessName => "maximum recursion depth exceeded"

/-- Why a file could not be loaded. -/
inductive LoadError where
  | rejected (r : Source.Rejection)
  | unreadable (f : FileFault)
  deriving DecidableEq

def LoadError.message : LoadError → String
  | .rejected r => r.message
  | .unreadable f => f.message

inductive StoreEvent where
  | log (r : Log.Record)
  /-- A watcher was told the diagnostics of a batch. -/
  | diagnosed (watcher : String) (found : List (VersionId × List Diagnostic))
  /-- A watcher was told the files of a committed batch. -/
  | changed (watcher : String) (files : List VersionId)
  /-- A delayed call was interrupted. -/
  | interrupted (i : Interruption)
  deriving DecidableEq

structure Store where
  settings : Settings
  watchers : List Watcher
  model : Model
  committed : Table VersionId
  /-- Loaded versions that are not committed yet; nothing stands for a removal. -/
  staged : Table (Option VersionId)
  /-- The files that could not be loaded, by path. -/
  loadErrors : Table LoadError

/-- What an operation gives, with the store after it and the events on the way. -/
structure Outcome (α : Type) where
  result : Except Interruption α
  store : Store
  events : List StoreEvent

def Outcome.andThen {α β : Type} (o : Outcome α) (next : α → Store → Outcome β) : Outcome β :=
  match o.result with
  | .error i => ⟨.error i, o.store, o.events⟩
  | .ok a =>
    let o' := next a o.store
    { o' with events := o.events ++ o'.events }

namespace Store

def logger : String := "topmodel.store.store"

def logEvent (level : Log.Level) (message : String) : StoreEvent := .log ⟨level, logger, message⟩

def new (settings : Settings) (watchers : List Watcher) : Store :=
  ⟨settings, watchers, .empty, [], [], []⟩

/-- The names that wait for the next batch. -/
def pending (s : Store) : List String := s.staged.keys

/-- The names that wait for their removal. -/
def removals (s : Store) : Table (Option VersionId) := s.staged.filter (·.2.isNone)

/-- The committed files with the staged changes made. -/
def view (s : Store) : Table VersionId :=
  s.staged.foldl (fun v (name, change) =>
    match change with
    | none => v.erase name
    | some id => v.put name id) s.committed

/-- Watchers of one name are numbered from one. -/
def numbered : List Watcher → List Watcher → List Watcher
  | _, [] => []
  | before, w :: rest =>
    let number := (before.filter (·.name == w.name)).length + 1
    { w with number } :: numbered (w :: before) rest

/-- The logical name of a file; all paths of a store are absolute. -/
def fileName (s : Store) (t : FileTree) (path : Path) : Except PathFault String :=
  s.settings.fileName t ⟨"/", []⟩ path

end Store
end DataModel
