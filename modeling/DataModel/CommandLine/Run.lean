import DataModel.CommandLine.Arguments
import DataModel.Configuration
import DataModel.Console
import DataModel.Store.Session
import DataModel.Store.View

/-!
The commands. Checking loads the model once and reports how it went; watching loads it and applies
every change until it is stopped.
-/
namespace DataModel.CommandLine

/-- What a program leaves behind. -/
structure Output where
  code : Nat
  stdout : String
  stderr : String

/-- An end that no command expects. -/
inductive Crash where
  | configuration (path : Path) (f : Configuration.Fault)
  | interruption (i : Interruption)

def Crash.message : Crash → String
  | .configuration path f => f.message path
  | .interruption i => i.message

/-- The console's lines for what happened in a store. -/
def consoleText (verbose : Bool) (events : List StoreEvent) : String :=
  String.join (events.map fun e =>
    match e with
    | .log r => Console.output verbose r
    | _ => "")

/-- The watcher of the command line has this name. -/
def watcherName : String := "cli"

/-- The diagnostics of the latest batch. -/
def latestFound (events : List StoreEvent) : List Diagnostic :=
  events.foldl (fun found e =>
    match e with
    | .diagnosed _ files => files.flatMap (·.2)
    | _ => found) []

def failed (message : String) : Output := ⟨1, "", s!"Error: {message}\n"⟩

/-- Opens the store that a configuration file describes. -/
def openStore (t : FileTree) (current : Path) (configuration : String) :
    Except Crash (Except Output StoreSession) :=
  let path := Path.ofString configuration
  match Configuration.load t current path with
  | .error f =>
    if f.isReported then .ok (.error (failed (f.message path))) else .error (.configuration path f)
  | .ok settings =>
    match t.isDirectory settings.modelRoot with
    | .error f => .error (.interruption (.file f))
    | .ok true => .ok (.ok (.new t (.new settings [⟨watcherName, 1, none⟩])))
    | .ok false =>
      .ok (.error (failed s!"model root '{settings.modelRoot.toString}' does not exist."))

/-- Loads the model once. -/
def check (verbose : Bool) (s : StoreSession) : Except Interruption Output :=
  let (loaded, s) := s.loadAll none
  loaded.map fun _ =>
    let log := consoleText verbose s.events
    let found := latestFound s.events
    let errors := (found.filter (·.isError)).length
    let broken := s.listener.loadErrors.length
    if broken != 0 || errors != 0 then
      let report := s!"Error: {broken} file(s) could not be loaded, {errors} resolution error(s).\n"
      ⟨1, "", log ++ report⟩
    else
      let files := s.listener.committed.length
      let warnings := found.length - errors
      ⟨0, s!"Checked {files} model file(s), {warnings} warning(s). No errors found.\n", log⟩

/-- Loads the model and starts watching. -/
def startWatching (s : StoreSession) : Except Interruption (StoreSession × Option Nat) :=
  let (loaded, s) := s.loadAll (some (.halfSecond, .halfSecond))
  loaded.map fun n => (s, n)

/-- What happens while watching. -/
inductive Happening where
  | edit (e : FileTree.Edit)
  | polls (n : Nat)

/-- Goes on watching. -/
def happen (s : StoreSession) : Happening → Except FileFault StoreSession
  | .edit e => s.edit e
  | .polls n => .ok (s.tick StoreSession.reaction n)

/-- Stops watching. -/
def stopWatching (verbose : Bool) (s : StoreSession) (watcher : Option Nat) : Output :=
  let s := (watcher.map fun n => s.stopWatcher StoreSession.reaction n).getD s
  ⟨0, "Stopping.\n", consoleText verbose s.events⟩

/-- The delayed calls that were interrupted. -/
def interruptions (events : List StoreEvent) : List Interruption :=
  events.filterMap fun
    | .interrupted i => some i
    | _ => none

/-- Watches while things happen, then stops. An edit that fails ends it. -/
def watch (verbose : Bool) (s : StoreSession) (happenings : List Happening) :
    Except Interruption (Output × List Interruption) := do
  let (s, watcher) ← startWatching s
  let s ← (happenings.foldlM happen s).mapError .file
  return (stopWatching verbose s watcher, interruptions s.events)

/-- A whole run of the program in a directory: its output, and the delayed calls that were
interrupted. -/
def run (t : FileTree) (current : Path) (args : List String) (happenings : List Happening) :
    Except Crash (Output × List Interruption) := do
  let current ← (t.directory current).mapError fun f => .interruption (.file f)
  match parse args with
  | .error e => .ok (⟨2, "", e.text⟩, [])
  | .ok (.help text) => .ok (⟨0, text, ""⟩, [])
  | .ok (.run verbose command configuration) => do
    match ← openStore t current configuration with
    | .error o => return (o, [])
    | .ok s =>
      match command with
      | .check => return (← (check verbose s).mapError .interruption, [])
      | .watch => (watch verbose s happenings).mapError .interruption

end DataModel.CommandLine
