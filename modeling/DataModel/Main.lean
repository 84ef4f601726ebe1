import DataModel.CommandLine.Run

/-!
The program. Standard input names the files that it works on, one path a line, up to an empty line.
While it watches, every further line names a file that has changed or gone, and the end of the input
stops it.
-/
namespace DataModel.Main
open DataModel.CommandLine

/-- The next line, without its line feed. -/
def readLine (input : IO.FS.Stream) : IO (Option String) := do
  let line ← input.getLine
  if line.isEmpty then return none
  else return some (Path.withoutSuffix "\n" line)

/-- A file as it is now: what it holds, or that it is gone. -/
def lookAt (path : Path) : IO FileTree.Edit := do
  try
    let bytes ← IO.FS.readBinFile path.toString
    return .write path (.bytes bytes.toList) none
  catch _ => return .delete path

/-- The tree of the files that are named up to an empty line. -/
partial def readTree (input : IO.FS.Stream) (current : Path) (t : FileTree) : IO FileTree := do
  match ← readLine input with
  | none | some "" => return t
  | some name =>
    let edit ← lookAt ((Path.ofString name).under current)
    readTree input current (((t.edit edit).toOption).getD t)

/-- Follows the changes that are named until the input ends, and shows what comes of them. -/
partial def follow (input : IO.FS.Stream) (current : Path) (verbose : Bool) (s : StoreSession) :
    IO StoreSession := do
  IO.eprint (consoleText verbose s.events)
  let s := { s with events := [] }
  match ← readLine input with
  | none => return s
  | some name =>
    let edit ← lookAt ((Path.ofString name).under current)
    follow input current verbose (([.edit edit, .polls 2].foldlM happen s).toOption.getD s)

def finish (o : Output) : IO UInt32 := do
  IO.eprint o.stderr
  IO.print o.stdout
  return o.code.toUInt32

def crash (c : Crash) : IO UInt32 := finish ⟨1, "", c.message ++ "\n"⟩

def carryOut (verbose : Bool) (command : Command) (configuration : String) : IO UInt32 := do
  let input ← IO.getStdin
  let current := Path.ofString ((← IO.getEnv "PWD").getD "/")
  let t ← readTree input current (.empty current)
  match openStore t current configuration with
  | .error c => crash c
  | .ok (.error o) => finish o
  | .ok (.ok s) =>
    match command with
    | .check =>
      match check verbose s with
      | .error i => crash (.interruption i)
      | .ok o => finish o
    | .watch =>
      match startWatching s with
      | .error i => crash (.interruption i)
      | .ok (s, watcher) => finish (stopWatching verbose (← follow input current verbose s) watcher)

def start (args : List String) : IO UInt32 := do
  match parse args with
  | .error e => finish ⟨2, "", e.text⟩
  | .ok (.help text) => finish ⟨0, text, ""⟩
  | .ok (.run verbose command configuration) => carryOut verbose command configuration

end DataModel.Main

def main (args : List String) : IO UInt32 := DataModel.Main.start args
