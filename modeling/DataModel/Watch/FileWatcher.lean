import DataModel.FileTree
import DataModel.Time

/-!
Watching a directory of model files: each poll compares the files with those of the last scan.
-/
namespace DataModel

structure FileWatcher where
  root : Path
  delay : Time
  interval : Time
  /-- What the last scan found. -/
  seen : List (Path × Stamp)
  stopped : Bool

namespace FileWatcher

def new (root : Path) (delay interval : Time) : FileWatcher := ⟨root, delay, interval, [], false⟩

/-- The model files with their stamps. A link to nothing is no file. -/
def scan (t : FileTree) (root : Path) : Except FileFault (List (Path × Stamp)) := do
  let found ← (← t.modelFiles root).mapM fun p =>
    match t.stamp p with
    | .ok stamp => .ok (some (p, stamp))
    | .error f => if f.cause? = some .missing then .ok none else .error f
  return found.filterMap id

/-- The paths that are new, changed or gone, in order. -/
def differences (before after : List (Path × Stamp)) : List Path :=
  let changed := (after.filter fun (p, stamp) => before.lookup p != some stamp).map (·.1)
  let gone := (before.map (·.1)).filter fun p => (after.lookup p).isNone
  (changed ++ gone).mergeSort Path.le

/-- Remembers what is there now. -/
def start (w : FileWatcher) (t : FileTree) : Except FileFault FileWatcher :=
  return { w with seen := ← scan t w.root }

def poll (w : FileWatcher) (t : FileTree) : Except FileFault (List Path × FileWatcher) := do
  let found ← scan t w.root
  return (differences w.seen found, { w with seen := found })

end FileWatcher
end DataModel
