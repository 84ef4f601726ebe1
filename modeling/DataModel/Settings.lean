import DataModel.Model.Diagnostic
import DataModel.FileTree

/-!
Settings of a model: the application, the directory of the model files, and what is accepted or
not reported.
-/
namespace DataModel

structure Settings where
  app : String
  modelRoot : Path
  allowCompositeKeys : Bool
  nowarn : List Code
  deriving DecidableEq

def Settings.isSuppressed (s : Settings) (c : Code) : Bool := s.nowarn.contains c

/-- The name of a file: its place below the model root, or else its path, without the suffix of
model files. Both places come without links and dots. -/
def logicalName (root place path : Path) : String :=
  Path.withoutSuffix modelSuffix ((place.relativeTo? root).getD path).toString

/-- The places of the model root and of a path. -/
def Settings.places (s : Settings) (t : FileTree) (current path : Path) :
    Except PathFault (Path × Path) := do
  let place ← t.resolve current path
  return (← t.resolve current s.modelRoot, place)

/-- The logical name of a path, whether there is a file or not. A path that names no place, or a
model root that does, is left as it is. -/
def Settings.fileName (s : Settings) (t : FileTree) (current path : Path) :
    Except PathFault String :=
  match s.places t current path with
  | .ok (root, place) => .ok (logicalName root place path)
  | .error (.name _) => .ok (Path.withoutSuffix modelSuffix path.toString)
  | .error f => .error f

end DataModel
