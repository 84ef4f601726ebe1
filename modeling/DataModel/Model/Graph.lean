import DataModel.Model.Diagnostic

/-!
The graph of files that use other files: which files a change affects, and in which order files
are resolved. Sorting goes depth first, so a file comes right after those of its dependencies that
did not come before, and a circle is found on the path that closes it.
-/
namespace DataModel.Graph

/-- A walk along `next` from a stack of names. Every name is visited once; `fuel` bounds the names
that were ever on the stack. -/
def reach (next : String → List String) : Nat → List String → List String → List String
  | 0, _, seen => seen
  | _ + 1, [], seen => seen
  | fuel + 1, name :: stack, seen =>
    if seen.contains name then reach next fuel stack seen
    else reach next fuel (next name ++ stack) (name :: seen)

/-- The files that use a name, once for each use. -/
def dependents (uses : List (String × List String)) (name : String) : List String :=
  uses.flatMap fun (file, used) => (used.filter (· == name)).map fun _ => file

/-- The names that pending names affect, themselves included. -/
def affectedNames (uses : List (String × List String)) (pending : List String) : List String :=
  reach (dependents uses) ((uses.map (·.2.length)).foldl (· + ·) pending.length + 1) pending []

/-- The files that are pending or use, over any number of files, a pending name. -/
def affected (uses : List (String × List String)) (pending : List String) : List String :=
  let names := affectedNames uses pending
  (uses.map (·.1)).filter names.contains

section Sorting
variable {α : Type} [DecidableEq α]

/-- The part of a path from an element on, closed with that element; the path's end comes first. -/
def closing (path : List α) (x : α) : List α := path.reverse.dropWhile (· != x) ++ [x]

/-- Puts `x` behind what it depends on. `path` leads to `x`, innermost first; the failure is a
circle of it. -/
def visit (deps : α → List α) (members : List α) :
    Nat → List α → List α → α → Except (List α) (List α)
  | 0, _, sorted, _ => .ok sorted
  | fuel + 1, path, sorted, x => do
    let sorted ← (deps x).foldlM (fun sorted d =>
      if !members.contains d || sorted.contains d then .ok sorted
      else if (x :: path).contains d then .error (closing (x :: path) d)
      else visit deps members fuel (x :: path) sorted d) sorted
    return sorted ++ [x]

/-- Sorts elements so that each comes after those it depends on. -/
def sort (deps : α → List α) (members : List α) : Except (List α) (List α) :=
  members.foldlM (fun sorted x =>
    if sorted.contains x then .ok sorted
    else visit deps members (members.length + 1) [] sorted x) []

end Sorting

/-- The diagnostic of a circle of files: at the first one, where it uses the second. -/
def circleDiagnostic (m : Model) (circle : List VersionId) : Option Diagnostic :=
  circle.head?.map fun first =>
    let names := circle.map m.fileName
    let use := (m.uses first).find? fun u => names[1]? == some u.name
    (Finding.circularDependency names).diagnostic first (.file first) use

/-- Why the files of a batch cannot be sorted. -/
structure Circle where
  versions : List VersionId
  names : List String
  diagnostic : Option Diagnostic

def sortVersions (m : Model) (deps : VersionId → List VersionId) (members : List VersionId) :
    Except Circle (List VersionId) :=
  (sort deps members).mapError fun circle =>
    ⟨circle, circle.map m.fileName, circleDiagnostic m circle⟩

end DataModel.Graph
