import DataModel.Store.Basic

/-!
What a store shows of its committed model.
-/
namespace DataModel.Store

def file? (s : Store) (name : String) : Option VersionId := s.committed.get? name

/-- The classes on offer by all files, each once. -/
def classes (s : Store) : List Key :=
  (s.committed.values.flatMap s.model.classes).foldl (fun ks k =>
    if ks.contains k then ks else ks ++ [k]) []

def domains (s : Store) : Table Key := s.model.domainTable s.committed.values

/-- The committed files that a file uses. -/
def dependencies (s : Store) (v : VersionId) : List VersionId :=
  (s.model.uses v).filterMap fun u => s.committed.get? u.name

/-- The classes that a file can refer to: those of its dependencies, then its own. -/
def availableClasses (s : Store) (v : VersionId) : List Key :=
  (s.dependencies v).flatMap s.model.classes ++ s.model.ownClasses v

end DataModel.Store
