/-!
Names as they stand in a model file, and keys: what a name is bound to. A key names an entity of
one loaded version of a file by its number among the declarations of its kind, so two versions of
a file never share a key.
-/
namespace DataModel

/-- A name with the place where it is written. -/
structure Reference where
  name : String
  line : Nat
  column : Nat
  deriving DecidableEq, Inhabited

abbrev VersionId := Nat

structure Key where
  version : VersionId
  index : Nat
  deriving DecidableEq, Inhabited

end DataModel
