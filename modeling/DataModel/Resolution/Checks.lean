import DataModel.Resolution.Expansion

/-!
Checks of a file whose references are bound and whose aliases are expanded: keys, names that come
twice, and untidy imports.
-/
namespace DataModel.Resolution

/-- A class has a single primary key. -/
def checkKeys (s : Scope) (m : Model) : Noting Unit :=
  (m.ownClasses s.self).forM fun k => do
    match m.class? k with
    | none => return ()
    | some c =>
      let keys := c.primaryKeys
      if 1 < keys.length then
        report s (.compositeKey c.name (← keys.mapM (nameOf m))) (.class k) c.location

/-- The classes that a class extends, nearest first, without itself; `fuel` bounds their number
and `seen` ends a circle. -/
def ancestors (m : Model) (seen : List Key) : Nat → Option Key → List Class
  | 0, _ => []
  | _ + 1, none => []
  | fuel + 1, some k =>
    if seen.contains k then []
    else
      match m.class? k with
      | none => []
      | some c => c :: ancestors m (k :: seen) fuel c.parent

def inheritedNames (m : Model) (k : Key) (c : Class) : Noting (List String) :=
  ((ancestors m [k] (m.classCount + 1) c.parent).flatMap
    fun a => a.properties.filter (!·.isAlias)).mapM (nameOf m)

/-- Reports the properties whose names came before, in the class or above it. -/
def checkNames (s : Scope) (m : Model) (className : String) :
    List String → List Property → Noting Unit
  | _, [] => return ()
  | seen, p :: rest => do
    if p.isAlias then checkNames s m className seen rest
    else
      let name ← nameOf m p
      if seen.contains name then
        report s (.duplicateProperty name className) (.property p) p.location
      checkNames s m className (name :: seen) rest

def checkDuplicates (s : Scope) (m : Model) : Noting Unit :=
  (m.ownClasses s.self).forM fun k => do
    match m.class? k with
    | none => return ()
    | some c => checkNames s m c.name (← inheritedNames m k c) (c.properties)

/-- The used files that are not among the missing ones. -/
def existingUses (s : Scope) (missing : List Reference) (m : Model) : List Reference :=
  (m.uses s.self).filter fun use => !missing.contains use

def checkUnusedUses (s : Scope) (missing : List Reference) (m : Model) : Noting Unit := do
  let used := (← get).usedFiles
  (existingUses s missing m).forM fun use => do
    if !used.contains use.name then report s .unusedUse (.file s.self) use

/-- Used files come in the order of their names. -/
def checkUsesOrder (s : Scope) (missing : List Reference) (m : Model) : Noting Unit := do
  let existing := existingUses s missing m
  let sorted := existing.mergeSort fun a b => a.name ≤ b.name
  (existing.zip sorted).forM fun (use, wanted) => do
    if use.name != wanted.name then report s .unsortedUse (.file s.self) use

end DataModel.Resolution
