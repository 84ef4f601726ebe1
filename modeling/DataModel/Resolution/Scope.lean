import DataModel.Model.Diagnostic

/-!
What names mean while a file is resolved. Classes and decorators come from the dependencies of
the file and from the file itself, whose own ones win; domains are known everywhere. Looking a
name up notes the file it was found in, or reports that it is missing.
-/
namespace DataModel.Resolution

/-- Resolving stops at an association whose name has no end. -/
inductive Stuck where
  | endlessName
  deriving DecidableEq

/-- An entity, and the name of the file that offers it. -/
structure Offer where
  key : Key
  file : String
  deriving DecidableEq

structure Scope where
  self : VersionId
  /-- The files that the resolved one may use. -/
  dependencies : Table VersionId
  classes : Table Offer
  decorators : Table Offer
  domains : Table Key

/-- The classes on offer by a version, as pairs of a name and an offer. -/
def offeredClasses (m : Model) (keys : List Key) (file : String) : List (String × Offer) :=
  keys.filterMap fun k => (m.class? k).map fun c => (c.name, ⟨k, file⟩)

def offeredDecorators (m : Model) (v : VersionId) : List (String × Offer) :=
  (((m.file? v).map (·.decorators)).getD []).zipIdx.map fun (d, i) =>
    (d.name, ⟨⟨v, i⟩, m.fileName v⟩)

def Scope.of (m : Model) (self : VersionId) (dependencies : List VersionId)
    (domains : Table Key) : Scope where
  self := self
  dependencies := .ofList (dependencies.map fun d => (m.fileName d, d))
  classes := .ofList
    (dependencies.flatMap (fun d => offeredClasses m (m.classes d) (m.fileName d))
      ++ offeredClasses m (m.ownClasses self) (m.fileName self))
  decorators := .ofList (dependencies.flatMap (offeredDecorators m) ++ offeredDecorators m self)
  domains := domains

/-- What resolving notes on its way. -/
structure Notes where
  diagnostics : List Diagnostic
  /-- The files in which something was found. -/
  usedFiles : List String

abbrev Noting := StateT Notes (Except Stuck)

def report (s : Scope) (f : Finding) (subject : Subject) (reference : Option Reference) :
    Noting Unit :=
  modify fun n => { n with diagnostics := n.diagnostics ++ [f.diagnostic s.self subject reference] }

def markUsed (file : String) : Noting Unit :=
  modify fun n => { n with usedFiles := file :: n.usedFiles }

def findOffer (s : Scope) (offers : Table Offer) (missing : Finding) (subject : Subject)
    (r : Reference) : Noting (Option Key) := do
  match offers.get? r.name with
  | some offer => markUsed offer.file; return some offer.key
  | none => report s missing subject r; return none

def findClass (s : Scope) (subject : Subject) (r : Reference) : Noting (Option Key) :=
  findOffer s s.classes .missingClass subject r

def findDecorator (s : Scope) (subject : Subject) (r : Reference) : Noting (Option Key) :=
  findOffer s s.decorators .missingDecorator subject r

def findDomain (m : Model) (s : Scope) (subject : Subject) (r : Reference) :
    Noting (Option Key) := do
  match s.domains.get? r.name with
  | some k => markUsed (m.fileName k.version); return some k
  | none => report s .missingDomain subject r; return none

/-- The name of a property, if it has an end. -/
def nameOf (m : Model) (p : Property) : Noting String :=
  match m.propertyName? p with
  | some name => return name
  | none => throw .endlessName

end DataModel.Resolution
