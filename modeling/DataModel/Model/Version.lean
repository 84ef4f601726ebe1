import DataModel.Model.Entity

/-!
The model: every loaded version of every file. A version lists the classes and endpoints that its
file offers, which are its own declarations until re-exports replace some or join them. Resolving
a file changes its newest version only; versions that others still hold stay as they are.
-/
namespace DataModel

structure Version where
  file : ModelFile
  /-- The classes on offer, own and re-exported. -/
  classes : List Key
  endpoints : List Key
  /-- The classes and endpoints that came from an alias of the file. -/
  sharedClasses : List Key
  sharedEndpoints : List Key
  deriving DecidableEq

namespace Version

def ownClasses (v : Version) : List Key := v.classes.filter fun k => !v.sharedClasses.contains k

def ownEndpoints (v : Version) : List Key :=
  v.endpoints.filter fun k => !v.sharedEndpoints.contains k

def fresh (id : VersionId) (file : ModelFile) : Version where
  file := file
  classes := (List.range file.classes.length).map fun i => ⟨id, i⟩
  endpoints := (List.range file.endpoints.length).map fun i => ⟨id, i⟩
  sharedClasses := []
  sharedEndpoints := []

end Version

structure Model where
  versions : Array Version

namespace Model

def empty : Model := ⟨#[]⟩

/-- Adds a file just loaded. -/
def add (m : Model) (file : ModelFile) : Model × VersionId :=
  (⟨m.versions.push (.fresh m.versions.size file)⟩, m.versions.size)

def version? (m : Model) (v : VersionId) : Option Version := m.versions[v]?

def file? (m : Model) (v : VersionId) : Option ModelFile := (m.version? v).map (·.file)

def class? (m : Model) (k : Key) : Option Class := (m.file? k.version).bind (·.classes[k.index]?)

def endpoint? (m : Model) (k : Key) : Option Endpoint :=
  (m.file? k.version).bind (·.endpoints[k.index]?)

def domain? (m : Model) (k : Key) : Option Domain := (m.file? k.version).bind (·.domains[k.index]?)

def decorator? (m : Model) (k : Key) : Option Decorator :=
  (m.file? k.version).bind (·.decorators[k.index]?)

def fileName (m : Model) (v : VersionId) : String := ((m.file? v).map (·.name)).getD ""

def uses (m : Model) (v : VersionId) : List Reference := ((m.file? v).map (·.uses)).getD []

def modify (m : Model) (v : VersionId) (f : Version → Version) : Model :=
  ⟨m.versions.modify v f⟩

def modifyFile (m : Model) (v : VersionId) (f : ModelFile → ModelFile) : Model :=
  m.modify v fun ver => { ver with file := f ver.file }

def setClass (m : Model) (k : Key) (c : Class) : Model :=
  m.modifyFile k.version fun f => { f with classes := f.classes.set k.index c }

def setEndpoint (m : Model) (k : Key) (e : Endpoint) : Model :=
  m.modifyFile k.version fun f => { f with endpoints := f.endpoints.set k.index e }

def classes (m : Model) (v : VersionId) : List Key := ((m.version? v).map (·.classes)).getD []

def endpoints (m : Model) (v : VersionId) : List Key := ((m.version? v).map (·.endpoints)).getD []

def ownClasses (m : Model) (v : VersionId) : List Key :=
  ((m.version? v).map (·.ownClasses)).getD []

def ownEndpoints (m : Model) (v : VersionId) : List Key :=
  ((m.version? v).map (·.ownEndpoints)).getD []

/-- The domains a version declares, by name. -/
def domainsOf (m : Model) (v : VersionId) : List (String × Key) :=
  (((m.file? v).map (·.domains)).getD []).zipIdx.map fun (d, i) => (d.name, ⟨v, i⟩)

/-- The domains of several versions. Domains are known everywhere, and of two with one name the
later counts. -/
def domainTable (m : Model) (vs : List VersionId) : Table Key :=
  .ofList (vs.flatMap m.domainsOf)

/-- The properties of a version's own classes and endpoints, in order. -/
def properties (m : Model) (v : VersionId) : List Property :=
  (m.ownClasses v).flatMap (fun k => ((m.class? k).map (·.properties)).getD [])
    ++ (m.ownEndpoints v).flatMap fun k => ((m.endpoint? k).map (·.properties)).getD []

def classCount (m : Model) : Nat := (m.versions.toList.map (·.file.classes.length)).foldl (· + ·) 0

/-- The name of an association: that of its class, of the class's only primary key, and the role.
The key may be an association too, so the name may have no end; `fuel` bounds the classes on the
way. -/
def associationName? (m : Model) : Nat → Association → Option String
  | 0, _ => none
  | fuel + 1, a =>
    match a.givenName with
    | some name => some name
    | none =>
      let role := a.role.getD ""
      match ((a.target.bind m.class?).map fun c => (c.name, c.primaryKeys) :
          Option (String × List Property)) with
      | some (name, [.regular key]) => some (name ++ key.name ++ role)
      | some (name, [.association key]) =>
        (m.associationName? fuel key).map fun keyName => name ++ keyName ++ role
      | _ => some (a.reference.name ++ role)

/-- The name of a property; none for an association whose keys go round in a circle. -/
def propertyName? (m : Model) : Property → Option String
  | .regular p => some p.name
  | .association p => m.associationName? (m.classCount + 1) p
  | .composition p => some p.name
  | .alias p => some p.name

end Model
end DataModel
