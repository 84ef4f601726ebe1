import DataModel.Resolution.Checks

/-!
Resolving a file: collapsing what an earlier run expanded, binding, expanding aliases, re-exporting
what the file's aliases name, and checking the result. All problems are diagnostics, in the order
of these steps.
-/
namespace DataModel.Resolution

/-- Puts an entity in the place of the one of its name, or behind all. -/
def replaceOrAppend (nameOf : Key → Option String) (k : Key) : List Key → List Key
  | [] => [k]
  | e :: rest => if nameOf e == nameOf k then k :: rest else e :: replaceOrAppend nameOf k rest

def addIfNew (k : Key) (ks : List Key) : List Key := if ks.contains k then ks else ks ++ [k]

def className? (m : Model) (k : Key) : Option String := (m.class? k).map (·.name)

def endpointName? (m : Model) (k : Key) : Option String := (m.endpoint? k).map (·.name)

def shareClass (m : Model) (self : VersionId) (k : Key) : Model :=
  m.modify self fun v => { v with
    classes := replaceOrAppend (className? m) k v.classes
    sharedClasses := addIfNew k v.sharedClasses }

def shareEndpoint (m : Model) (self : VersionId) (k : Key) : Model :=
  m.modify self fun v => { v with
    endpoints := replaceOrAppend (endpointName? m) k v.endpoints
    sharedEndpoints := addIfNew k v.sharedEndpoints }

/-- Re-exports the entities of a file that an alias lists. -/
def shareListed (s : Scope) (a : FileAlias) (missing : Finding) (offered : Model → List Key)
    (name? : Model → Key → Option String) (share : Model → VersionId → Key → Model)
    (listed : List Reference) (m : Model) : Noting Model :=
  listed.foldlM (fun m (r : Reference) => do
    match (offered m).find? fun k => name? m k == some r.name with
    | some k => return share m s.self k
    | none => report s missing (.fileAlias a) r; return m) m

def shareAlias (s : Scope) (m : Model) (a : FileAlias) : Noting Model := do
  match s.dependencies.get? a.file.name with
  | none => report s .missingAliasFile (.fileAlias a) a.file; return m
  | some source =>
    let name := m.fileName source
    markUsed name
    let m ← shareListed s a (.classNotInFile name) (·.classes source) className? shareClass
      a.classes m
    shareListed s a (.endpointNotInFile name) (·.endpoints source) endpointName? shareEndpoint
      a.endpoints m

def shareAliases (s : Scope) (m : Model) : Noting Model :=
  (((m.file? s.self).map (·.aliases)).getD []).foldlM (shareAlias s) m

/-- All steps of resolving a file. -/
def steps (s : Scope) (allowCompositeKeys : Bool) (m : Model) : Noting Model := do
  let missing := missingUses m s
  checkUses m s
  let m ← collapseAll s m
  let m ← bind s m
  let m ← expandAll s m
  let m ← shareAliases s m
  if !allowCompositeKeys then checkKeys s m
  checkDuplicates s m
  checkUnusedUses s missing m
  checkUsesOrder s missing m
  return m

end DataModel.Resolution

namespace DataModel.Model
open Resolution

/-- Resolves a file against the files it uses and the known domains. -/
def resolve (m : Model) (file : VersionId) (dependencies : List VersionId) (domains : Table Key)
    (allowCompositeKeys : Bool) : Except Stuck (List Diagnostic × Model) := do
  let s := Scope.of m file dependencies domains
  let (m, notes) ← (steps s allowCompositeKeys m).run ⟨[], []⟩
  return (notes.diagnostics, m)

end DataModel.Model
