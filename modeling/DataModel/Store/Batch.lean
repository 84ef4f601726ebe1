import DataModel.Model.Graph
import DataModel.Store.Basic

/-!
Batches. A batch holds the pending files and all that use them; when domains are involved it holds
every file, since a domain is known everywhere. The batch is resolved in the order of its
dependencies, and committed as a whole or not at all.
-/
namespace DataModel

structure Batch where
  model : Model
  /-- All files as they are after the batch. -/
  view : Table VersionId
  /-- The files that are resolved. -/
  members : List VersionId

/-- What resolving a batch gives. -/
structure BatchResult where
  model : Model
  found : List (VersionId × List Diagnostic)
  /-- The resolved files in the order of their dependencies; none if there is a circle. -/
  ordered : List VersionId

namespace Batch

/-- The files of the batch's view that a version uses. -/
def dependencies (b : Batch) (v : VersionId) : List VersionId :=
  (b.model.uses v).filterMap fun u => b.view.get? u.name

/-- Resolves versions one after the other. -/
def resolveEach (b : Batch) (settings : Settings) (domains : Table Key) (ordered : List VersionId) :
    Except Resolution.Stuck (Model × List (VersionId × List Diagnostic)) :=
  ordered.foldlM (fun (m, found) v => do
    let (ds, m) ← m.resolve v (b.dependencies v) domains settings.allowCompositeKeys
    return (m, found ++ [(v, ds.filter fun d => d.isError || !settings.isSuppressed d.code)]))
    (b.model, [])

/-- Resolves the whole batch. Every member has an entry; a circle is an error of its first file. -/
def resolve (b : Batch) (settings : Settings) : Except Resolution.Stuck BatchResult := do
  let (m, found, ordered) ←
    match Graph.sortVersions b.model b.dependencies b.members with
    | .error circle =>
      pure (b.model, (circle.versions.head?.map fun v => (v, circle.diagnostic.toList)).toList, [])
    | .ok ordered => do
      let (m, found) ← b.resolveEach settings (b.model.domainTable b.view.values) ordered
      pure (m, found, ordered)
  return ⟨m, b.members.map fun v => (v, (found.lookup v).getD []), ordered⟩

end Batch

namespace Store

def declaresDomains (s : Store) (v : VersionId) : Bool :=
  ((s.model.file? v).map fun f => !f.domains.isEmpty).getD false

/-- The names of the files in the next batch. -/
def batchNames (s : Store) : List String :=
  let view := s.view
  let uses := view.map fun (n, v) => (n, (s.model.uses v).map (·.name))
  let affected := Graph.affected uses s.pending
  if (s.pending.filterMap s.committed.get?).any s.declaresDomains
      || (affected.filterMap view.get?).any s.declaresDomains then view.keys
  else affected

/-- A fresh version of a committed file, from its own text. -/
def reload (s : Store) (t : FileTree) (m : Model) (v : VersionId) :
    Except Interruption (Option (Model × VersionId)) :=
  match m.file? v with
  | none => .ok none
  | some file =>
    match s.fileName t (.ofString file.path) with
    | .error f => .error (.path f)
    | .ok name =>
      match Grammar.loadText s.settings.app ⟨name, file.path, file.source⟩ with
      | .error f => .error (.source f)
      | .ok fresh => .ok (fresh.map m.add)

/-- The next batch. Its files are the staged ones and fresh versions of the others. -/
def nextBatch (s : Store) (t : FileTree) : Except Interruption Batch := do
  let names := s.batchNames
  let (model, view) ← names.foldlM (fun (m, view) name => do
    if s.staged.has name then return (m, view)
    else
      match view.get? name with
      | none => return (m, view)
      | some v =>
        match ← s.reload t m v with
        | none => return (m, view)
        | some (m, fresh) => return (m, view.put name fresh)) (s.model, s.view)
  return ⟨model, view, names.filterMap view.get?⟩

/-- Tells every watcher; the first one that fails is the last one told. -/
def tell (stage : Stage) (event : String → StoreEvent) :
    List Watcher → List StoreEvent × Option Interruption
  | [] => ([], none)
  | w :: rest =>
    if w.failing = some stage then ([event w.fullName], some (.watcher w.fullName stage))
    else
      let (events, i) := tell stage event rest
      (event w.fullName :: events, i)

/-- The log of a batch's diagnostics: the errors, then the warnings, then their number. -/
def reportEvents (m : Model) (found : List Diagnostic) : List StoreEvent :=
  let errors := found.filter (·.isError)
  let warnings := found.filter (!·.isError)
  errors.map (fun d => logEvent .error (d.text m))
    ++ warnings.map (fun d => logEvent .warning (d.text m))
    ++ if errors.isEmpty then []
      else [logEvent .error s!"Model update failed with {errors.length} error(s)"]

/-- The committed files after a batch. -/
def commit (s : Store) (b : Batch) : Table VersionId :=
  let kept := s.removals.foldl (fun (files : Table VersionId) r => files.erase r.1) s.committed
  b.members.foldl (fun (files : Table VersionId) v => files.put (b.model.fileName v) v) kept

/-- Resolves the next batch and commits it if it has no errors. -/
def applyBatch (s : Store) (t : FileTree) : Outcome Bool :=
  match s.nextBatch t with
  | .error i => ⟨.error i, s, []⟩
  | .ok b =>
    match b.resolve s.settings with
    | .error stuck => ⟨.error (.stuck stuck), s, []⟩
    | .ok r =>
      let s := { s with model := r.model }
      let (told, failure) := tell .errors (.diagnosed · r.found) s.watchers
      match failure with
      | some i => ⟨.error i, s, told⟩
      | none =>
        let found := r.found.flatMap (·.2)
        let report := reportEvents r.model found
        if found.any (·.isError) then ⟨.ok false, s, told ++ report⟩
        else
          let s := { s with committed := s.commit b }
          let updated := logEvent .info s!"Model updated: {r.ordered.length} file(s) resolved"
          let (toldFiles, failure) := tell .changed (.changed · r.ordered) s.watchers
          let events := told ++ report ++ [updated] ++ toldFiles
          match failure with
          | some i => ⟨.error i, s, events⟩
          | none => ⟨.ok true, s, events⟩

/-- Applies what is pending. Whatever happens, nothing stays staged but the removals of a batch
that did not come to its end. -/
def applyUpdates (s : Store) (t : FileTree) : Outcome Bool :=
  if s.staged.isEmpty then ⟨.ok true, s, []⟩
  else
    let o := s.applyBatch t
    let staged :=
      match o.result with
      | .ok true => []
      | _ => s.removals
    { o with store := { o.store with staged } }

end Store
end DataModel
