import DataModel.Store.Batch
import DataModel.Store.Load

/-!
The operations of a store: loading everything, and reacting to one change.
-/
namespace DataModel.Store

/-- Numbers the watchers. -/
def register (s : Store) : Outcome Unit :=
  let watchers := numbered [] s.watchers
  let names := ", ".intercalate (watchers.map (·.fullName))
  ⟨.ok (), { s with watchers }, [logEvent .info s!"Registered watchers: {names}"]⟩

/-- Forgets everything but the versions that others may still hold. -/
def clear (s : Store) : Store := { s with committed := [], staged := [], loadErrors := [] }

def loadEach (s : Store) (t : FileTree) : List Path → Outcome Unit
  | [] => ⟨.ok (), s, []⟩
  | p :: rest => (s.loadFile t p none).andThen fun _ s => s.loadEach t rest

/-- Loads every model file below the model root and resolves them as one batch. -/
def loadModel (s : Store) (t : FileTree) : Outcome Unit :=
  let root := s.settings.modelRoot
  let begun : Outcome Unit :=
    ⟨.ok (), s.clear, [logEvent .info s!"Loading model from {root.toString}"]⟩
  begun.andThen fun _ s =>
    match t.modelFiles root with
    | .error f => ⟨.error (.file f), s, []⟩
    | .ok files =>
      (s.loadEach t files).andThen fun _ s =>
        (s.applyUpdates t).andThen fun _ s => ⟨.ok (), s, []⟩

/-- Loads or removes one file and applies the batch that comes of it. -/
def onFileChanged (s : Store) (t : FileTree) (path : Path) (content : Option String) :
    Outcome Bool :=
  let begun : Outcome Unit := ⟨.ok (), s, [logEvent .info s!"Changed: {path.toString}"]⟩
  begun.andThen fun _ s =>
    (s.loadFile t path content).andThen fun _ s => s.applyUpdates t

end DataModel.Store
