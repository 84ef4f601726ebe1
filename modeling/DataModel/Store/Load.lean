import DataModel.Source.Encoding
import DataModel.Store.Basic

/-!
Loading one file into the store. A file that loads is staged, a missing one is staged for removal,
an empty one changes nothing, and one that cannot be loaded is noted.
-/
namespace DataModel.Store

def stage (s : Store) (name : String) (change : Option VersionId) : Store :=
  { s with staged := s.staged.put name change }

def clearError (s : Store) (path : Path) : Store :=
  { s with loadErrors := s.loadErrors.erase path.toString }

def noteError (s : Store) (path : Path) (e : LoadError) : Store :=
  { s with loadErrors := s.loadErrors.put path.toString e }

/-- The text of a file. -/
def readText (t : FileTree) (path : Path) : Except LoadError String := do
  let bytes ← (t.read path).mapError .unreadable
  (Source.decodeText bytes).mapError .rejected

/-- The model file that a text at a path holds. -/
def parse (s : Store) (name : String) (path : Path) (text : String) :
    Except Source.Failure (Option ModelFile) :=
  Grammar.loadText s.settings.app ⟨name, path.toString, text⟩

def failedToLoad (s : Store) (path : Path) (e : LoadError) : Outcome Unit :=
  ⟨.ok (), s.noteError path e, [logEvent .error s!"Failed to load {path.toString}: {e.message}"]⟩

/-- Loads a file from its text. -/
def loadText (s : Store) (name : String) (path : Path) (text : String) : Outcome Unit :=
  match s.parse name path text with
  | .error (.rejected r) => s.failedToLoad path (.rejected r)
  | .error (.value f) => ⟨.error (.source (.value f)), s, []⟩
  | .ok none =>
    ⟨.ok (), s.clearError path, [logEvent .debug s!"Ignoring empty file {path.toString}"]⟩
  | .ok (some file) =>
    let (model, id) := s.model.add file
    ⟨.ok (), ({ s with model }.clearError path).stage name (some id), []⟩

/-- Loads a file, from the given text or else from the tree. -/
def loadFile (s : Store) (t : FileTree) (path : Path) (content : Option String) : Outcome Unit :=
  match s.fileName t path with
  | .error f => ⟨.error (.path f), s, []⟩
  | .ok name =>
    match content with
    | some text => s.loadText name path text
    | none =>
      match t.exists? path with
      | .error f => ⟨.error (.file f), s, []⟩
      | .ok false => ⟨.ok (), (s.stage name none).clearError path, []⟩
      | .ok true =>
        match readText t path with
        | .error e => s.failedToLoad path e
        | .ok text => s.loadText name path text

end DataModel.Store
