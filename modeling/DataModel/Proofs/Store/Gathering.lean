import DataModel.Proofs.FileTree.Standing
import DataModel.Proofs.Store.Separating

/-!
Loading everything into a new store. If every model file loads or is empty, all that are not empty
wait for one batch, which holds them as they were loaded; if one does not, it is noted. Where no
links lie below the model root this needs no more than that nothing interrupts it.
-/
namespace DataModel
open DataModel.Resolution (Clean)

/-- The file that a load finds. -/
def Found.file? : Found → Option ModelFile
  | .file f => some f
  | .missing | .empty | .failed => none

/-- A load finds a file, or an empty text. -/
def Found.IsWhole : Found → Prop
  | .file _ | .empty => True
  | .missing | .failed => False

namespace Settings
variable {settings : Settings} {t : FileTree} {p : Path}

/-- A path holds a model file, or an empty text. A directory with the name of a model file does
not. -/
def Loads (settings : Settings) (t : FileTree) (p : Path) : Prop :=
  ∃ name found, settings.attempt? t p = some (name, found) ∧ found.IsWhole

/-- The model file at a path. -/
def file? (settings : Settings) (t : FileTree) (p : Path) : Option ModelFile :=
  (settings.attempt? t p).bind (·.2.file?)

/-- The model files at some paths; a path with an empty text has none. -/
def gathered (settings : Settings) (t : FileTree) (paths : List Path) : List ModelFile :=
  paths.filterMap (settings.file? t)

section Naming
variable {top : Place} {below : List String} {st : Stamp}

/-- Without links below the model root, a model file has the name of its place there. -/
theorem fileName_stands (formed : t.WellFormed) (unlinked : t.Unlinked top)
    (found : t.find settings.modelRoot = .ok (top, .directory st))
    (stands : t.Stands settings.modelRoot top below p) (there : t.exists? p = .ok true) :
    settings.fileName t ⟨"/", []⟩ p =
      .ok (Path.withoutSuffix modelSuffix (⟨"", below⟩ : Path).toString) := by
  obtain ⟨q, node, here⟩ := FileTree.exists_iff.mp there
  obtain ⟨node', here'⟩ := stands.find formed unlinked found (FileTree.find_iff.mp here).1
  have faultless {p : Path} (fits : FileTree.checkPath p = .ok ()) : p.firstNameFault? = none := by
    refine Path.firstNameFault?_eq_none ?_
    unfold FileTree.checkPath at fits
    split at fits
    · cases fits
    · assumption
  have place : FileTree.named p (top ++ below) = .ok ⟨"/", top ++ below⟩ := by
    rw [FileTree.named, faultless (FileTree.find_iff.mp here).1]
  have base : FileTree.named settings.modelRoot top = .ok ⟨"/", top⟩ := by
    rw [FileTree.named, faultless (FileTree.find_iff.mp found).1]
  have inside : (⟨"/", top ++ below⟩ : Path).relativeTo? ⟨"/", top⟩ = some ⟨"", below⟩ := by
    simp [Path.relativeTo?]
  rw [fileName, places_found here' found, place, base]
  show Except.ok (logicalName ⟨"/", top⟩ ⟨"/", top ++ below⟩ p) = _
  rw [logicalName, inside, Option.getD_some]

end Naming

section Finding
variable {f : ModelFile} {paths : List Path} {top : Place} {st : Stamp}

theorem file?_eq_some :
    settings.file? t p = some f ↔ ∃ name, settings.attempt? t p = some (name, .file f) := by
  rw [file?, Option.bind_eq_some_iff]
  constructor
  · rintro ⟨⟨name, found⟩, loaded, file⟩
    cases found with
    | file f' =>
        cases file
        exact ⟨name, loaded⟩
    | missing => cases file
    | empty => cases file
    | failed => cases file
  · rintro ⟨name, loaded⟩
    exact ⟨_, loaded, rfl⟩

/-- A file that is found has the name for which it is loaded. -/
theorem attempt?_file {name : String} (loaded : settings.attempt? t p = some (name, .file f)) :
    settings.fileName t ⟨"/", []⟩ p = .ok name ∧ t.exists? p = .ok true ∧ f.name = name := by
  unfold attempt? Store.attempt? at loaded
  split at loaded
  · cases loaded
  · next name' named =>
    obtain ⟨rfl, found⟩ := Prod.mk.inj (Option.some.inj loaded)
    unfold Store.found at found
    dsimp only at found
    split at found
    · cases found
    · cases found
    · next there =>
      split at found
      · cases found
      · next text read =>
        unfold Store.foundText at found
        split at found
        · cases found
        · cases found
        · next f' parsed =>
          cases found
          exact ⟨named, there, (Grammar.loadText_loadedFrom parsed).name⟩

/-- Without links below the model root, no two model files have one name. -/
theorem nodup_gathered (formed : t.WellFormed) (unlinked : t.Unlinked top)
    (found : t.find settings.modelRoot = .ok (top, .directory st))
    (listed : t.modelFiles settings.modelRoot = .ok paths) :
    ((settings.gathered t paths).map (·.name)).Nodup := by
  have once := FileTree.Once.nodup_modelFiles formed.once found listed
  rw [List.Nodup, List.pairwise_map, gathered, List.pairwise_filterMap]
  refine once.imp_of_mem fun {p p'} member member' other f file f' file' same => other ?_
  obtain ⟨name, loaded⟩ := file?_eq_some.mp file
  obtain ⟨name', loaded'⟩ := file?_eq_some.mp file'
  obtain ⟨named, there, rfl⟩ := attempt?_file loaded
  obtain ⟨named', there', rfl⟩ := attempt?_file loaded'
  obtain ⟨below, here⟩ := FileTree.stands_of_listed found listed member
  obtain ⟨below', here'⟩ := FileTree.stands_of_listed found listed member'
  rw [fileName_stands formed unlinked found here there] at named
  rw [fileName_stands formed unlinked found here' there'] at named'
  refine here.eq_of_name formed here' ?_
  rw [Except.ok.inj named, Except.ok.inj named', same]

end Finding

end Settings

/-- Files as they were loaded, each as the version that its place counts. -/
def Model.ofFiles (files : List ModelFile) : Model := ⟨(files.mapIdx Version.fresh).toArray⟩

/-- A batch of files that are all there is. -/
def Batch.together (files : List ModelFile) : Batch where
  model := .ofFiles files
  view := (files.map (·.name)).zipIdx
  members := List.range files.length

/-- A store in which some files wait for their first batch. -/
def Store.holding (settings : Settings) (watchers : List Watcher) (files : List ModelFile) :
    Store :=
  ⟨settings, watchers, .ofFiles files, [], Table.mapValues some (Batch.together files).view, []⟩

section Together
variable {files : List ModelFile} {f : ModelFile}

theorem Model.add_ofFiles (files : List ModelFile) (f : ModelFile) :
    (Model.ofFiles files).add f = (.ofFiles (files ++ [f]), files.length) := by
  simp [Model.ofFiles, Model.add]

theorem Model.file?_ofFiles (files : List ModelFile) (v : VersionId) :
    (Model.ofFiles files).file? v = files[v]? := by
  simp only [Model.file?, Model.version?, Model.ofFiles, List.getElem?_toArray,
    List.getElem?_mapIdx, Option.map_map]
  cases files[v]? with
  | none => rfl
  | some f => rfl

namespace Batch

theorem view_together_snoc (files : List ModelFile) (f : ModelFile) :
    (together (files ++ [f])).view = (together files).view ++ [(f.name, files.length)] := by
  simp [together, List.zipIdx_append]

theorem keys_together (files : List ModelFile) :
    (together files).view.keys = files.map (·.name) := List.zipIdx_map_fst 0 _

theorem values_together (files : List ModelFile) :
    (together files).view.values = (together files).members := by
  refine (List.zipIdx_map_snd 0 _).trans ?_
  rw [List.length_map, together, List.range_eq_range']

end Batch
end Together

namespace Store
variable {settings : Settings} {watchers : List Watcher} {files : List ModelFile} {t : FileTree}
  {p : Path} {paths : List Path}

/-- The committed files with their names, but for what resolving binds in them. -/
def committedFiles (s : Store) : List (String × Option ModelFile) :=
  s.committed.map fun (name, v) => (name, (s.model.file? v).map ModelFile.bare)

theorem committedFiles_together (files : List ModelFile) (s : Store)
    (waiting : s.model = .ofFiles files) (all : s.committed = (Batch.together files).view) :
    s.committedFiles = files.map fun f => (f.name, some f.bare) := by
  refine List.ext_getElem? fun i => ?_
  rw [committedFiles, all, waiting, Batch.together, List.getElem?_map, List.getElem?_map,
    List.getElem?_zipIdx, List.getElem?_map]
  cases found : files[i]? with
  | none => rfl
  | some f =>
      have place : (Model.ofFiles files).file? (0 + i) = some f := by
        rw [Model.file?_ofFiles, Nat.zero_add, found]
      show some (f.name, ((Model.ofFiles files).file? (0 + i)).map ModelFile.bare) = _
      rw [place]
      rfl

section Holding
variable (once : (files.map (·.name)).Nodup)
include once

theorem view_holding : (holding settings watchers files).view = (Batch.together files).view := by
  rw [view_eq]
  refine Table.update_new (t := []) ?_
  rw [List.nil_append, Batch.keys_together]
  exact once

/-- The first batch holds everything that waits. -/
theorem nextBatch_holding (sound : (holding settings watchers files).Sound) (t : FileTree) :
    (holding settings watchers files).nextBatch t = .ok (Batch.together files) := by
  have view : (holding settings watchers files).view = (Batch.together files).view :=
    view_holding once
  have keys := Batch.keys_together files
  have all : (holding settings watchers files).batchNames = (Batch.together files).view.keys := by
    obtain ⟨inside, names, waiting⟩ := (holding settings watchers files).batchNames_filter
    rw [names, view, List.filter_eq_self]
    refine fun name member => waiting name ?_
    rw [pending]
    show name ∈ (Table.mapValues some (Batch.together files).view).keys
    rw [Table.keys_mapValues]
    exact member
  rw [nextBatch_anew sound rfl, all, view, Table.filterMap_get?_keys (keys ▸ once),
    Batch.values_together]
  rfl

/-- The first batch commits what waits. -/
theorem committedFiles_holding (sound : (holding settings watchers files).Sound) {r : BatchResult}
    (resolved : (Batch.together files).resolve settings = .ok r) {s : Store}
    (model : s.model = r.model)
    (committed : s.committed = (holding settings watchers files).commit (Batch.together files)) :
    s.committedFiles = files.map fun f => (f.name, some f.bare) := by
  -- the disk plays no part in it
  have prepared := nextBatch_prepared sound (nextBatch_holding once sound ⟨[], 0, 0⟩)
  have keeps : (holding settings watchers files).KeepsNames ⟨[], 0, 0⟩ := by
    intro name inside free v file known
    cases known
  have shape := (prepared.resolved sound resolved).2.1
  have waiting := committedFiles_together files { s with model := .ofFiles files } rfl
    (committed.trans (prepared.commit_eq sound keeps))
  rw [← waiting, committedFiles, committedFiles, model]
  refine List.map_congr_left fun p _ => ?_
  exact congrArg (Prod.mk p.1) (shape p.2)

end Holding

section Loading

theorem loadFile_holding (watchers : List Watcher) (loads : settings.Loads t p)
    (once : ((files ++ (settings.file? t p).toList).map (·.name)).Nodup) :
    ((holding settings watchers files).loadFile t p none).result = .ok () ∧
      ((holding settings watchers files).loadFile t p none).store =
        holding settings watchers (files ++ (settings.file? t p).toList) := by
  obtain ⟨name, found, loaded, whole⟩ := loads
  have step := loadFile_loaded (holding settings watchers files) t p none
  rw [show (holding settings watchers files).attempt? t p none = some (name, found) from loaded]
    at step
  cases found with
  | missing => cases whole
  | failed => cases whole
  | empty =>
      have none' : settings.file? t p = none := by
        rw [Settings.file?, loaded]
        rfl
      rw [none', Option.toList_none, List.append_nil]
      exact step.of_empty
  | file f =>
      have some' := Settings.file?_eq_some.mpr ⟨name, loaded⟩
      rw [some', Option.toList_some] at once ⊢
      obtain ⟨result, store⟩ := step.of_file
      refine ⟨result, store.trans ?_⟩
      obtain ⟨-, -, rfl⟩ := Settings.attempt?_file loaded
      have new : f.name ∉ (holding settings watchers files).staged.keys := by
        show f.name ∉ (Table.mapValues some (Batch.together files).view).keys
        rw [Table.keys_mapValues, Batch.keys_together]
        rw [List.map_append, List.nodup_append'] at once
        exact fun member => once.2.2 member (List.mem_singleton_self _)
      rw [stageFile, stage, Table.put_of_not_mem new,
        show (holding settings watchers files).model.add f = _ from Model.add_ofFiles files f]
      show _ = holding settings watchers (files ++ [f])
      rw [holding, holding, Batch.view_together_snoc, Table.mapValues,
        Table.mapValues, List.map_append]
      rfl

/-- Loads of files that are whole do no more than add the files. -/
theorem loadEach_holding (watchers : List Watcher) (files : List ModelFile)
    (loads : ∀ p ∈ paths, settings.Loads t p)
    (once : ((files ++ settings.gathered t paths).map (·.name)).Nodup) :
    ((holding settings watchers files).loadEach t paths).result = .ok () ∧
      ((holding settings watchers files).loadEach t paths).store =
        holding settings watchers (files ++ settings.gathered t paths) := by
  induction paths generalizing files with
  | nil => exact ⟨rfl, by rw [Settings.gathered, List.filterMap_nil, List.append_nil]; rfl⟩
  | cons p rest ih =>
      obtain ⟨first, others⟩ := List.forall_mem_cons.mp loads
      have whole : settings.gathered t (p :: rest) =
          (settings.file? t p).toList ++ settings.gathered t rest := by
        rw [Settings.gathered, List.filterMap_cons]
        cases settings.file? t p <;> rfl
      rw [whole, ← List.append_assoc] at once ⊢
      have sofar := once
      rw [List.map_append, List.nodup_append'] at sofar
      obtain ⟨result, store⟩ := loadFile_holding watchers first sofar.1
      rw [loadEach, Moment.result_andThen, store_andThen, result, store]
      exact ih _ others once

theorem events_andThen {α β : Type} (o : Outcome α) (next : α → Store → Outcome β) :
    (o.andThen next).events = o.events ++ match o.result with
      | .error _ => []
      | .ok a => (next a o.store).events := by
  obtain ⟨result, store, events⟩ := o
  cases result with
  | error i => exact (List.append_nil events).symm
  | ok a => rfl

theorem loadText_logs (s : Store) (name : String) (path : Path) (text : String) :
    ∀ e ∈ (s.loadText name path text).events, ∃ record, e = .log record := by
  unfold loadText
  split
  · exact List.forall_mem_singleton.mpr ⟨_, rfl⟩
  · exact List.forall_mem_nil _
  · exact List.forall_mem_singleton.mpr ⟨_, rfl⟩
  · exact List.forall_mem_nil _

theorem loadFile_logs (s : Store) (t : FileTree) (path : Path) (content : Option String) :
    ∀ e ∈ (s.loadFile t path content).events, ∃ record, e = .log record := by
  unfold loadFile
  split
  · exact List.forall_mem_nil _
  · next name _ =>
    split
    · exact loadText_logs s name path _
    · split
      · exact List.forall_mem_nil _
      · exact List.forall_mem_nil _
      · split
        · exact List.forall_mem_singleton.mpr ⟨_, rfl⟩
        · exact loadText_logs s name path _

/-- Loading files tells the watchers nothing. -/
theorem loadEach_logs (s : Store) (t : FileTree) (paths : List Path) :
    ∀ e ∈ (s.loadEach t paths).events, ∃ record, e = .log record := by
  induction paths generalizing s with
  | nil => exact List.forall_mem_nil _
  | cons p rest ih =>
      rw [loadEach, events_andThen]
      refine List.forall_mem_append.mpr ⟨loadFile_logs s t p none, ?_⟩
      split
      · exact List.forall_mem_nil _
      · exact ih _

end Loading

section Noting
variable {s s' : Store} {top : Place} {st : Stamp}

/-- Whether a load is interrupted is told by the settings. -/
theorem loadFile_result (same : s'.settings = s.settings) (t : FileTree) (p : Path) :
    (s'.loadFile t p none).result = (s.loadFile t p none).result := by
  have named : s'.fileName t p = s.fileName t p := by rw [fileName, fileName, same]
  have parsed (name text : String) : s'.parse name p text = s.parse name p text := by
    rw [parse, parse, same]
  have texts (name text : String) :
      (s'.loadText name p text).result = (s.loadText name p text).result := by
    unfold loadText
    rw [parsed]
    split <;> rfl
  unfold loadFile
  rw [named]
  split
  · rfl
  · dsimp only
    split
    · rfl
    · rfl
    · split
      · rfl
      · exact texts _ _

theorem loadEach_result (ended : (s.loadEach t paths).result = .ok ()) :
    ∀ p ∈ paths, (s.loadFile t p none).result = .ok () := by
  induction paths generalizing s with
  | nil => exact List.forall_mem_nil _
  | cons q rest ih =>
      rw [loadEach, Moment.result_andThen] at ended
      cases result : (s.loadFile t q none).result with
      | error i =>
          rw [result] at ended
          cases ended
      | ok u =>
          rw [result] at ended
          refine List.forall_mem_cons.mpr ⟨result, fun p member => ?_⟩
          rw [← loadFile_result (s.loadFile_settings t q) t p]
          exact ih ended p member

/-- A text whose load is not interrupted is whole or rejected. -/
theorem loadText_whole {name text : String} (ended : (s.loadText name p text).result = .ok ()) :
    (s.foundText name p text).IsWhole ∨
      ∃ r, Grammar.loadText s.settings.app ⟨"", "", text⟩ = .error (.rejected r) := by
  unfold loadText at ended
  unfold foundText
  cases parsed : s.parse name p text with
  | ok file =>
      left
      cases file <;> trivial
  | error failure =>
      rw [parsed] at ended
      cases failure with
      | value f => cases ended
      | rejected r => exact .inr ⟨r, Grammar.loadText_error_iff.mp parsed⟩

/-- Something on the disk is whole, or it cannot be loaded, if its load is not interrupted. -/
theorem loadError?_of_not_loads (there : t.exists? p ≠ .ok false)
    (ended : (s.loadFile t p none).result = .ok ()) (broken : ¬ s.settings.Loads t p) :
    ∃ e, s.settings.loadError? t p = some e := by
  unfold loadFile at ended
  cases named : s.fileName t p with
  | error f =>
      rw [named] at ended
      cases ended
  | ok name =>
      have cut (text : String) (known : t.exists? p = .ok true)
          (read : readText t p = .ok text) : ¬ (s.foundText name p text).IsWhole := by
        refine fun whole => broken ⟨name, _, ?_, whole⟩
        show s.attempt? t p none = _
        simp only [attempt?, named, found, known, read]
      rw [named] at ended
      unfold Settings.loadError?
      cases known : t.exists? p with
      | error f =>
          rw [known] at ended
          cases ended
      | ok answer =>
          cases answer with
          | false => exact absurd known there
          | true =>
              rw [known] at ended
              cases read : t.read p with
              | error f => exact ⟨.unreadable f, rfl⟩
              | ok bytes =>
                  cases decoded : Source.decodeText bytes with
                  | error r => exact ⟨.rejected r, by simp [Grammar.refusal?, decoded]⟩
                  | ok text =>
                      have text' : readText t p = .ok text := by
                        rw [readText, read]
                        exact congrArg (Except.mapError LoadError.rejected) decoded
                      rw [text'] at ended
                      rcases loadText_whole ended with whole | ⟨r, refused⟩
                      · exact absurd whole (cut text known text')
                      · exact ⟨.rejected r, by simp [Grammar.refusal?, decoded, refused]⟩

/-- Without links below the model root, a model file that is not whole is noted. -/
theorem loadEach_broken (formed : t.WellFormed) (unlinked : t.Unlinked top)
    (slashes : s.settings.modelRoot.IsSlashed)
    (found : t.find s.settings.modelRoot = .ok (top, .directory st))
    (listed : t.modelFiles s.settings.modelRoot = .ok paths)
    (ended : (s.loadEach t paths).result = .ok ()) (member : p ∈ paths)
    (broken : ¬ s.settings.Loads t p) : (s.loadEach t paths).store.loadErrors ≠ [] := by
  have stands : ∀ {p}, p ∈ paths → ∃ below, t.Stands s.settings.modelRoot top below p :=
    FileTree.stands_of_listed found listed
  have lists : ∀ p, p ∈ paths → s.settings.Lists t p := fun p inside => ⟨paths, listed, inside⟩
  have split : ∀ p, s.settings.Lists t p → p.Split := by
    rintro p ⟨files, listed', inside⟩
    rw [listed] at listed'
    cases listed'
    obtain ⟨below, here⟩ := stands inside
    exact (here.proper formed (formed.proper found slashes)).split
  have there : t.exists? p ≠ .ok false := by
    obtain ⟨below, here⟩ := stands member
    rcases here.exists? formed unlinked found slashes with known | ⟨f, known⟩
    · simp [known]
    · simp [known]
  obtain ⟨e, failed⟩ := loadError?_of_not_loads there (loadEach_result ended p member) broken
  have noted := loadEach_notes rfl lists ended member failed fun p' inside text =>
    (lists p' inside).eq_of_toString (lists p member) split text
  intro none'
  rw [none'] at noted
  cases noted

/-- Without links below the model root, model files that are all whole wait for the first batch. -/
theorem loadEach_gathers (watchers : List Watcher) (formed : t.WellFormed) (unlinked : t.Unlinked top)
    (found : t.find settings.modelRoot = .ok (top, .directory st))
    (listed : t.modelFiles settings.modelRoot = .ok paths)
    (loads : ∀ p ∈ paths, settings.Loads t p) :
    ((settings.gathered t paths).map (·.name)).Nodup ∧
      (holding settings watchers (settings.gathered t paths)).Sound ∧
      ((holding settings watchers []).loadEach t paths).result = .ok () ∧
      ((holding settings watchers []).loadEach t paths).store =
        holding settings watchers (settings.gathered t paths) := by
  have once := Settings.nodup_gathered formed unlinked found listed
  have begun : (holding settings watchers []).Sound := Sound.new settings watchers
  have sound := (loadEach_keeps begun t paths).2
  obtain ⟨result, store⟩ := loadEach_holding watchers [] loads once
  rw [List.nil_append] at store
  rw [store] at sound
  exact ⟨once, sound, result, store⟩

end Noting

end Store
end DataModel
