import DataModel.Proofs.Grammar.Loading
import DataModel.Proofs.Model.Evolution
import DataModel.Proofs.Store.View
import DataModel.Store.Update

/-!
What holds of a store whatever happened to it. The versions that wait for a batch are as they were
loaded, and nothing is linked with them but themselves, so a batch may write to them. Every file
that was loaded can be loaded again from its own text.
-/
namespace DataModel

/-- A file is just what its own text says. -/
def ModelFile.IsLoaded (app : String) (f : ModelFile) : Prop :=
  Grammar.loadText app ⟨f.name, f.path, f.source⟩ = .ok (some f)

theorem ModelFile.IsLoaded.declared {app : String} {f : ModelFile} (h : f.IsLoaded app) :
    f.Declared := (Grammar.loadText_loadedFrom h).declared

theorem ModelFile.IsLoaded.unlinked {app : String} {f : ModelFile} (h : f.IsLoaded app) :
    f.Unlinked := h.declared.unlinked

/-- What a text says is told by the name, the path and the text. -/
theorem ModelFile.IsLoaded.unique {app : String} {f f' : ModelFile} (h : f.IsLoaded app)
    (h' : f'.IsLoaded app) (name : f.name = f'.name) (path : f.path = f'.path)
    (source : f.source = f'.source) : f = f' := by
  rw [IsLoaded, name, path, source] at h
  exact Option.some.inj (Except.ok.inj (h.symm.trans h'))

theorem ModelFile.isLoaded_of_loadText {app : String} {identity : Grammar.FileIdentity}
    {f : ModelFile} (h : Grammar.loadText app identity = .ok (some f)) : f.IsLoaded app := by
  have from' := Grammar.loadText_loadedFrom h
  rw [IsLoaded, from'.name, from'.path, from'.source]
  exact h

namespace Store
variable {s s' s'' : Store}

/-- A version waits for the next batch. -/
def Waits (s : Store) (v : VersionId) : Prop := ∃ name, s.staged.get? name = some (some v)

/-- What a version may be linked with: itself, and what does not wait. -/
def Known (s : Store) (v w : VersionId) : Prop := w = v ∨ (s.model.Has w ∧ ¬ s.Waits w)

structure Sound (s : Store) : Prop where
  stagedOnce : s.staged.keys.Nodup
  committedOnce : s.committed.keys.Nodup
  fresh : ∀ {v}, s.Waits v →
    ∃ f, s.model.version? v = some (.fresh v f) ∧ f.IsLoaded s.settings.app
  named : ∀ {name v}, s.staged.get? name = some (some v) → s.model.fileName v = name
  committed : ∀ {name v}, s.committed.get? name = some v → s.model.Has v ∧ ¬ s.Waits v
  loaded : ∀ {v f}, s.model.file? v = some f →
    ∃ f₀ : ModelFile, f₀.IsLoaded s.settings.app ∧ f₀.bare = f.bare
  linked : ∀ {v ver}, s.model.version? v = some ver → ver.Linked (.of (s.Known v))

/-- A store in which versions came and were staged, and nothing else happened to its files. -/
structure Extends (s s' : Store) : Prop where
  settings : s'.settings = s.settings
  committed : s'.committed = s.committed
  old : ∀ {v}, s.model.Has v → s'.model.version? v = s.model.version? v
  waits : ∀ {v}, s'.Waits v → s.Waits v ∨ ¬ s.model.Has v

namespace Extends

theorem refl (s : Store) : Extends s s := ⟨rfl, rfl, fun _ => rfl, .inl⟩

theorem has (h : Extends s s') {v : VersionId} (there : s.model.Has v) : s'.model.Has v := by
  rw [Model.has_iff] at there ⊢
  rw [h.old (Model.has_iff.mpr there)]
  exact there

theorem trans (h : Extends s s') (h' : Extends s' s'') : Extends s s'' where
  settings := h'.settings.trans h.settings
  committed := h'.committed.trans h.committed
  old there := (h'.old (h.has there)).trans (h.old there)
  waits later := by
    rcases h'.waits later with sooner | new
    · exact h.waits sooner
    · exact .inr fun there => new (h.has there)

end Extends

section Loading

theorem Sound.new (settings : Settings) (watchers : List Watcher) :
    (Store.new settings watchers).Sound where
  stagedOnce := List.nodup_nil
  committedOnce := List.nodup_nil
  fresh := by
    rintro v ⟨name, waiting⟩
    cases waiting
  named found := by cases found
  committed found := by cases found
  loaded found := by cases found
  linked found := by cases found

theorem waits_stage {name : String} {change : Option VersionId} {v : VersionId}
    (h : (s.stage name change).Waits v) : change = some v ∨ s.Waits v := by
  obtain ⟨name', found⟩ := h
  rw [stage, Table.get?_put] at found
  split at found
  · exact .inl (Option.some.inj found)
  · exact .inr ⟨name', found⟩

/-- What waits no longer after something else is staged is free to be linked with. -/
theorem Sound.stage_removal (sound : s.Sound) (name : String) :
    (s.stage name none).Sound where
  stagedOnce := Table.nodup_put sound.stagedOnce
  committedOnce := sound.committedOnce
  fresh waiting := sound.fresh ((waits_stage waiting).resolve_left nofun)
  named := by
    intro name' v found
    rw [stage, Table.get?_put] at found
    split at found
    · cases found
    · exact sound.named found
  committed found := by
    obtain ⟨there, free⟩ := sound.committed found
    exact ⟨there, fun waiting => free ((waits_stage waiting).resolve_left nofun)⟩
  loaded := sound.loaded
  linked found := by
    refine (sound.linked found).mono (Horizon.of_within fun w known => ?_)
    rcases known with same | ⟨there, free⟩
    · exact .inl same
    · exact .inr ⟨there, fun waiting => free ((waits_stage waiting).resolve_left nofun)⟩

theorem extends_stage_removal (s : Store) (name : String) : Extends s (s.stage name none) :=
  ⟨rfl, rfl, fun _ => rfl, fun waiting => .inl ((waits_stage waiting).resolve_left nofun)⟩

/-- A store with one more version, which waits under a name. -/
def stageFile (s : Store) (name : String) (file : ModelFile) : Store :=
  { s with model := (s.model.add file).1 }.stage name (some (s.model.add file).2)

theorem waits_stageFile {name : String} {file : ModelFile} {v : VersionId}
    (h : (s.stageFile name file).Waits v) : v = (s.model.add file).2 ∨ s.Waits v :=
  (waits_stage h).imp_left fun same => (Option.some.inj same).symm

theorem extends_stageFile (s : Store) (name : String) (file : ModelFile) :
    Extends s (s.stageFile name file) where
  settings := rfl
  committed := rfl
  old there := Model.version?_add_old file there
  waits waiting := by
    rcases waits_stageFile waiting with rfl | sooner
    · exact .inr (Model.not_has_add s.model file)
    · exact .inl sooner

theorem Sound.stageFile (sound : s.Sound) {name : String} {file : ModelFile}
    (loaded : file.IsLoaded s.settings.app) (named : file.name = name) :
    (s.stageFile name file).Sound := by
  have old : ∀ {v}, v ≠ (s.model.add file).2 →
      (s.stageFile name file).model.version? v = s.model.version? v := by
    intro v other
    exact (Model.version?_add s.model file v).trans (if_neg other)
  have new : (s.stageFile name file).model.version? (s.model.add file).2 =
      some (.fresh (s.model.add file).2 file) := Model.version?_add_new s.model file
  have apart : ∀ {v}, s.model.Has v → v ≠ (s.model.add file).2 := by
    rintro v there rfl
    exact Model.not_has_add s.model file there
  have free : ∀ {v}, s.model.Has v → ¬ s.Waits v → ¬ (s.stageFile name file).Waits v :=
    fun there free waiting => (waits_stageFile waiting).elim (apart there) free
  refine ⟨Table.nodup_put sound.stagedOnce, sound.committedOnce, ?_, ?_, ?_, ?_, ?_⟩
  · intro v waiting
    rcases waits_stageFile waiting with rfl | sooner
    · exact ⟨file, new, loaded⟩
    · obtain ⟨f, found, same⟩ := sound.fresh sooner
      exact ⟨f, (old (apart (Model.has_of_version? found))).trans found, same⟩
  · intro name' v found
    rw [Store.stageFile, stage, Table.get?_put] at found
    split at found
    · next same =>
        cases found
        rw [Model.fileName, Model.file?, new, same]
        exact named
    · obtain ⟨f, here, -⟩ := sound.fresh ⟨name', found⟩
      rw [Model.fileName_congr (old (apart (Model.has_of_version? here)))]
      exact sound.named found
  · intro name' v found
    obtain ⟨there, settled⟩ := sound.committed found
    exact ⟨(extends_stageFile s name file).has there, free there settled⟩
  · intro v f found
    by_cases here : v = (s.model.add file).2
    · subst here
      rw [Model.file?, new, Option.map_some] at found
      cases found
      exact ⟨file, loaded, rfl⟩
    · rw [Model.file?_congr (old here)] at found
      exact sound.loaded found
  · intro v ver found
    by_cases here : v = (s.model.add file).2
    · subst here
      rw [new] at found
      cases found
      exact Version.fresh_linked loaded.unlinked (.inl rfl)
    · rw [old here] at found
      refine (sound.linked found).mono (Horizon.of_within fun w known => ?_)
      rcases known with same | ⟨there, settled⟩
      · exact .inl same
      · exact .inr ⟨(extends_stageFile s name file).has there, free there settled⟩

/-- Neither noted errors nor watchers matter. -/
theorem Sound.ofSame (sound : s.Sound) (settings : s'.settings = s.settings)
    (model : s'.model = s.model) (committed : s'.committed = s.committed)
    (staged : s'.staged = s.staged) : s'.Sound := by
  obtain ⟨_, _, _, _, _, _⟩ := s
  obtain ⟨_, _, _, _, _, _⟩ := s'
  dsimp only at settings model committed staged
  subst settings model committed staged
  exact ⟨sound.stagedOnce, sound.committedOnce, sound.fresh, sound.named, sound.committed,
    sound.loaded, sound.linked⟩

/-- Forgetting the files frees what waited. -/
theorem Sound.clear (sound : s.Sound) : s.clear.Sound where
  stagedOnce := List.nodup_nil
  committedOnce := List.nodup_nil
  fresh := by
    rintro v ⟨name, waiting⟩
    cases waiting
  named found := by cases found
  committed found := by cases found
  loaded := sound.loaded
  linked found := by
    refine (sound.linked found).mono (Horizon.of_within fun w known => ?_)
    rcases known with same | ⟨there, -⟩
    · exact .inl same
    · refine .inr ⟨there, ?_⟩
      rintro ⟨name, waiting⟩
      cases waiting

theorem loadText_keeps (sound : s.Sound) (name : String) (path : Path) (text : String) :
    Extends s (s.loadText name path text).store ∧ (s.loadText name path text).store.Sound := by
  unfold loadText
  split
  · exact ⟨⟨rfl, rfl, fun _ => rfl, .inl⟩, sound.ofSame rfl rfl rfl rfl⟩
  · exact ⟨.refl s, sound⟩
  · exact ⟨⟨rfl, rfl, fun _ => rfl, .inl⟩, sound.ofSame rfl rfl rfl rfl⟩
  · next file parsed =>
      have loaded := ModelFile.isLoaded_of_loadText parsed
      have named := (Grammar.loadText_loadedFrom parsed).name
      have base := extends_stageFile s name file
      exact ⟨⟨rfl, rfl, base.old, base.waits⟩,
        (sound.stageFile loaded named).ofSame rfl rfl rfl rfl⟩

theorem loadFile_keeps (sound : s.Sound) (t : FileTree) (path : Path) (content : Option String) :
    Extends s (s.loadFile t path content).store ∧ (s.loadFile t path content).store.Sound := by
  unfold loadFile
  split
  · exact ⟨.refl s, sound⟩
  · next name _ =>
      split
      · exact loadText_keeps sound ..
      · split
        · exact ⟨.refl s, sound⟩
        · have base := extends_stage_removal s name
          exact ⟨⟨rfl, rfl, base.old, base.waits⟩,
            (sound.stage_removal name).ofSame rfl rfl rfl rfl⟩
        · split
          · exact ⟨⟨rfl, rfl, fun _ => rfl, .inl⟩, sound.ofSame rfl rfl rfl rfl⟩
          · exact loadText_keeps sound ..

theorem store_andThen {α β : Type} (o : Outcome α) (next : α → Store → Outcome β) :
    (o.andThen next).store = match o.result with
      | .error _ => o.store
      | .ok a => (next a o.store).store := by
  obtain ⟨result, store, events⟩ := o
  cases result with
  | error i => rfl
  | ok a => rfl

theorem loadEach_keeps (sound : s.Sound) (t : FileTree) (paths : List Path) :
    Extends s (s.loadEach t paths).store ∧ (s.loadEach t paths).store.Sound := by
  induction paths generalizing s with
  | nil => exact ⟨.refl s, sound⟩
  | cons path rest ih =>
      obtain ⟨first, sound'⟩ := loadFile_keeps sound t path none
      rw [loadEach, store_andThen]
      split
      · exact ⟨first, sound'⟩
      · obtain ⟨later, sound''⟩ := ih sound'
        exact ⟨first.trans later, sound''⟩

end Loading

end Store
end DataModel
