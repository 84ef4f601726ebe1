import DataModel.Proofs.Store.History
import Mathlib.Logic.Relation

/-!
How the model of a store grows. Whatever happens to a store, files just loaded come to its model,
and versions that are still as they were loaded are resolved in it; nothing else changes it.
-/
namespace DataModel

/-- One step of a model's growth. -/
inductive Model.Grows (settings : Settings) : Model → Model → Prop
  | add {m : Model} {f : ModelFile} (loaded : f.IsLoaded settings.app) :
    Grows settings m (m.add f).1
  | resolve {m n : Model} {v : VersionId} {f : ModelFile} {dependencies : List VersionId}
    {domains : Table Key} {ds : List Diagnostic} (fresh : m.version? v = some (.fresh v f))
    (loaded : f.IsLoaded settings.app)
    (done : m.resolve v dependencies domains settings.allowCompositeKeys = .ok (ds, n)) :
    Grows settings m n

/-- What a model becomes over any number of steps. -/
def Model.Becomes (settings : Settings) : Model → Model → Prop :=
  Relation.ReflTransGen (Model.Grows settings)

namespace Store
variable {s : Store} {t : FileTree}

section Loading

theorem loadText_becomes (s : Store) (name : String) (path : Path) (text : String) :
    s.model.Becomes s.settings (s.loadText name path text).store.model := by
  unfold loadText
  split
  · exact .refl
  · exact .refl
  · exact .refl
  · next file parsed => exact .single (.add (ModelFile.isLoaded_of_loadText parsed))

theorem loadFile_becomes (s : Store) (t : FileTree) (path : Path) (content : Option String) :
    s.model.Becomes s.settings (s.loadFile t path content).store.model := by
  unfold loadFile
  split
  · exact .refl
  · split
    · exact loadText_becomes ..
    · split
      · exact .refl
      · exact .refl
      · split
        · exact .refl
        · exact loadText_becomes ..

theorem loadEach_becomes (sound : s.Sound) (t : FileTree) (paths : List Path) :
    s.model.Becomes s.settings (s.loadEach t paths).store.model := by
  induction paths generalizing s with
  | nil => exact .refl
  | cons path rest ih =>
      have first := loadFile_becomes s t path none
      obtain ⟨extends', sound'⟩ := loadFile_keeps sound t path none
      rw [loadEach, store_andThen]
      split
      · exact first
      · exact first.trans (extends'.settings ▸ ih sound')

end Loading

section Batches
variable {b : Batch} {r : BatchResult}

theorem reload_loaded {m : Model} {v : VersionId} {p : Model × VersionId}
    (again : s.reload t m v = .ok (some p)) : ∃ f, f.IsLoaded s.settings.app ∧ p = m.add f := by
  unfold reload at again
  split at again
  · cases again
  · split at again
    · cases again
    · split at again
      · cases again
      · next fresh parsed =>
        obtain ⟨f, rfl, rfl⟩ := Option.map_eq_some_iff.mp (Except.ok.inj again)
        exact ⟨f, ModelFile.isLoaded_of_loadText parsed, rfl⟩

theorem renew_becomes {m : Model} {view : Table VersionId} {name : String}
    {r : Model × Table VersionId} (ok : s.renew t (m, view) name = .ok r) :
    m.Becomes s.settings r.1 := by
  unfold renew at ok
  dsimp only at ok
  split at ok
  · cases ok
    exact .refl
  · split at ok
    · cases ok
      exact .refl
    · next v _ =>
      cases again : s.reload t m v with
      | error i =>
          rw [again] at ok
          cases ok
      | ok renewed =>
          rw [again] at ok
          cases renewed with
          | none =>
              cases ok
              exact .refl
          | some p =>
              cases ok
              obtain ⟨f, loaded, rfl⟩ := reload_loaded again
              exact .single (.add loaded)

theorem nextBatch_becomes (next : s.nextBatch t = .ok b) : s.model.Becomes s.settings b.model := by
  rw [nextBatch_eq] at next
  cases run : s.batchNames.foldlM (s.renew t) (s.model, s.view) with
  | error i =>
      rw [run] at next
      cases next
  | ok r =>
      rw [run] at next
      cases next
      refine foldlM_ok (I := fun _ r => s.model.Becomes s.settings r.1) ?_ ?_ run
      · exact .refl
      · exact fun _ name _ r r' _ sofar step => sofar.trans (renew_becomes (m := r.1) step)

theorem Prepared.becomes (prepared : s.Prepared t b) (sound : s.Sound)
    (done : b.resolve s.settings = .ok r) : b.model.Becomes s.settings r.model := by
  cases Batch.resolve_ends (prepared.nodup_members sound) done with
  | circle _ _ model _ _ _ =>
      rw [model]
      exact .refl
  | @sorted found _ sorted each _ =>
      have order := Graph.sort_sorted sorted
      have fresh : ∀ v ∈ r.ordered, ∃ f, b.model.version? v = some (.fresh v f) ∧
          f.IsLoaded s.settings.app := fun v hv => prepared.fresh (order.known v hv)
      refine (Batch.resolveEach_ok (I := fun before m _ => b.model.Becomes s.settings m ∧
        ∀ w, w ∉ before → m.version? w = b.model.version? w) ⟨.refl, fun _ _ => rfl⟩ ?_ each).1
      rintro before v after m m' _ ds whole ⟨sofar, others⟩ step
      obtain ⟨f, loaded, isLoaded⟩ := fresh v (whole ▸ List.mem_append_right _ List.mem_cons_self)
      have once := order.once
      rw [whole, List.nodup_append'] at once
      have now := (others v fun early => once.2.2 early List.mem_cons_self).trans loaded
      refine ⟨sofar.tail (.resolve now isLoaded step), fun w hw => ?_⟩
      rw [List.mem_append, List.mem_singleton, not_or] at hw
      exact ((Model.resolve_evolves now step).others hw.2).trans (others w hw.1)

theorem Applied.becomes {result : Except Interruption Bool} {after : Store} (sound : s.Sound)
    (applied : Applied s t result after) : s.model.Becomes s.settings after.model := by
  have whole : ∀ {b : Batch} {r : BatchResult}, s.nextBatch t = .ok b →
      b.resolve s.settings = .ok r → s.model.Becomes s.settings r.model := by
    intro b r next resolved
    exact (nextBatch_becomes next).trans ((nextBatch_prepared sound next).becomes sound resolved)
  cases applied with
  | interrupted => exact .refl
  | rejected next resolved => exact whole next resolved
  | committed next resolved => exact whole next resolved

theorem applyUpdates_becomes (sound : s.Sound) (t : FileTree) :
    s.model.Becomes s.settings (s.applyUpdates t).store.model := by
  by_cases empty : s.staged = []
  · rw [applyUpdates_of_empty empty]
    exact .refl
  · obtain ⟨after, applied, same⟩ := applyUpdates_applied (t := t) empty
    rw [same]
    have grown : s.model.Becomes s.settings after.model := applied.becomes sound
    exact grown

end Batches

end Store

namespace Moment
variable {s : Store}

theorem load_becomes (sound : s.Sound) (a : Moment) :
    s.model.Becomes s.settings (a.load s).store.model := by
  obtain ⟨operation, tree, watchers⟩ := a
  cases operation with
  | loadAll =>
      have cleared : ({ s with watchers } : Store).register.store.clear.Sound :=
        sound.clear.ofSame rfl rfl rfl rfl
      unfold load
      dsimp only
      split
      · exact .refl
      · exact Store.loadEach_becomes cleared tree _
  | apply => exact .refl
  | change path content => exact Store.loadFile_becomes { s with watchers } tree path content

theorem run_becomes (sound : s.Sound) (a : Moment) :
    s.model.Becomes s.settings (a.run s).store.model := by
  have loaded := load_becomes sound a
  cases run_ends a s with
  | early _ _ store =>
      rw [store]
      exact loaded
  | batch _ _ store _ =>
      rw [store]
      refine loaded.trans ?_
      rw [← load_settings sound a]
      exact Store.applyUpdates_becomes (load_extends sound a).1 a.tree

end Moment

/-- The model of a store has grown from nothing, whatever happened to the store. -/
theorem Store.after_becomes (settings : Settings) (history : List Moment) :
    Model.empty.Becomes settings (Store.after settings history).model := by
  induction history using List.reverseRecOn with
  | nil => exact .refl
  | append_singleton before a ih =>
      obtain ⟨sound, same⟩ := Store.after_sound settings before
      rw [Store.after_snoc]
      refine ih.trans ?_
      have step := Moment.run_becomes sound a
      rwa [same] at step

end DataModel
