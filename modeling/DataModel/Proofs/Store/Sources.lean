import DataModel.Proofs.Store.Atomic

/-!
The texts of the committed files. Loading changes none of them, and neither does a batch with
errors. A batch without errors takes away the texts of the files to be removed, gives those that
were loaded theirs, and leaves all others.
-/
namespace DataModel

theorem Model.KeepsShape.source {m m' : Model} (h : m.KeepsShape m') (v : VersionId) :
    (m'.file? v).map (·.source) = (m.file? v).map (·.source) := by
  have same := congrArg (Option.map ModelFile.source) (h v)
  simpa [Option.map_map, Function.comp_def, ModelFile.bare] using same

namespace Store
variable {s s' : Store} {t : FileTree} {b : Batch} {r : BatchResult} {name : String}

/-- The text of a version. -/
def sourceOf? (s : Store) (v : VersionId) : Option String := (s.model.file? v).map (·.source)

/-- The text of a committed file. -/
def source? (s : Store) (name : String) : Option String := (s.file? name).bind s.sourceOf?

theorem sourceOf?_congr {v : VersionId} (same : s'.model.version? v = s.model.version? v) :
    s'.sourceOf? v = s.sourceOf? v := by
  rw [sourceOf?, Model.file?_congr same, sourceOf?]

/-- Where no committed file changes, no text does. -/
theorem source?_congr (committed : s'.committed = s.committed)
    (old : ∀ {v}, s.committed.get? name = some v → s'.model.version? v = s.model.version? v) :
    s'.source? name = s.source? name := by
  rw [source?, file?, committed, source?, file?]
  cases known : s.committed.get? name with
  | none => rfl
  | some v => exact sourceOf?_congr (old known)

theorem Extends.source? (h : Extends s s') (sound : s.Sound) (name : String) :
    s'.source? name = s.source? name :=
  source?_congr h.committed fun known => h.old (sound.committed known).1

section Batches

namespace Prepared
variable (h : s.Prepared t b) (sound : s.Sound)
include h sound

/-- The text of a file that does not wait is the same in the next batch. -/
theorem source_kept (free : s.staged.get? name = none) :
    ((b.view.get? name).bind fun v => (b.model.file? v).map (·.source)) = s.source? name := by
  have apart : name ∉ s.pending := Table.get?_eq_none_iff.mp free
  by_cases inside : name ∈ s.batchNames
  · obtain ⟨v, found⟩ := Table.exists_get? (h.keys ▸ mem_view_of_batchNames inside)
    obtain ⟨f, fresh, -, origin⟩ := h.member inside found
    rcases origin with staged | ⟨-, -, w, old, known, file, -, source, -⟩
    · rw [free] at staged
      cases staged
    · have file' : b.model.file? v = some f := by
        rw [Model.file?, fresh]
        rfl
      simp [found, source?, file?, sourceOf?, known, file, file', source]
  · rw [h.kept inside, get?_view_unstaged sound.stagedOnce apart, source?, file?]
    cases known : s.committed.get? name with
    | none => rfl
    | some v =>
        have same := Model.file?_congr (h.old (sound.committed known).1)
        simp [sourceOf?, same]

end Prepared

/-- The texts after a batch that is committed. -/
theorem source?_committed (sound : s.Sound) (keeps : s.KeepsNames t) (next : s.nextBatch t = .ok b)
    (resolved : b.resolve s.settings = .ok r) (model : s'.model = r.model)
    (committed : s'.committed = s.commit b) : s'.source? name = match s.staged.get? name with
      | some none => none
      | some (some v) => s.sourceOf? v
      | none => s.source? name := by
  have prepared := nextBatch_prepared sound next
  have shape := (prepared.resolved sound resolved).2.1
  have sources : ∀ v, s'.sourceOf? v = (b.model.file? v).map (·.source) := by
    intro v
    rw [sourceOf?, model]
    exact shape.source v
  have after : s'.source? name =
      (b.view.get? name).bind fun v => (b.model.file? v).map (·.source) := by
    rw [source?, file?, committed, prepared.commit_eq sound keeps]
    exact congrArg _ (funext sources)
  cases change : s.staged.get? name with
  | none => exact after.trans (prepared.source_kept sound change)
  | some c =>
      cases c with
      | none =>
          have gone : b.view.get? name = none := by
            rw [Table.get?_eq_none_iff, prepared.keys]
            exact removed_not_viewed sound.stagedOnce change
          rw [after, gone]
          rfl
      | some v =>
          have there := has_of_waits sound ⟨name, change⟩
          have same := Model.file?_congr (prepared.old there)
          rw [after, prepared.get?_staged sound change]
          simp [sourceOf?, same]

/-- What applying does to the texts and to what waits: there was nothing to do; the texts stay and
so do the removals; or what waited is done. -/
inductive Moves (s : Store) : Except Interruption Bool → Store → Prop
  | idle (empty : s.staged = []) : Moves s (.ok true) s
  | stays {result : Except Interruption Bool} {s' : Store} (told : result ≠ .ok true)
    (staged : s'.staged = s.removals) (sources : ∀ name, s'.source? name = s.source? name) :
    Moves s result s'
  | done {result : Except Interruption Bool} {s' : Store} (staged : s'.staged = s.leftover result)
    (sources : ∀ name, s'.source? name = match s.staged.get? name with
      | some none => none
      | some (some v) => s.sourceOf? v
      | none => s.source? name) : Moves s result s'

theorem applyUpdates_moves (sound : s.Sound)
    (keeps : (s.applyUpdates t).store.committed ≠ s.committed → s.KeepsNames t) :
    s.Moves (s.applyUpdates t).result (s.applyUpdates t).store := by
  by_cases empty : s.staged = []
  · rw [applyUpdates_of_empty empty]
    exact .idle empty
  · obtain ⟨after, applied, same⟩ := applyUpdates_applied (t := t) empty
    obtain ⟨-, -, old⟩ := applied.keeps sound
    have kept : after.committed = s.committed →
        ∀ name, (s.applyUpdates t).store.source? name = s.source? name := by
      intro committed name
      rw [same]
      refine source?_congr committed fun known => ?_
      exact old (sound.committed known).1 (sound.committed known).2
    rw [same] at keeps kept ⊢
    generalize (s.applyUpdates t).result = result at applied keeps kept ⊢
    cases applied with
    | interrupted i _ => exact .stays nofun rfl (kept rfl)
    | rejected next resolved told _ =>
        rcases told with rfl | ⟨w, rfl⟩
        · exact .stays (by simp) rfl (kept rfl)
        · exact .stays (by simp) rfl (kept rfl)
    | committed next resolved _ _ =>
        have names := (nextBatch_prepared sound next).keepsNames sound keeps
        exact .done rfl fun name => source?_committed sound names next resolved rfl rfl

end Batches

end Store
end DataModel
