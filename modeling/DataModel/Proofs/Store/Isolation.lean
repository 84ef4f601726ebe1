import DataModel.Proofs.Model.Reach
import DataModel.Proofs.Store.History

/-!
Batches leave alone what is committed. Whatever can be reached from a committed file stays as it is
under every operation, and a batch with errors changes no file and keeps of what was pending the
removals only.
-/
namespace DataModel
variable {s : Store} {t : FileTree}

namespace Store

/-- What can be reached from a version that does not wait is there and does not wait. -/
theorem Sound.reached (sound : s.Sound) {v w : VersionId} (h : s.model.Reaches v w)
    (there : s.model.Has v) (free : ¬ s.Waits v) : s.model.Has w ∧ ¬ s.Waits w := by
  refine h.within (P := fun w => s.model.Has w ∧ ¬ s.Waits w) ⟨there, free⟩ ?_
  intro u ver known found
  refine (sound.linked found).mono (Horizon.of_within fun w => ?_)
  rintro (rfl | known')
  · exact known
  · exact known'

theorem batchNames_of_empty (h : s.staged = []) : s.batchNames = [] := by
  rw [batchNames, pending, h]
  simp [Graph.affected, Graph.affectedNames, Graph.reach]

/-- What a circle in a batch leads to: the batch is not resolved, and its only diagnostic is an
error. -/
structure Circular (b : Batch) (r : BatchResult) : Prop where
  model : r.model = b.model
  ordered : r.ordered = []
  only : ∃ d, r.found.flatMap (·.2) = [d] ∧ d.isError = true

theorem resolve_circular {b : Batch} {r : BatchResult} (once : b.members.Nodup)
    {circle : List VersionId} (h : Graph.IsCircle b.dependencies b.members circle)
    {settings : Settings} (done : b.resolve settings = .ok r) : Circular b r := by
  obtain ⟨circle', fails⟩ := Graph.sort_fails_iff.mpr ⟨circle, h⟩
  cases Batch.resolve_ends once done with
  | circle _ error model ordered _ only => exact ⟨model, ordered, _, only, error⟩
  | sorted sorted _ _ =>
      rw [fails] at sorted
      cases sorted

/-- A batch with a circle can always be resolved, if only to its error. -/
theorem resolve_of_circle {b : Batch} {circle : List VersionId}
    (h : Graph.IsCircle b.dependencies b.members circle) (settings : Settings) :
    ∃ r, b.resolve settings = .ok r := by
  obtain ⟨circle', fails⟩ := Graph.sort_fails_iff.mpr ⟨circle, h⟩
  rw [Batch.resolve, Graph.sortVersions, fails]
  exact ⟨_, rfl⟩

/-- What a rejected batch leaves behind. -/
structure Rejected (s s' : Store) : Prop where
  committed : s'.committed = s.committed
  staged : s'.staged = s.removals
  pending : s'.pending = s.removals.keys

theorem applyUpdates_rejected (h : (s.applyUpdates t).result = .ok false) :
    s.Rejected (s.applyUpdates t).store := by
  by_cases empty : s.staged = []
  · rw [applyUpdates_of_empty empty] at h
    cases h
  · obtain ⟨after, applied, same⟩ := applyUpdates_applied (t := t) empty
    rw [h] at applied same
    have committed : after.committed = s.committed := by
      cases applied with
      | rejected _ _ _ _ => rfl
      | committed _ _ told _ => exact absurd told (by simp)
    rw [same]
    exact ⟨committed, rfl, rfl⟩

/-- A pending circle is rejected unless a watcher fails on hearing of it. -/
theorem applyUpdates_circular (sound : s.Sound) {b : Batch} (next : s.nextBatch t = .ok b)
    {circle : List VersionId} (h : Graph.IsCircle b.dependencies b.members circle) :
    ((s.applyUpdates t).result = .ok false ∨
      ∃ w, (s.applyUpdates t).result = .error (.watcher w .errors)) ∧
    (s.applyUpdates t).store.committed = s.committed := by
  have prepared := nextBatch_prepared sound next
  obtain ⟨r, done⟩ := resolve_of_circle h s.settings
  have circular := resolve_circular (prepared.nodup_members sound) h done
  have staged : s.staged ≠ [] := by
    intro empty
    obtain ⟨⟨x, inner, rfl⟩, known, -⟩ := h
    have member := known x List.mem_cons_self
    rw [prepared.members, batchNames_of_empty empty] at member
    cases member
  obtain ⟨after, applied, same⟩ := applyUpdates_applied (t := t) staged
  rw [same]
  generalize (s.applyUpdates t).result = result at applied
  cases applied with
  | interrupted i unresolved => exact absurd done (unresolved b next r)
  | rejected _ _ told _ => exact ⟨told, rfl⟩
  | committed next' done' _ clean =>
      rw [next] at next'
      cases next'
      rw [done] at done'
      cases done'
      obtain ⟨d, only, error⟩ := circular.only
      rw [only] at clean
      rw [clean d (List.mem_singleton_self d)] at error
      cases error

/-- After any history, no operation writes to what a committed file reaches. An operation that
answers no leaves the committed files as they are, in their order, and of what was pending the
removals. A batch with a circle resolves no file, reports one error in all, and commits nothing. -/
theorem committed_isolated (settings : Settings) (history : List Moment) (a : Moment) :
    let s := after settings history
    let loaded := (a.load s).store
    (∀ name v w, s.committed.get? name = some v → s.model.Reaches v w → s.model.Has w ∧
      (a.run s).store.model.version? w = s.model.version? w) ∧
    ((a.run s).result = .ok (some false) → (a.run s).store.committed = s.committed ∧
      loaded.Rejected (a.run s).store) ∧
    ∀ b circle, (a.load s).result = .ok () → loaded.nextBatch a.tree = .ok b →
      Graph.IsCircle b.dependencies b.members circle →
      (∃ r, b.resolve settings = .ok r ∧ Circular b r) ∧
      ((loaded.applyUpdates a.tree).result = .ok false ∨
        ∃ w, (loaded.applyUpdates a.tree).result = .error (.watcher w .errors)) ∧
      (a.run s).store.committed = loaded.committed := by
  obtain ⟨sound, same⟩ := after_sound settings history
  dsimp only
  generalize after settings history = s at sound same
  have loaded := (Moment.load_extends sound a).1
  refine ⟨?_, ?_, ?_⟩
  · intro name v w found reached
    obtain ⟨there, free⟩ := sound.committed found
    obtain ⟨there', free'⟩ := sound.reached reached there free
    exact ⟨there', (Moment.run_keeps sound a).2.2 there' free'⟩
  · intro rejected
    cases Moment.run_ends a s with
    | early _ result _ =>
        rw [result] at rejected
        cases rejected
    | @batch f _ result store told =>
        rw [rejected] at result
        cases answer : ((a.load s).store.applyUpdates a.tree).result with
        | error i =>
            rw [answer] at result
            cases result
        | ok x =>
            rw [answer] at result
            obtain ⟨rfl, some'⟩ := told x false (Except.ok.inj result).symm
            have left := applyUpdates_rejected answer
            rw [store]
            exact ⟨left.committed.trans (Moment.load_part sound some').2.committed, left⟩
  · intro b circle load next h
    obtain ⟨r, done⟩ := resolve_of_circle h settings
    have circular := resolve_circular
      ((nextBatch_prepared loaded next).nodup_members loaded) h done
    obtain ⟨told, committed⟩ := applyUpdates_circular loaded next h
    refine ⟨⟨r, done, circular⟩, told, ?_⟩
    cases Moment.run_ends a s with
    | early failed _ _ =>
        rw [load] at failed
        cases failed
    | batch _ _ store _ =>
        rw [store]
        exact committed

end Store
end DataModel
