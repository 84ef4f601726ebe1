import DataModel.Proofs.Store.Attempts
import DataModel.Proofs.Store.Isolation

/-!
Batches are committed as a whole or not at all. Whichever watcher fails on the errors of a batch,
the store is as it was, and of what was pending it keeps the removals; one that fails when a batch
is committed already must not meet a removal, which would be kept too.
-/
namespace DataModel.Store
variable {s : Store} {t : FileTree} {b : Batch} {r : BatchResult}

section Telling

theorem tell_all {stage : Stage} (event : String → StoreEvent) {watchers : List Watcher}
    (quiet : ∀ w ∈ watchers, w.failing ≠ some stage) : (tell stage event watchers).2 = none := by
  induction watchers with
  | nil => rfl
  | cons w rest ih =>
      rw [tell, if_neg (quiet w List.mem_cons_self)]
      exact ih fun w' member => quiet w' (List.mem_cons_of_mem _ member)

/-- If no watcher fails on changes, a batch without errors is not interrupted by telling them. -/
theorem applyUpdates_told (quiet : ∀ w ∈ s.watchers, w.failing ≠ some .changed)
    (next : s.nextBatch t = .ok b) (resolved : b.resolve s.settings = .ok r)
    (clean : Resolution.Clean (r.found.flatMap (·.2))) (name : String) :
    (s.applyUpdates t).result ≠ .error (.watcher name .changed) := by
  have fine : (r.found.flatMap (·.2)).any (·.isError) = false := clean_iff.mpr clean
  have told := tell_all (.changed · r.ordered) quiet
  suffices batch : (s.applyBatch t).result ≠ .error (.watcher name .changed) by
    rw [applyUpdates]
    split
    · intro same
      cases same
    · exact batch
  rw [applyBatch, next]
  dsimp only
  rw [resolved]
  dsimp only
  cases errors : (tell .errors (.diagnosed · r.found) s.watchers).2 with
  | some i =>
      obtain ⟨w, rfl⟩ := tell_watcher errors
      simp
  | none => simp [fine, told]

end Telling

section Naming

namespace Prepared
variable (h : s.Prepared t b) (sound : s.Sound)
include h sound

/-- A file that waits is a member of the next batch. -/
theorem get?_staged {v : VersionId} (came : s.staged.get? name = some (some v)) :
    b.view.get? name = some v := by
  have viewed : s.view.get? name = some v := by
    rw [get?_view sound.stagedOnce, came, Option.getD_some]
  have inside := mem_batchNames_of_pending (Table.mem_keys_of_get? came)
    (Table.mem_keys_of_get? viewed)
  obtain ⟨w, found⟩ := Table.exists_get? (h.keys ▸ mem_view_of_batchNames inside)
  obtain ⟨f, -, -, origin⟩ := h.member inside found
  rcases origin with same | ⟨-, reloaded⟩
  · rw [came] at same
    cases same
    exact found
  · exact absurd (Table.mem_keys_of_get? came) reloaded.free

section Keeping
variable (keeps : s.KeepsNames t)
include keeps

/-- A batch that keeps the names of what it loads again holds each file under its own name. -/
theorem named {name : String} (hn : name ∈ s.batchNames) {v : VersionId}
    (found : b.view.get? name = some v) : b.model.fileName v = name := by
  obtain ⟨f, fresh, -, origin⟩ := h.member hn found
  rcases origin with staged | ⟨-, free, w, old, known, file, path, source, place⟩
  · have there := has_of_waits sound ⟨name, staged⟩
    rw [Model.fileName_congr (h.old there)]
    exact sound.named staged
  · rw [Model.fileName, Model.file?, fresh]
    exact keeps name hn free w old known file f.name place

theorem commit_eq : s.commit b = b.view :=
  commit_eq_view sound.stagedOnce sound.committedOnce h.keys h.members
    (fun _ outside => h.kept outside) fun _ hn _ found => h.named sound keeps hn found

end Keeping

end Prepared

/-- A batch that leaves the committed files as they are has nothing to load again. -/
theorem Prepared.keepsNames (h : s.Prepared t b) (sound : s.Sound)
    (keeps : s.commit b ≠ s.committed → s.KeepsNames t) : s.KeepsNames t := by
  by_contra moved
  have unchanged : s.commit b = s.committed := by
    by_contra changed
    exact moved (keeps changed)
  have none' : b.members = [] := by
    rcases List.eq_nil_or_concat' b.members with none' | ⟨before, v, last⟩
    · exact none'
    · have member : v ∈ b.members := last ▸ List.mem_append_right _ (List.mem_singleton_self v)
      have known : s.committed.get? (b.model.fileName v) = some v := by
        rw [← unchanged, commit, last, List.foldl_append, List.foldl_cons, List.foldl_nil,
          Table.get?_put, if_pos rfl]
      obtain ⟨there, free⟩ := sound.committed known
      exact absurd there ((h.waits_of_member member).resolve_left free)
  refine moved fun name inside => ?_
  obtain ⟨v, found⟩ := Table.exists_get? (h.keys ▸ mem_view_of_batchNames inside)
  have member := h.mem_members.mpr ⟨name, inside, found⟩
  rw [none'] at member
  cases member

end Naming

/-- A batch is committed as a whole: what was to be removed is gone, every file of the batch is
there under its name, and other files are as they were. Nothing waits any more. -/
structure Installed (s : Store) (b : Batch) (s' : Store) : Prop where
  removed : ∀ name, s.staged.get? name = some none → s'.file? name = none
  staged : ∀ name v, s.staged.get? name = some (some v) → s'.file? name = some v
  members : ∀ v ∈ b.members, s'.file? (b.model.fileName v) = some v
  others : ∀ name, name ∉ s.pending → name ∉ s.batchNames → s'.file? name = s.file? name
  nothing : s'.staged = [] ∧ s'.pending = []

theorem Prepared.installed (h : s.Prepared t b) (sound : s.Sound) (keeps : s.KeepsNames t) {s' : Store}
    (committed : s'.committed = s.commit b) (idle : s'.staged = []) : s.Installed b s' := by
  rw [h.commit_eq sound keeps] at committed
  refine ⟨fun name gone => ?_, fun name v came => ?_, fun v member => ?_, ?_, idle, ?_⟩
  · rw [file?, committed, Table.get?_eq_none_iff, h.keys]
    exact removed_not_viewed sound.stagedOnce gone
  · rw [file?, committed, h.get?_staged sound came]
  · obtain ⟨name, inside, found⟩ := h.mem_members.mp member
    rw [h.named sound keeps inside found, file?, committed, found]
  · intro name free outside
    rw [file?, committed, h.kept outside, get?_view_unstaged sound.stagedOnce free, file?]
  · rw [pending, idle]
    rfl

/-- Where nothing waits, the next batch is empty, and it is committed already. -/
theorem installed_of_empty (sound : s.Sound) (empty : s.staged = []) :
    ∃ b, s.nextBatch t = .ok b ∧ s.Installed b s := by
  have next : s.nextBatch t = .ok ⟨s.model, s.view, []⟩ := by
    rw [nextBatch_eq, batchNames_of_empty empty]
    rfl
  have committed : s.commit ⟨s.model, s.view, []⟩ = s.committed := by
    rw [commit, removals, empty]
    rfl
  have prepared := nextBatch_prepared sound next
  exact ⟨_, next, prepared.installed sound
    (prepared.keepsNames sound (absurd committed)) committed.symm empty⟩

/-- What is pending is committed as a whole, or of it stay the removals. -/
theorem applyUpdates_wholly (sound : s.Sound)
    (told : s.removals = [] ∨ ∀ w ∈ s.watchers, w.failing ≠ some .changed)
    (keeps : (s.applyUpdates t).store.committed ≠ s.committed → s.KeepsNames t) :
    ((s.applyUpdates t).result ≠ .ok false ∧
      ∃ b, s.nextBatch t = .ok b ∧ s.Installed b (s.applyUpdates t).store) ∨
    ((s.applyUpdates t).result ≠ .ok true ∧ s.Rejected (s.applyUpdates t).store) := by
  by_cases empty : s.staged = []
  · rw [applyUpdates_of_empty empty]
    exact .inl ⟨nofun, installed_of_empty sound empty⟩
  · obtain ⟨after, applied, same⟩ := applyUpdates_applied (t := t) empty
    have answered : ∀ b r, s.nextBatch t = .ok b → b.resolve s.settings = .ok r →
        Resolution.Clean (r.found.flatMap (·.2)) →
        (∀ w ∈ s.watchers, w.failing ≠ some .changed) → ∀ name,
        (s.applyUpdates t).result ≠ .error (.watcher name .changed) :=
      fun b r next resolved clean quiet name => applyUpdates_told quiet next resolved clean name
    rw [same] at keeps ⊢
    generalize (s.applyUpdates t).result = result at applied keeps answered ⊢
    cases applied with
    | interrupted i _ => exact .inr ⟨nofun, rfl, rfl, rfl⟩
    | rejected next resolved told' _ =>
        rcases told' with rfl | ⟨w, rfl⟩
        · exact .inr ⟨by simp, rfl, rfl, rfl⟩
        · exact .inr ⟨by simp, rfl, rfl, rfl⟩
    | @committed b r _ next resolved told' clean =>
        have prepared := nextBatch_prepared sound next
        have names := prepared.keepsNames sound keeps
        have idle : s.leftover result = [] := by
          rcases told' with rfl | ⟨w, rfl⟩
          · rfl
          · rcases told with none' | quiet
            · exact none'
            · exact absurd rfl (answered b r next resolved clean quiet w)
        have fine : result ≠ .ok false := by
          rcases told' with rfl | ⟨w, rfl⟩
          · simp
          · simp
        exact .inl ⟨fine, b, next, prepared.installed sound names rfl idle⟩

/-- After any history, applying what is pending commits the whole next batch, so that nothing is
pending, or leaves the committed files as they are and of what was pending the removals. If the
answer is yes it is the first, and if it is no the second. -/
theorem applied_wholly (settings : Settings) (history : List Moment) (a : Moment) :
    let s := (a.load (after settings history)).store
    let s' := (s.applyUpdates a.tree).store
    (s.removals = [] ∨ ∀ w ∈ s.watchers, w.failing ≠ some .changed) →
    (s'.committed ≠ s.committed → s.KeepsNames a.tree) →
    ((s.applyUpdates a.tree).result ≠ .ok false ∧ ∃ b, s.nextBatch a.tree = .ok b ∧ s.Installed b s') ∨
    ((s.applyUpdates a.tree).result ≠ .ok true ∧ s.Rejected s') :=
  applyUpdates_wholly (Moment.load_extends (after_sound settings history).1 a).1

end DataModel.Store

namespace DataModel.Retrying
open Relinking (settings path unlinked)

/-- A file is committed. -/
def used : List Moment := [⟨.change (path "B.tmd") (some plain), unlinked, []⟩]

/-- It is removed while somebody watches. -/
def removal (w : Watcher) : Moment := ⟨.change (path "B.tmd") none, unlinked, [w]⟩

theorem load_removal (w : Watcher) : ((removal w).load (Store.after settings used)).store =
    { first with watchers := [w], staged := [("B", none)] } := by
  have begun : Store.after settings used = first := run_first
  have attempt := Store.attempt_missing (s := { first with watchers := [w] }) name_used gone
  have loaded := Moment.load_loaded first (path "B.tmd") none unlinked [w]
  rw [attempt] at loaded
  rw [begun, removal, loaded.of_missing.2]
  rfl

/-- If a watcher fails on the errors of a removal, the removal goes on waiting. -/
theorem applied_wholly_told :
    let a := removal ⟨"w", 1, some .errors⟩
    let s := (a.load (Store.after settings used)).store
    let s' := (s.applyUpdates a.tree).store
    ((s.removals = [] ∨ ∀ w ∈ s.watchers, w.failing ≠ some .changed) ∧
      (s'.committed ≠ s.committed → s.KeepsNames a.tree)) ∧
    (((s.applyUpdates a.tree).result ≠ .ok false ∧
        ∃ b, s.nextBatch a.tree = .ok b ∧ s.Installed b s') ∨
      ((s.applyUpdates a.tree).result ≠ .ok true ∧ s.Rejected s')) := by
  have quiet : ∀ w ∈ ((removal ⟨"w", 1, some .errors⟩).load (Store.after settings used)).store.watchers,
      w.failing ≠ some .changed := by
    rw [load_removal]
    simp
  have keeps : ((removal ⟨"w", 1, some .errors⟩).load
      (Store.after settings used)).store.KeepsNames unlinked := by
    rw [load_removal]
    intro name inside
    cases inside
  exact ⟨⟨.inr quiet, fun _ => keeps⟩,
    Store.applied_wholly settings used (removal ⟨"w", 1, some .errors⟩) (.inr quiet) fun _ => keeps⟩

/-- If a watcher fails on the news of a removal, the file is removed and its removal waits. -/
theorem applied_halfway :
    let a := removal ⟨"w", 1, some .changed⟩
    let s := (a.load (Store.after settings used)).store
    let s' := (s.applyUpdates a.tree).store
    s'.committed = [] ∧ s'.staged = [("B", none)] ∧
      ¬ (∃ b, s.nextBatch a.tree = .ok b ∧ s.Installed b s') ∧ ¬ s.Rejected s' := by
  intro a s s'
  have loaded : s = { first with watchers := [⟨"w", 1, some .changed⟩], staged := [("B", none)] } :=
    load_removal _
  have committed : s'.committed = [] := by
    simp only [s', loaded]
    rfl
  have staged : s'.staged = [("B", none)] := by
    simp only [s', loaded]
    rfl
  refine ⟨committed, staged, ?_, ?_⟩
  · rintro ⟨b, -, installed⟩
    rw [installed.nothing.1] at staged
    cases staged
  · intro rejected
    have same := rejected.committed
    rw [committed, loaded] at same
    cases same

end DataModel.Retrying
