import DataModel.Proofs.Graph.Affected
import DataModel.Proofs.Table
import DataModel.Store.Batch

/-!
What waits for a batch, and which files the batch holds. Outside a batch stand only files that
use neither a waiting name nor a file of the batch, so nothing of theirs can change; and if some
stand outside, no file that comes or goes declares a domain.
-/
namespace DataModel.Store
variable {s : Store}

section Viewing

theorem view_eq (s : Store) : s.view = s.committed.update s.staged := by
  unfold view Table.update
  congr 1
  funext files p
  obtain ⟨name, change⟩ := p
  cases change with
  | none => rfl
  | some v => rfl

theorem get?_view (once : s.staged.keys.Nodup) (name : String) :
    s.view.get? name = (s.staged.get? name).getD (s.committed.get? name) := by
  rw [view_eq, Table.get?_update once]

theorem get?_view_unstaged (once : s.staged.keys.Nodup) {name : String} (free : name ∉ s.pending) :
    s.view.get? name = s.committed.get? name := by
  rw [get?_view once, Table.get?_eq_none_iff.mpr free, Option.getD_none]

theorem nodup_view (once : s.committed.keys.Nodup) : s.view.keys.Nodup := by
  rw [view_eq]
  exact Table.nodup_update once

theorem mem_removals {p : String × Option VersionId} :
    p ∈ s.removals ↔ p ∈ s.staged ∧ p.2 = none := by
  rw [removals, List.mem_filter, Option.isNone_iff_eq_none]

theorem get?_removals (once : s.staged.keys.Nodup) (name : String) :
    s.removals.get? name = if s.staged.get? name = some none then some none else none := by
  have sub : s.removals.keys.Sublist s.staged.keys := (List.filter_sublist).map _
  by_cases gone : s.staged.get? name = some none
  · rw [if_pos gone]
    exact Table.get?_of_mem (once.sublist sub) (mem_removals.mpr ⟨Table.mem_of_get? gone, rfl⟩)
  · rw [if_neg gone, Table.get?_eq_none_iff]
    intro member
    obtain ⟨⟨name', c⟩, hp, rfl⟩ := List.mem_map.mp member
    obtain ⟨staged, here⟩ := mem_removals.mp hp
    dsimp only at here
    subst here
    exact gone (Table.get?_of_mem once staged)

theorem nodup_removals (once : s.staged.keys.Nodup) : s.removals.keys.Nodup :=
  once.sublist ((List.filter_sublist).map _)

end Viewing

section Batching

/-- The uses of every file that is there after the staged changes. -/
def usesTable (s : Store) : List (String × List String) :=
  s.view.map fun (n, v) => (n, (s.model.uses v).map (·.name))

theorem usesTable_names (s : Store) : s.usesTable.map (·.1) = s.view.keys := by
  rw [usesTable, List.map_map, Table.keys]
  rfl

theorem mem_usesTable {name : String} {v : VersionId} (h : s.view.get? name = some v) :
    (name, (s.model.uses v).map (·.name)) ∈ s.usesTable :=
  List.mem_map.mpr ⟨(name, v), Table.mem_of_get? h, rfl⟩

/-- The next batch holds every file or the affected ones, and these only if neither they nor the
committed files they replace declare a domain. -/
theorem batchNames_cases (s : Store) : s.batchNames = s.view.keys ∨
    (s.batchNames = Graph.affected s.usesTable s.pending ∧
      (∀ name ∈ s.pending, ∀ v, s.committed.get? name = some v → s.declaresDomains v = false) ∧
      ∀ name ∈ s.batchNames, ∀ v, s.view.get? name = some v → s.declaresDomains v = false) := by
  have names : s.batchNames = if (s.pending.filterMap s.committed.get?).any s.declaresDomains ||
      ((Graph.affected s.usesTable s.pending).filterMap s.view.get?).any s.declaresDomains
    then s.view.keys else Graph.affected s.usesTable s.pending := rfl
  rw [names]
  split
  · exact .inl rfl
  · next narrow =>
      rw [Bool.not_eq_true, Bool.or_eq_false_iff, List.any_eq_false, List.any_eq_false] at narrow
      obtain ⟨before, after⟩ := narrow
      refine .inr ⟨rfl, ?_, ?_⟩
      · intro name pending v found
        exact Bool.not_eq_true _ ▸ before v (List.mem_filterMap.mpr ⟨name, pending, found⟩)
      · intro name member v found
        exact Bool.not_eq_true _ ▸ after v (List.mem_filterMap.mpr ⟨name, member, found⟩)

/-- The files of a batch come in the order of the view. -/
theorem batchNames_filter (s : Store) : ∃ p : String → Bool, s.batchNames = s.view.keys.filter p ∧
    ∀ name ∈ s.pending, p name = true := by
  rcases s.batchNames_cases with all | ⟨some', -, -⟩
  · exact ⟨fun _ => true, by rw [all, List.filter_true], fun _ _ => rfl⟩
  · refine ⟨(Graph.affectedNames s.usesTable s.pending).contains, ?_, ?_⟩
    · rw [some', Graph.affected, usesTable_names]
    · intro name pending
      exact List.contains_iff_mem.mpr (Graph.pending_affected _ pending)

theorem mem_view_of_batchNames {name : String} (h : name ∈ s.batchNames) : name ∈ s.view.keys := by
  obtain ⟨p, names, -⟩ := s.batchNames_filter
  rw [names] at h
  exact (List.mem_filter.mp h).1

theorem nodup_batchNames (once : s.committed.keys.Nodup) : s.batchNames.Nodup := by
  obtain ⟨p, names, -⟩ := s.batchNames_filter
  rw [names]
  exact (nodup_view once).filter _

theorem mem_batchNames_of_pending {name : String} (pending : name ∈ s.pending)
    (there : name ∈ s.view.keys) : name ∈ s.batchNames := by
  obtain ⟨p, names, all⟩ := s.batchNames_filter
  rw [names]
  exact List.mem_filter.mpr ⟨there, all name pending⟩

/-- A file outside a batch is not pending, and neither pending nor in the batch is what it uses. -/
theorem outside_batch {name : String} {v : VersionId} (there : s.view.get? name = some v)
    (outside : name ∉ s.batchNames) :
    name ∉ s.pending ∧ ∀ u ∈ s.model.uses v, u.name ∉ s.pending ∧ u.name ∉ s.batchNames := by
  have known : name ∈ s.view.keys := Table.mem_keys_of_get? there
  refine ⟨fun pending => outside (mem_batchNames_of_pending pending known), ?_⟩
  rcases s.batchNames_cases with all | ⟨names, -, -⟩
  · exact absurd (all ▸ known) outside
  · have free : ∀ u ∈ s.model.uses v, u.name ∉ Graph.affectedNames s.usesTable s.pending := by
      intro u hu affected
      refine outside ?_
      rw [names, Graph.mem_affected, usesTable_names]
      exact ⟨known, Graph.user_affected (mem_usesTable there) (List.mem_map_of_mem hu) affected⟩
    intro u hu
    refine ⟨fun pending => free u hu (Graph.pending_affected _ pending), fun member => ?_⟩
    rw [names, Graph.mem_affected] at member
    exact free u hu member.2

end Batching

section Committing

theorem update_erasing {changes : Table (Option VersionId)} (gone : ∀ p ∈ changes, p.2 = none)
    (files : Table VersionId) :
    files.update changes = changes.foldl (fun files p => files.erase p.1) files := by
  induction changes generalizing files with
  | nil => rfl
  | cons p rest ih =>
      obtain ⟨name, change⟩ := p
      cases gone _ List.mem_cons_self
      exact ih (fun p hp => gone p (List.mem_cons_of_mem _ hp)) _

/-- Committing a batch removes what is staged for removal and puts every member in its place. -/
theorem commit_eq (s : Store) (b : Batch) : s.commit b = s.committed.update
    (s.removals ++ b.members.map fun v => (b.model.fileName v, some v)) := by
  rw [Table.update_append, update_erasing fun p hp => (mem_removals.mp hp).2, commit, Table.update,
    List.foldl_map]
  rfl

section Members
variable {b : Batch} (stagedOnce : s.staged.keys.Nodup) (once : s.committed.keys.Nodup)
  (keys : b.view.keys = s.view.keys)

/-- What a commit changes: the removals, and the members under the names of the batch. -/
def batchChanges (s : Store) (b : Batch) : Table (Option VersionId) :=
  s.removals ++ s.batchNames.map fun name => (name, b.view.get? name)

theorem keys_batchChanges (s : Store) (b : Batch) :
    (s.batchChanges b).keys = s.removals.keys ++ s.batchNames := by
  rw [batchChanges, Table.keys, List.map_append, List.map_map]
  congr 1
  exact List.map_id' _

include stagedOnce in
theorem removed_not_viewed {name : String} (gone : s.staged.get? name = some none) :
    name ∉ s.view.keys := by
  rw [← Table.get?_eq_none_iff, get?_view stagedOnce, gone]
  rfl

include stagedOnce in
theorem mem_removals_keys {name : String} :
    name ∈ s.removals.keys ↔ s.staged.get? name = some none := by
  have found := get?_removals stagedOnce name
  constructor
  · intro member
    obtain ⟨c, here⟩ := Table.exists_get? member
    rw [found] at here
    split at here
    · assumption
    · cases here
  · intro gone
    rw [if_pos gone] at found
    exact Table.mem_keys_of_get? found

include stagedOnce once in
theorem nodup_batchChanges : (s.batchChanges b).keys.Nodup := by
  rw [keys_batchChanges, List.nodup_append']
  refine ⟨nodup_removals stagedOnce, nodup_batchNames once, ?_⟩
  intro name gone member
  exact removed_not_viewed stagedOnce ((mem_removals_keys stagedOnce).mp gone)
    (mem_view_of_batchNames member)

include stagedOnce once in
theorem get?_batchChanges (name : String) : (s.batchChanges b).get? name =
    if s.staged.get? name = some none then some none
    else if name ∈ s.batchNames then some (b.view.get? name) else none := by
  have distinct := nodup_batchChanges (b := b) stagedOnce once
  by_cases gone : s.staged.get? name = some none
  · rw [if_pos gone]
    refine Table.get?_of_mem distinct (List.mem_append_left _ ?_)
    exact mem_removals.mpr ⟨Table.mem_of_get? gone, rfl⟩
  · rw [if_neg gone]
    by_cases member : name ∈ s.batchNames
    · rw [if_pos member]
      exact Table.get?_of_mem distinct (List.mem_append_right _ (List.mem_map.mpr ⟨name, member, rfl⟩))
    · rw [if_neg member, Table.get?_eq_none_iff, keys_batchChanges, List.mem_append,
        mem_removals_keys stagedOnce]
      exact fun either => either.elim gone member

include stagedOnce once keys in
theorem removes_batchChanges (name : String) :
    Table.removes (s.batchChanges b) name = Table.removes s.staged name := by
  rw [Table.removes, get?_batchChanges stagedOnce once, Table.removes]
  by_cases gone : s.staged.get? name = some none
  · rw [if_pos gone, gone]
  · have stays : (s.staged.get? name).any (·.isNone) = false := by
      cases change : s.staged.get? name with
      | none => rfl
      | some c =>
          cases c with
          | none => exact absurd change gone
          | some v => rfl
    rw [if_neg gone, stays]
    by_cases member : name ∈ s.batchNames
    · obtain ⟨v, found⟩ := Table.exists_get? (keys ▸ mem_view_of_batchNames member)
      rw [if_pos member, found]
      rfl
    · rw [if_neg member]
      rfl

include stagedOnce once keys in
theorem keys_commit : (s.committed.update (s.batchChanges b)).keys = s.view.keys := by
  have same : Table.removes (s.batchChanges b) = Table.removes s.staged :=
    funext (removes_batchChanges stagedOnce once keys)
  obtain ⟨p, names, pending⟩ := s.batchNames_filter
  have viewed := Table.keys_update stagedOnce s.committed
  rw [← view_eq] at viewed
  rw [Table.keys_update (nodup_batchChanges stagedOnce once), same, viewed, keys_batchChanges,
    List.filter_append, names, viewed]
  congr 1
  have removals : s.removals.keys.filter (fun k => !s.committed.keys.contains k &&
      !Table.removes s.staged k) = [] := by
    rw [List.filter_eq_nil_iff]
    intro k hk
    rw [Table.removes, (mem_removals_keys stagedOnce).mp hk]
    simp
  rw [removals, List.nil_append, List.filter_filter, List.filter_append, List.filter_filter,
    List.filter_filter]
  have known : s.committed.keys.filter (fun k => (!s.committed.keys.contains k &&
      !Table.removes s.staged k && p k) && !Table.removes s.staged k) = [] := by
    rw [List.filter_eq_nil_iff]
    intro k hk
    simp [hk]
  rw [known, List.nil_append]
  refine List.filter_congr fun k hk => ?_
  rw [pending k hk]
  simp

include stagedOnce once keys in
/-- If every member has the name under which the batch holds it, the committed files are the
batch's view. -/
theorem commit_eq_view (members : b.members = s.batchNames.filterMap b.view.get?)
    (kept : ∀ name ∉ s.batchNames, b.view.get? name = s.view.get? name)
    (named : ∀ name ∈ s.batchNames, ∀ v, b.view.get? name = some v → b.model.fileName v = name) :
    s.commit b = b.view := by
  have changes : b.members.map (fun v => (b.model.fileName v, some v)) =
      s.batchNames.map fun name => (name, b.view.get? name) := by
    rw [members, List.map_filterMap, ← List.filterMap_eq_map]
    refine List.filterMap_congr fun name member => ?_
    obtain ⟨v, found⟩ := Table.exists_get? (keys ▸ mem_view_of_batchNames member)
    rw [found, Option.map_some, named name member v found, Function.comp, found]
  rw [commit_eq, changes, ← batchChanges]
  refine Table.ext (Table.nodup_update once)
    ((keys_commit stagedOnce once keys).trans keys.symm) fun name _ => ?_
  rw [Table.get?_update (nodup_batchChanges stagedOnce once),
    get?_batchChanges stagedOnce once]
  by_cases gone : s.staged.get? name = some none
  · rw [if_pos gone, Option.getD_some, eq_comm, Table.get?_eq_none_iff, keys]
    exact removed_not_viewed stagedOnce gone
  · rw [if_neg gone]
    by_cases member : name ∈ s.batchNames
    · rw [if_pos member, Option.getD_some]
    · rw [if_neg member, Option.getD_none, kept name member, get?_view stagedOnce]
      cases change : s.staged.get? name with
      | none => rfl
      | some c =>
          cases c with
          | none => exact absurd change gone
          | some v =>
              have viewed := get?_view stagedOnce name
              rw [change, Option.getD_some] at viewed
              exact absurd (mem_batchNames_of_pending (Table.mem_keys_of_get? change)
                (Table.mem_keys_of_get? viewed)) member

end Members

end Committing

end DataModel.Store
