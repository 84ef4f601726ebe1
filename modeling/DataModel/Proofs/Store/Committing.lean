import DataModel.Proofs.Store.Settling
import Mathlib.Algebra.Order.BigOperators.Group.List
import Mathlib.Algebra.Order.Group.Nat

/-!
A batch that is committed settles the store: its members were made in their order, and the files
outside it are as they were made before.
-/
namespace DataModel.Store
open Resolution
variable {s s' : Store} {t : FileTree} {b : Batch} {r : BatchResult}

/-- A settled store, and what becomes of it when its next batch is resolved without an error. -/
structure Commits (s : Store) (t : FileTree) (b : Batch) (r : BatchResult) (s' : Store) : Prop where
  sound : s.Sound
  settled : s.Settled
  keeps : s.KeepsNames t
  next : s.nextBatch t = .ok b
  done : b.resolve s.settings = .ok r
  clean : Clean (r.found.flatMap (·.2))
  settings : s'.settings = s.settings
  model : s'.model = r.model
  committed : s'.committed = s.commit b

namespace Commits
variable (h : s.Commits t b r s')
include h

theorem prepared : s.Prepared t b := nextBatch_prepared h.sound h.next

theorem shape : Model.KeepsShape b.model s'.model := by
  rw [h.model]
  exact (h.prepared.resolved h.sound h.done).2.1

section Names

/-- The file that a batch resolves under a name has that name, and declares what the file of
before declares if it was not changed. -/
theorem member {name : String} (hn : name ∈ s.batchNames) {v : VersionId}
    (found : b.view.get? name = some v) : ∃ f, b.model.version? v = some (.fresh v f) ∧
      f.IsLoaded s.settings.app ∧ f.name = name ∧
      ∀ w, s.view.get? name = some w → ∃ file, s.model.file? w = some file ∧ f.bare = file.bare := by
  obtain ⟨f, fresh, loaded, origin⟩ := h.prepared.member hn found
  refine ⟨f, fresh, loaded, ?_⟩
  rcases origin with staged | ⟨-, free, w, old, known, file, path, source, place⟩
  · obtain ⟨f', fresh', -⟩ := h.sound.fresh ⟨name, staged⟩
    rw [← h.prepared.old (Model.has_of_version? fresh')] at fresh'
    rw [fresh] at fresh'
    have same : f = f' := congrArg Version.file (Option.some.inj fresh')
    have there := has_of_waits h.sound ⟨name, staged⟩
    have file : s.model.file? v = some f := by
      rw [Model.file?, ← h.prepared.old there, fresh]
      rfl
    refine ⟨?_, fun w viewed => ?_⟩
    · have named := h.sound.named staged
      rwa [Model.fileName, file] at named
    · rw [get?_view h.sound.stagedOnce, staged, Option.getD_some] at viewed
      cases viewed
      exact ⟨f, file, rfl⟩
  · have named : f.name = name := h.keeps name hn free w old known file f.name place
    refine ⟨named, fun w' viewed => ?_⟩
    rw [get?_view_unstaged h.sound.stagedOnce free, known] at viewed
    cases viewed
    refine ⟨old, file, ?_⟩
    obtain ⟨f₀, loaded₀, bare⟩ := h.sound.loaded file
    have oldName : old.name = name := by
      have named' := h.settled.named known
      rwa [Model.fileName, file] at named'
    have same : f = f₀ := by
      refine loaded.unique loaded₀ ?_ ?_ ?_
      · rw [named, ← oldName]
        exact (congrArg ModelFile.name bare).symm
      · rw [path]
        exact (congrArg ModelFile.path bare).symm
      · rw [source]
        exact (congrArg ModelFile.source bare).symm
    rw [same, bare]

theorem committed_eq : s'.committed = b.view := by
  rw [h.committed]
  refine commit_eq_view h.sound.stagedOnce h.sound.committedOnce h.prepared.keys
    h.prepared.members (fun name outside => h.prepared.kept outside) ?_
  intro name hn v found
  obtain ⟨f, fresh, -, named, -⟩ := h.member hn found
  rw [Model.fileName, Model.file?, fresh]
  exact named

theorem dependencies_eq (v : VersionId) : s'.dependencies v = b.dependencies v := by
  rw [dependencies, h.shape.uses, h.committed_eq, Batch.dependencies]

theorem domains_eq : s'.domains = b.model.domainTable b.view.values := by
  rw [domains, h.committed_eq, h.shape.domainTable]

end Names

section Kept

/-- A committed version was there before the batch and is no member of it. -/
theorem outside_members {name : String} {v : VersionId} (known : s.committed.get? name = some v) :
    v ∉ b.members := by
  obtain ⟨there, free⟩ := h.sound.committed known
  exact fun member => (h.prepared.waits_of_member member).elim free fun new => new there

theorem version?_old {name : String} {v : VersionId} (known : s.committed.get? name = some v) :
    s'.model.version? v = s.model.version? v := by
  rw [h.model, (h.prepared.resolved h.sound h.done).1 (h.outside_members known)]
  exact h.prepared.old (h.sound.committed known).1

/-- What stands outside the batch was committed before, and what it uses stands outside too. -/
theorem kept {name : String} {v : VersionId} (known : s'.committed.get? name = some v)
    (outside : name ∉ s.batchNames) : s.committed.get? name = some v ∧
      ∀ u ∈ s.model.uses v, u.name ∉ s.batchNames ∧
        s'.committed.get? u.name = s.committed.get? u.name := by
  rw [h.committed_eq, h.prepared.kept outside] at known
  obtain ⟨free, uses⟩ := outside_batch known outside
  rw [get?_view_unstaged h.sound.stagedOnce free] at known
  refine ⟨known, fun u hu => ⟨(uses u hu).2, ?_⟩⟩
  rw [h.committed_eq, h.prepared.kept (uses u hu).2,
    get?_view_unstaged h.sound.stagedOnce (uses u hu).1]

theorem kept_dependencies {name : String} {v : VersionId}
    (known : s'.committed.get? name = some v) (outside : name ∉ s.batchNames) :
    s'.dependencies v = s.dependencies v := by
  obtain ⟨known', uses⟩ := h.kept known outside
  rw [dependencies, Model.uses_congr (h.version?_old known'), dependencies]
  exact List.filterMap_congr fun u hu => (uses u hu).2

/-- Below a kept file are the kept files that were below it. -/
theorem kept_below {name : String} {v w : VersionId} (known : s'.committed.get? name = some v)
    (outside : name ∉ s.batchNames) (below : s'.Below v w) : s.Below v w ∧
      ∃ name, name ∉ s.batchNames ∧ s'.committed.get? name = some w := by
  induction below with
  | refl => exact ⟨.refl, name, outside, known⟩
  | tail _ step ih =>
      obtain ⟨path, name', outside', known'⟩ := ih
      rw [h.kept_dependencies known' outside'] at step
      obtain ⟨use, hu, found⟩ := committed_of_dependency step
      obtain ⟨-, uses⟩ := h.kept known' outside'
      exact ⟨path.tail step, use.name, (uses use hu).1, (uses use hu).2.trans found⟩

end Kept

section Domains

omit h in
theorem flatMap_domainsOf {m : Model} {files : Table VersionId} {q : String → Bool}
    (empty : ∀ p ∈ files, q p.1 = true → m.domainsOf p.2 = []) :
    files.values.flatMap m.domainsOf =
      (Table.values (files.filter fun p => !q p.1)).flatMap m.domainsOf := by
  induction files with
  | nil => rfl
  | cons p rest ih =>
      have later := ih fun p' hp' => empty p' (List.mem_cons_of_mem _ hp')
      rw [Table.values_cons, List.flatMap_cons, later, List.filter_cons]
      cases inside : q p.1 with
      | true =>
          rw [empty p List.mem_cons_self inside]
          rfl
      | false => rfl

omit h in
theorem domainsOf_of_undeclared {v : VersionId} (none' : s.declaresDomains v = false) :
    s.model.domainsOf v = [] := by
  rw [declaresDomains] at none'
  rw [Model.domainsOf]
  cases file : s.model.file? v with
  | none => rfl
  | some f =>
      rw [file, Option.map_some, Option.getD_some, Bool.not_eq_false', List.isEmpty_iff] at none'
      rw [Option.map_some, Option.getD_some, none']
      rfl

/-- An affected file declares no domain after the batch if it declared none before. -/
theorem domainsOf_member {name : String} (hn : name ∈ s.batchNames) {v w : VersionId}
    (found : b.view.get? name = some v) (viewed : s.view.get? name = some w)
    (none' : s.declaresDomains w = false) : b.model.domainsOf v = [] := by
  obtain ⟨f, fresh, -, -, before⟩ := h.member hn found
  obtain ⟨file, known, bare⟩ := before w viewed
  have domains := domainsOf_of_undeclared none'
  have names := ModelFile.domainNames_of_bare bare
  rw [Model.domainsOf, known, Option.map_some, Option.getD_some, List.map_eq_nil_iff,
    List.zipIdx_eq_nil_iff] at domains
  rw [domains, List.map_nil, List.map_eq_nil_iff] at names
  rw [Model.domainsOf, Model.file?, fresh, Option.map_some, Option.map_some, Option.getD_some,
    Version.fresh, names]
  rfl

/-- If a file stands outside a batch, the known domains are those of before. -/
theorem kept_domains {name : String} {v : VersionId} (known : s'.committed.get? name = some v)
    (outside : name ∉ s.batchNames) : s'.domains = s.domains := by
  have viewed : name ∈ s.view.keys := by
    rw [h.committed_eq] at known
    exact h.prepared.keys ▸ Table.mem_keys_of_get? known
  obtain ⟨names, before, after⟩ := s.batchNames_cases.resolve_left fun all => outside (all ▸ viewed)
  have once := nodup_view h.sound.committedOnce (s := s)
  have batchOnce : b.view.keys.Nodup := h.prepared.keys ▸ once
  have inBatch : ∀ {n}, n ∈ s.view.keys →
      (Graph.affectedNames s.usesTable s.pending).contains n = true → n ∈ s.batchNames := by
    intro n there affected
    rw [names, Graph.mem_affected, usesTable_names]
    exact ⟨there, List.contains_iff_mem.mp affected⟩
  have newer : ∀ p ∈ b.view, (Graph.affectedNames s.usesTable s.pending).contains p.1 = true →
      b.model.domainsOf p.2 = [] := by
    intro p hp affected
    have there : p.1 ∈ s.view.keys := h.prepared.keys ▸ Table.mem_keys_of_mem hp
    obtain ⟨w, viewed'⟩ := Table.exists_get? there
    have hn := inBatch there affected
    exact h.domainsOf_member hn (Table.get?_of_mem batchOnce hp) viewed' (after p.1 hn w viewed')
  have older : ∀ p ∈ s.committed, (Graph.affectedNames s.usesTable s.pending).contains p.1 = true →
      s.model.domainsOf p.2 = [] := by
    intro p hp affected
    have known' := Table.get?_of_mem h.sound.committedOnce hp
    by_cases pending : p.1 ∈ s.pending
    · exact domainsOf_of_undeclared (before p.1 pending p.2 known')
    · rw [← get?_view_unstaged h.sound.stagedOnce pending] at known'
      have hn := inBatch (Table.mem_keys_of_get? known') affected
      exact domainsOf_of_undeclared (after p.1 hn p.2 known')
  have same : b.view.filter (fun p => !(Graph.affectedNames s.usesTable s.pending).contains p.1) =
      s.committed.filter fun p => !(Graph.affectedNames s.usesTable s.pending).contains p.1 := by
    have pending : ∀ n ∈ s.staged.keys,
        (Graph.affectedNames s.usesTable s.pending).contains n = true := by
      intro n hn
      exact List.contains_iff_mem.mpr (Graph.pending_affected _ hn)
    rw [← Table.filter_update pending s.committed, ← view_eq]
    refine Table.filter_eq (q := fun n => !(Graph.affectedNames s.usesTable s.pending).contains n)
      batchOnce h.prepared.keys fun n there free => ?_
    refine h.prepared.kept fun member => ?_
    rw [names, Graph.mem_affected] at member
    rw [List.contains_iff_mem.mpr member.2] at free
    cases free
  rw [h.domains_eq, Store.domains, Model.domainTable, Model.domainTable,
    flatMap_domainsOf newer, flatMap_domainsOf older, same]
  refine congrArg Table.ofList (List.flatMap_congr fun v' hv' => ?_)
  obtain ⟨p, hp, rfl⟩ := List.mem_map.mp hv'
  have known' := Table.get?_of_mem h.sound.committedOnce (List.mem_of_mem_filter hp)
  exact Model.domainsOf_congr (h.prepared.old (h.sound.committed known').1)

end Domains

section Members

/-- The batch has no circle, and every member took its turn. -/
theorem sorted : ∃ found, Graph.sort b.dependencies b.members = .ok r.ordered ∧
    b.Resolved s.settings s'.domains r.ordered s'.model found ∧
    r.found = b.members.map fun v => (v, (found.lookup v).getD []) := by
  cases Batch.resolve_ends (h.prepared.nodup_members h.sound) h.done with
  | circle _ error _ _ _ only =>
      have clean := h.clean
      rw [only] at clean
      rw [clean _ (List.mem_singleton_self _)] at error
      cases error
  | @sorted found _ sorted done reports =>
      have order := Graph.sort_sorted sorted
      refine ⟨found, sorted, ?_, reports⟩
      rw [h.domains_eq, h.model]
      refine Batch.resolveEach_resolved order.once (fun v hv => ?_) done
      obtain ⟨f, fresh, -⟩ := h.prepared.fresh (order.known v hv)
      exact ⟨f, fresh⟩

/-- A file that is committed after the batch is a member or stands outside. -/
theorem member_or_kept {name : String} {v : VersionId} (known : s'.committed.get? name = some v) :
    v ∈ b.members ∨ name ∉ s.batchNames := by
  by_cases inside : name ∈ s.batchNames
  · rw [h.committed_eq] at known
    exact .inl (h.prepared.mem_members.mpr ⟨name, inside, known⟩)
  · exact .inr inside

/-- Below a member are earlier members and files outside the batch. -/
theorem below_member {before after : List VersionId} {v w : VersionId}
    (order : Graph.Sorted b.dependencies b.members r.ordered)
    (split : r.ordered = before ++ v :: after) (below : s'.Below v w) :
    w = v ∨ w ∈ before ∨
      ∃ name, name ∉ s.batchNames ∧ s'.committed.get? name = some w := by
  induction below with
  | refl => exact .inl rfl
  | @tail u d _ step ih =>
      obtain ⟨use, -, found⟩ := committed_of_dependency step
      rcases h.member_or_kept found with member | outside
      · rw [h.dependencies_eq] at step
        rcases ih with rfl | early | ⟨name, outside, known⟩
        · exact .inr (.inl (order.behind before u after split d step member))
        · obtain ⟨first, rest, rfl⟩ := List.append_of_mem early
          have split' : r.ordered = first ++ u :: (rest ++ v :: after) := by
            rw [split, List.append_assoc]
            rfl
          have sooner := order.behind first u _ split' d step member
          exact .inr (.inl (List.mem_append_left _ sooner))
        · rw [← h.dependencies_eq] at step
          obtain ⟨-, rest⟩ := h.kept_below known outside (.single step)
          exact .inr (.inr rest)
      · exact .inr (.inr ⟨use.name, outside, found⟩)

theorem member_made {v : VersionId} (member : v ∈ b.members) : ∃ f m n ds, s'.Made v f m n ds := by
  obtain ⟨found, sorted, resolved, reports⟩ := h.sorted
  have order := Graph.sort_sorted sorted
  obtain ⟨before, after, split⟩ := List.append_of_mem ((Graph.mem_sort sorted).mpr member)
  obtain ⟨ds, m, n, turn, reported⟩ := resolved.turns split
  obtain ⟨f, fresh, loaded⟩ := h.prepared.fresh member
  have once := order.once
  rw [split, List.nodup_append'] at once
  have apart : v ∉ before := fun early => once.2.2 early List.mem_cons_self
  have files : ∀ w, m.fileName w = b.model.fileName w := by
    intro w
    by_cases early : w ∈ before
    · rw [Model.fileName_congr (turn.earlier early), h.shape.fileName]
    · rw [Model.fileName_congr (turn.later early)]
  refine ⟨f, m, n, ds, ?_, ?_, ?_, ?_, ?_, ?_, ?_⟩
  · rw [h.settings]
    exact loaded
  · rw [turn.later apart]
    exact fresh
  · rw [h.dependencies_eq, h.settings]
    exact turn.done
  · suffices reports' : Clean (Batch.reported s.settings ds) from Batch.clean_of_reported reports'
    intro d hd
    refine h.clean d ?_
    have here := lookup_of_mem (resolved.names ▸ order.once) reported
    refine List.mem_flatMap.mpr ⟨(v, Batch.reported s.settings ds), ?_, hd⟩
    rw [reports]
    exact List.mem_map.mpr ⟨v, member, by rw [here]; rfl⟩
  · exact turn.kept.symm
  · intro w below other
    by_cases early : w ∈ before
    · exact (turn.earlier early).symm
    · rw [turn.later early]
      obtain ⟨name, outside, known⟩ :=
        ((h.below_member order split below).resolve_left other).resolve_left early
      refine resolved.others fun hw => ?_
      exact h.outside_members (h.kept known outside).1 (order.known w hw)
  · intro name k _
    rw [files, h.shape.fileName]

end Members

/-- No file depends on itself after the batch: members come behind what they depend on, and kept
files depend on kept files as before. -/
theorem falls : ∃ rank : VersionId → Nat, ∀ {name v}, s'.committed.get? name = some v →
    ∀ d ∈ s'.dependencies v, rank d < rank v := by
  obtain ⟨rank, falls⟩ := h.settled.falls
  obtain ⟨bound, low⟩ : ∃ bound, ∀ {name v}, s.committed.get? name = some v → rank v < bound := by
    refine ⟨(s.committed.values.map rank).sum + 1, fun {name v} known => ?_⟩
    have member := Table.mem_values_of_mem (Table.mem_of_get? known)
    exact Nat.lt_succ_of_le (List.le_sum_of_mem (List.mem_map_of_mem member))
  obtain ⟨found, sorted, -⟩ := h.sorted
  have order := (Graph.sort_sorted sorted).falls fun v hv => (Graph.mem_sort sorted).mpr hv
  refine ⟨fun v => if v ∈ b.members then bound + r.ordered.idxOf v else rank v, ?_⟩
  intro name v known d dependency
  dsimp only
  obtain ⟨use, -, known'⟩ := committed_of_dependency dependency
  rcases h.member_or_kept known with member | outside
  · rw [if_pos member]
    rcases h.member_or_kept known' with member' | outside'
    · rw [if_pos member']
      rw [h.dependencies_eq] at dependency
      exact Nat.add_lt_add_left (order v member d dependency member') bound
    · obtain ⟨old, -⟩ := h.kept known' outside'
      rw [if_neg (h.outside_members old)]
      exact Nat.lt_of_lt_of_le (low old) (Nat.le_add_right _ _)
  · obtain ⟨old, -⟩ := h.kept known outside
    rw [if_neg (h.outside_members old)]
    rw [h.kept_dependencies known outside] at dependency
    obtain ⟨use', -, old'⟩ := committed_of_dependency dependency
    rw [if_neg (h.outside_members old')]
    exact falls old d dependency

/-- A committed batch settles the store. -/
theorem settles : s'.Settled := by
  refine ⟨?_, ?_, ?_⟩
  · intro name v known
    by_cases inside : name ∈ s.batchNames
    · rw [h.committed_eq] at known
      obtain ⟨f, fresh, -, named, -⟩ := h.member inside known
      rw [h.shape.fileName, Model.fileName, Model.file?, fresh]
      exact named
    · have outside := inside
      obtain ⟨known', -⟩ := h.kept known outside
      rw [Model.fileName_congr (h.version?_old known')]
      exact h.settled.named known'
  · intro name v known
    rcases h.member_or_kept known with member | outside
    · exact h.member_made member
    · obtain ⟨known', -⟩ := h.kept known outside
      obtain ⟨f, m, n, ds, made⟩ := h.settled.made known'
      refine ⟨f, m, n, ds, made.keep h.settings (h.kept_dependencies known outside)
        (h.kept_domains known outside) ?_ ?_⟩
      · intro w below
        obtain ⟨below', name', outside', found⟩ := h.kept_below known outside below
        exact ⟨below', h.version?_old (h.kept found outside').1⟩
      · intro name' k known'
        obtain ⟨name'', found⟩ := domains_file h.sound.committedOnce known'
        exact Model.fileName_congr (h.version?_old found)
  · exact h.falls

end Commits
end DataModel.Store
