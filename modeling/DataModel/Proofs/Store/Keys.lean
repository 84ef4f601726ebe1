import DataModel.Proofs.Resolution.Offering
import DataModel.Proofs.Store.Growing
import DataModel.Store.View

/-!
The primary keys of a store's classes. An association is only ever bound to a class with a single
primary key, no class gets or loses one, and where composite keys are not allowed the committed
files offer no class with more than one.
-/
namespace DataModel
open Resolution

namespace Model
variable {m n : Model} {v : VersionId} {k : Key} {settings : Settings}

section Growing

theorem Grows.keeps (step : m.Grows settings n) : m.KeepsKeys n ∧ (m.Keyed → n.Keyed) := by
  cases step with
  | add loaded => exact ⟨keepsKeys_add m _, fun keyed => keyed.add loaded.unlinked⟩
  | resolve fresh loaded done =>
      have aims := (resolve_outcome fresh loaded.declared done).aims
      exact ⟨aims.keys, aims.keyed⟩

/-- However a model grows, classes keep their keys, and associations go to single ones. -/
theorem Becomes.keeps (steps : m.Becomes settings n) : m.KeepsKeys n ∧ (m.Keyed → n.Keyed) := by
  induction steps with
  | refl => exact ⟨.refl m, id⟩
  | tail _ step ih => exact ⟨ih.1.trans step.keeps.1, fun keyed => step.keeps.2 (ih.2 keyed)⟩

end Growing

section Plain

/-- A class with a single primary key, or none. -/
def HasPlainKey (m : Model) (k : Key) : Prop :=
  ∃ c, m.class? k = some c ∧ c.primaryKeys.length ≤ 1

/-- A version that offers no class with more than one primary key. -/
def OffersPlain (m : Model) (v : VersionId) : Prop := ∀ k ∈ m.classes v, m.HasPlainKey k

theorem KeepsKeys.plain (h : m.KeepsKeys n) (plain : m.HasPlainKey k) : n.HasPlainKey k := by
  obtain ⟨c, found, few⟩ := plain
  obtain ⟨d, found', count⟩ := h k c found
  exact ⟨d, found', count.trans_le few⟩

theorem OffersPlain.keep (plain : m.OffersPlain v) (h : m.KeepsKeys n)
    (same : n.version? v = m.version? v) : n.OffersPlain v := by
  intro k offered
  rw [classes, same, ← classes] at offered
  exact h.plain (plain k offered)

/-- A file that resolves without an error against files with plain keys has plain keys. -/
theorem resolve_plain {f : ModelFile} {dependencies : List VersionId} {domains : Table Key}
    {ds : List Diagnostic} (fresh : m.version? v = some (.fresh v f)) (declared : f.Declared)
    (done : m.resolve v dependencies domains false = .ok (ds, n)) (clean : Clean ds)
    (plain : ∀ d ∈ dependencies, m.OffersPlain d) : n.OffersPlain v := by
  have outcome := resolve_outcome fresh declared done
  intro k offered
  rcases outcome.offered k offered with own | ⟨name, d, source, given⟩
  · have early := (resolve_evolves fresh done).ownClasses own
    obtain ⟨c, found⟩ := Option.isSome_iff_exists.mp ((mem_ownClasses_of_fresh fresh).mp early).2
    obtain ⟨d, found', -⟩ := outcome.aims.keys k c found
    exact ⟨d, found', outcome.plain clean rfl k own d found'⟩
  · exact outcome.aims.keys.plain (plain d (source_of source) k given)

end Plain

end Model

namespace Batch
variable {b : Batch} {r : BatchResult}

/-- If nothing that a batch reports is an error, no member has one. -/
theorem clean_found {found : List (VersionId × List Diagnostic)}
    (names : found.map Prod.fst = r.ordered) (once : r.ordered.Nodup)
    (known : ∀ v ∈ r.ordered, v ∈ b.members)
    (reports : r.found = b.members.map fun v => (v, (found.lookup v).getD []))
    (clean : Clean (r.found.flatMap (·.2))) : ∀ p ∈ found, Clean p.2 := by
  rintro ⟨v, ds⟩ hp d hd
  refine clean d (List.mem_flatMap.mpr ⟨(v, ds), ?_, hd⟩)
  have here := lookup_of_mem (names ▸ once) hp
  have member : v ∈ r.ordered := names ▸ List.mem_map.mpr ⟨(v, ds), hp, rfl⟩
  rw [reports]
  exact List.mem_map.mpr ⟨v, known v member, by rw [here]; rfl⟩

/-- The plain keys of a batch, after some of its members. -/
structure Plainly (b : Batch) (before : List VersionId) (m : Model)
    (found : List (VersionId × List Diagnostic)) : Prop where
  keys : b.model.KeepsKeys m
  others : ∀ w, w ∉ before → m.version? w = b.model.version? w
  plain : (∀ p ∈ found, Clean p.2) → ∀ v ∈ before, m.OffersPlain v

theorem Plainly.start (b : Batch) : b.Plainly [] b.model [] :=
  ⟨.refl _, fun _ _ => rfl, fun _ _ hv => absurd hv List.not_mem_nil⟩

theorem Plainly.step {before : List VersionId} {m m' : Model} {v : VersionId} {f : ModelFile}
    {found : List (VersionId × List Diagnostic)} {domains : Table Key} {ds : List Diagnostic}
    {settings : Settings} (h : b.Plainly before m found) (new : v ∉ before)
    (fresh : b.model.version? v = some (.fresh v f)) (declared : f.Declared)
    (done : m.resolve v (b.dependencies v) domains false = .ok (ds, m'))
    (dependencies : ∀ d ∈ b.dependencies v, d ∈ before ∨ b.model.OffersPlain d) :
    b.Plainly (before ++ [v]) m' (found ++ [(v, reported settings ds)]) := by
  have now := (h.others v new).trans fresh
  have evolves := Model.resolve_evolves now done
  have keeps := (Model.resolve_outcome now declared done).aims.keys
  refine ⟨h.keys.trans keeps, fun w hw => ?_, fun clean w hw => ?_⟩
  · rw [List.mem_append, List.mem_singleton, not_or] at hw
    exact (evolves.others hw.2).trans (h.others w hw.1)
  · obtain ⟨earlier, here⟩ := List.forall_mem_append.mp clean
    rcases List.mem_append.mp hw with early | last
    · refine (h.plain earlier w early).keep keeps (evolves.others ?_)
      rintro rfl
      exact new early
    · cases List.mem_singleton.mp last
      refine Model.resolve_plain now declared done
        (clean_of_reported (here _ (List.mem_singleton_self _))) fun d hd => ?_
      by_cases early : d ∈ before
      · exact h.plain earlier d early
      · exact ((dependencies d hd).resolve_left early).keep h.keys (h.others d early)

end Batch

namespace Store
variable {s : Store} {t : FileTree} {b : Batch} {r : BatchResult}

/-- No committed file offers a class with more than one primary key. -/
def Plain (s : Store) : Prop :=
  ∀ name v, s.committed.get? name = some v → s.model.OffersPlain v

/-- What stands outside a batch was committed before, and offers what it offered then. -/
theorem Prepared.offersPlain_outside (prepared : s.Prepared t b) (sound : s.Sound)
    (plain : s.Plain) {name : String} {v : VersionId} (outside : name ∉ s.batchNames)
    (found : b.view.get? name = some v) : b.model.OffersPlain v := by
  rw [prepared.kept outside] at found
  have known := found
  rw [get?_view_unstaged sound.stagedOnce (outside_batch found outside).1] at known
  refine (plain name v known).keep (fun k c there => ?_) (prepared.old (sound.committed known).1)
  obtain ⟨ver, here, -⟩ := Model.class?_eq_some there
  exact ⟨c, (Model.class?_congr (prepared.old (Model.has_of_version? here))).trans there, rfl⟩

/-- Where composite keys are not allowed, a batch without errors gives files with plain keys. -/
theorem Prepared.plain (prepared : s.Prepared t b) (sound : s.Sound) (plain : s.Plain)
    (single : s.settings.allowCompositeKeys = false) (done : b.resolve s.settings = .ok r)
    (clean : Clean (r.found.flatMap (·.2))) : ∀ v ∈ b.members, r.model.OffersPlain v := by
  cases Batch.resolve_ends (prepared.nodup_members sound) done with
  | @circle _ d _ _ error _ _ _ only =>
      have tidy := clean d (only ▸ List.mem_singleton_self d)
      rw [tidy] at error
      cases error
  | @sorted found _ sorted each reports =>
      have order := Graph.sort_sorted sorted
      have loaded : ∀ v ∈ r.ordered, ∃ f, b.model.version? v = some (.fresh v f) ∧
          f.IsLoaded s.settings.app := fun v hv => prepared.fresh (order.known v hv)
      have resolved := Batch.resolveEach_resolved order.once
        (fun v hv => (loaded v hv).imp fun _ => And.left) each
      have tidy := Batch.clean_found resolved.names order.once order.known reports clean
      have whole := Batch.resolveEach_ok (I := b.Plainly) (.start b) ?_ each
      · exact fun v hv => whole.plain tidy v ((Graph.mem_sort sorted).mpr hv)
      · intro before v after m m' found ds split sofar step
        obtain ⟨f, fresh, isLoaded⟩ :=
          loaded v (split ▸ List.mem_append_right _ List.mem_cons_self)
        rw [single] at step
        refine sofar.step (notMem_before order.once split) fresh isLoaded.declared step ?_
        intro d dependency
        obtain ⟨use, -, given⟩ := List.mem_filterMap.mp dependency
        by_cases inside : use.name ∈ s.batchNames
        · have member := prepared.mem_members.mpr ⟨use.name, inside, given⟩
          exact .inl (order.behind before v after split d dependency member)
        · exact .inr (prepared.offersPlain_outside sound plain inside given)

/-- A batch that ends without errors leaves plain keys, and so does one that ends early. -/
theorem Applied.plain {result : Except Interruption Bool} {after : Store} (sound : s.Sound)
    (plain : s.Plain) (single : s.settings.allowCompositeKeys = false)
    (applied : Applied s t result after) : after.Plain := by
  have keeps := (applied.becomes sound).keeps.1
  have old : ∀ name v, s.committed.get? name = some v → after.model.OffersPlain v := by
    intro name v known
    obtain ⟨there, free⟩ := sound.committed known
    exact (plain name v known).keep keeps ((applied.keeps sound).2.2 there free)
  cases applied with
  | interrupted => exact plain
  | rejected => exact old
  | committed next resolved _ clean =>
      have prepared := nextBatch_prepared sound next
      intro name v known
      rw [commit_eq] at known
      rcases Table.mem_update (Table.mem_of_get? known) with changed | before
      · rcases List.mem_append.mp changed with gone | came
        · cases (mem_removals.mp gone).2
        · obtain ⟨w, member, same⟩ := List.mem_map.mp came
          cases same
          exact prepared.plain sound plain single resolved clean v member
      · exact old name v (Table.get?_of_mem sound.committedOnce before)

end Store

namespace Moment
variable {s : Store}

theorem run_plain (sound : s.Sound) (plain : s.Plain)
    (single : s.settings.allowCompositeKeys = false) (a : Moment) : (a.run s).store.Plain := by
  have keeps := (load_becomes sound a).keeps.1
  have loaded : (a.load s).store.Plain := by
    intro name v known
    rcases (load_extends sound a).2 with extends' | extends'
    · rw [extends'.committed] at known
      exact (plain name v known).keep keeps (extends'.old (sound.committed known).1)
    · rw [extends'.committed] at known
      cases known
  cases run_ends a s with
  | early _ _ store =>
      rw [store]
      exact loaded
  | batch _ _ store _ =>
      rw [store]
      by_cases empty : (a.load s).store.staged = []
      · rw [Store.applyUpdates_of_empty empty]
        exact loaded
      · obtain ⟨after, applied, same⟩ := Store.applyUpdates_applied (t := a.tree) empty
        rw [same]
        have single' := (congrArg Settings.allowCompositeKeys (load_settings sound a)).trans single
        have plain' : after.Plain := applied.plain (load_extends sound a).1 loaded single'
        exact plain'

end Moment

namespace Store

theorem after_plain (settings : Settings) (history : List Moment)
    (single : settings.allowCompositeKeys = false) : (after settings history).Plain := by
  induction history using List.reverseRecOn with
  | nil => exact fun name v known => nomatch known
  | append_singleton before a ih =>
      obtain ⟨sound, same⟩ := after_sound settings before
      rw [after_snoc]
      exact Moment.run_plain sound ih (by rw [same]; exact single) a

theorem mem_classes {s : Store} {k : Key} :
    k ∈ s.classes ↔ ∃ v ∈ s.committed.values, k ∈ s.model.classes v := by
  have all : s.classes = addAll (s.committed.values.flatMap s.model.classes) [] := rfl
  rw [all, mem_addAll, List.mem_flatMap]
  simp

end Store

/-- In every store each bound association goes to a class with exactly one primary key, and where
composite keys are not allowed each class on offer has at most one. Expanding the aliases of a
file changes the primary keys of no class. -/
theorem committed_keys (settings : Settings) (history : List Moment) :
    let s := Store.after settings history
    s.model.Keyed ∧
      (settings.allowCompositeKeys = false → ∀ k ∈ s.classes, s.model.HasPlainKey k) ∧
      ∀ scope m first n last, (expandAll scope m).run first = .ok (n, last) →
        ∀ k, (n.class? k).map (·.primaryKeys) = (m.class? k).map (·.primaryKeys) := by
  have keyed := (Store.after_becomes settings history).keeps.2 .empty
  refine ⟨keyed, fun single k offered => ?_, ?_⟩
  · obtain ⟨v, committed, listed⟩ := Store.mem_classes.mp offered
    obtain ⟨name, member⟩ := (Table.mem_values_iff
      (Store.after_sound settings history).1.committedOnce).mp committed
    exact Store.after_plain settings history single name v member k listed
  · intro scope m first n last run
    obtain ⟨_, -, same⟩ := expandAll_primaryKeys scope m _ _ _ run
    exact same

end DataModel
