import DataModel.Proofs.Store.History
import DataModel.Proofs.Store.Settled

/-!
What keeps a store settled. Loading and rejected batches leave the committed files and all below
them as they are. A committed batch makes its members anew, in an order in which they depend on
earlier members and on kept files only; kept files depend on kept files, and they know the same
domains as before. For this a file that is loaded again must come under the name it had.
-/
namespace DataModel
open Resolution

theorem Model.domainsOf_congr {m m' : Model} {v : VersionId} (h : m'.version? v = m.version? v) :
    m'.domainsOf v = m.domainsOf v := by
  rw [domainsOf, file?_congr h, domainsOf]

namespace Store
variable {s s' : Store} {t : FileTree} {v w : VersionId}

section Keeping

/-- A version stays made if what is below it and what it knows stays. -/
theorem Made.keep {f : ModelFile} {m n : Model} {ds : List Diagnostic} (h : s.Made v f m n ds)
    (settings : s'.settings = s.settings) (dependencies : s'.dependencies v = s.dependencies v)
    (domains : s'.domains = s.domains)
    (below : ∀ {w}, s'.Below v w → s.Below v w ∧ s'.model.version? w = s.model.version? w)
    (declared : ∀ {name k}, s.domains.get? name = some k →
      s'.model.fileName k.version = s.model.fileName k.version) : s'.Made v f m n ds where
  loaded := settings ▸ h.loaded
  fresh := h.fresh
  done := by
    rw [dependencies, domains, settings]
    exact h.done
  clean := h.clean
  result := (below .refl).2.trans h.result
  below within other := (below within).2.trans (h.below (below within).1 other)
  domains known := by
    rw [domains] at known
    exact (declared known).trans (h.domains known)

theorem domains_file (once : s.committed.keys.Nodup) {name : String} {k : Key}
    (known : s.domains.get? name = some k) : ∃ name, s.committed.get? name = some k.version :=
  (Table.mem_values_iff once).mp (Model.mem_domainTable known).1

/-- A store stays settled while its committed files and their versions stay. -/
theorem Settled.same (h : s.Settled) (once : s.committed.keys.Nodup)
    (settings : s'.settings = s.settings) (committed : s'.committed = s.committed)
    (old : ∀ {name v}, s.committed.get? name = some v →
      s'.model.version? v = s.model.version? v) : s'.Settled := by
  have dependencies : ∀ {name v}, s.committed.get? name = some v →
      s'.dependencies v = s.dependencies v := by
    intro name v known
    rw [Store.dependencies, Model.uses_congr (old known), committed, Store.dependencies]
  have domains : s'.domains = s.domains := by
    rw [Store.domains, committed, Store.domains, Model.domainTable, Model.domainTable]
    refine congrArg Table.ofList (List.flatMap_congr fun v hv => ?_)
    obtain ⟨name, known⟩ := (Table.mem_values_iff once).mp hv
    exact Model.domainsOf_congr (old known)
  have below : ∀ {name v w}, s.committed.get? name = some v → s'.Below v w →
      s.Below v w ∧ s'.model.version? w = s.model.version? w := by
    intro name v w known path
    have path' : s.Below v w := by
      induction path with
      | refl => exact .refl
      | tail _ step ih =>
          obtain ⟨name', known'⟩ := committed_of_below ih known
          exact ih.tail (dependencies known' ▸ step)
    obtain ⟨name', known'⟩ := committed_of_below path' known
    exact ⟨path', old known'⟩
  obtain ⟨rank, falls⟩ := h.falls
  refine ⟨?_, ?_, rank, ?_⟩
  · intro name v known
    rw [committed] at known
    rw [Model.fileName_congr (old known)]
    exact h.named known
  · intro name v known
    rw [committed] at known
    obtain ⟨f, m, n, ds, made⟩ := h.made known
    refine ⟨f, m, n, ds, made.keep settings (dependencies known) domains (below known) ?_⟩
    intro name' k known'
    obtain ⟨name'', known''⟩ := domains_file once known'
    exact Model.fileName_congr (old known'')
  · intro name v known d dependency
    rw [committed] at known
    rw [dependencies known] at dependency
    exact falls known d dependency

/-- Where nothing is committed, nothing is amiss. -/
theorem Settled.ofEmpty (h : s.committed = []) : s.Settled := by
  refine ⟨?_, ?_, fun _ => 0, ?_⟩
  · intro name v known
    rw [h] at known
    cases known
  · intro name v known
    rw [h] at known
    cases known
  · intro name v known
    rw [h] at known
    cases known

theorem Settled.extend (h : s.Settled) (sound : s.Sound) (extends' : s.Extends s') : s'.Settled :=
  h.same sound.committedOnce extends'.settings extends'.committed fun known =>
    extends'.old (sound.committed known).1

end Keeping

/-- No file that the next batch loads again has another name by now. -/
def KeepsNames (s : Store) (t : FileTree) : Prop :=
  ∀ name ∈ s.batchNames, name ∉ s.pending → ∀ v file, s.committed.get? name = some v →
    s.model.file? v = some file → ∀ name', s.fileName t (.ofString file.path) = .ok name' →
    name' = name

end Store
end DataModel
