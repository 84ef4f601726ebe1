import DataModel.Proofs.Model.Bound
import DataModel.Proofs.Store.Steady

/-!
The links of committed files. They end in what is committed now, and every reference has one: no
file is linked with a version that was replaced, and none waits for something that is not there.
-/
namespace DataModel
namespace Store
variable {s : Store}

/-- A version that is committed under the name of its file. -/
def IsCurrent (s : Store) (v : VersionId) : Prop := s.file? (s.model.fileName v) = some v

/-- What a link may end in now: entities of the name that it asks for, in files as they are
committed; and of domains only the one that the store knows under the name. -/
def current (s : Store) : Horizon where
  files := s.IsCurrent
  classes name k := s.IsCurrent k.version ∧ (s.model.class? k).map (·.name) = some name
  decorators name k := s.IsCurrent k.version ∧ (s.model.decorator? k).map (·.name) = some name
  domains name k := s.IsCurrent k.version ∧ s.domains.get? name = some k ∧
    (s.model.domain? k).map (·.name) = some name
  classes_files h := h.1

namespace Settled
variable (h : s.Settled) (sound : s.Sound)
include h

theorem isCurrent {name : String} {v : VersionId} (known : s.committed.get? name = some v) :
    s.IsCurrent v := by
  rw [IsCurrent, h.named known]
  exact known

include sound in
theorem reach_current {name : String} {v : VersionId} (known : s.committed.get? name = some v) :
    (s.reach v).Within s.current := by
  have below : ∀ {w}, s.Below v w → s.IsCurrent w := by
    intro w path
    obtain ⟨name', known'⟩ := committed_of_below path known
    exact h.isCurrent known'
  refine ⟨below, And.imp_left below, And.imp_left below, fun {name' k} found => ?_⟩
  obtain ⟨name'', known'⟩ := domains_file sound.committedOnce found
  exact ⟨h.isCurrent known', found, (Model.mem_domainTable found).2⟩

include sound in
theorem linked_current {name : String} {v : VersionId} (known : s.committed.get? name = some v) :
    ∃ ver, s.model.version? v = some ver ∧ ver.Linked s.current := by
  obtain ⟨ver, found⟩ := Model.has_iff.mp (sound.committed known).1
  exact ⟨ver, found, (h.linked known found).mono (h.reach_current sound known)⟩

/-- No committed file uses itself, over any number of files. -/
theorem acyclic {name : String} {v : VersionId} (known : s.committed.get? name = some v) :
    ¬ Relation.TransGen (fun v w => w ∈ s.dependencies v) v v := by
  intro circle
  obtain ⟨rank, falls⟩ := h.falls
  obtain ⟨d, dependency, path⟩ := Relation.TransGen.head'_iff.mp circle
  exact Nat.lt_irrefl _ (rank_strictly_below falls known dependency path)

end Settled

/-- A committed file with nothing missing: what it uses is there and does not lead back to it, its
own classes and endpoints and its converters are bound, and what its aliases name is on offer. -/
structure Whole (s : Store) (v : VersionId) : Prop where
  uses : ∀ use ∈ s.model.uses v, ∃ d, s.file? use.name = some d
  acyclic : ¬ Relation.TransGen (fun v w => w ∈ s.dependencies v) v v
  classes : ∀ k ∈ s.model.ownClasses v, ∃ c, s.model.class? k = some c ∧ c.Bound s.current
  endpoints : ∀ k ∈ s.model.ownEndpoints v, ∃ e, s.model.endpoint? k = some e ∧ e.Bound s.current
  converters : ∀ i d, s.model.domain? ⟨v, i⟩ = some d → ∀ c ∈ d.converters, c.Bound s.current
  sharedClasses : ∀ f, s.model.file? v = some f → ∀ a ∈ f.aliases, ∀ r ∈ a.classes,
    s.model.OffersClass v r.name
  sharedEndpoints : ∀ f, s.model.file? v = some f → ∀ a ∈ f.aliases, ∀ r ∈ a.endpoints,
    s.model.OffersEndpoint v r.name

theorem Settled.whole (h : s.Settled) (sound : s.Sound) {name : String} {v : VersionId}
    (known : s.committed.get? name = some v) : s.Whole v := by
  obtain ⟨complete, uses⟩ := h.complete known
  obtain ⟨ver, found, linked⟩ := h.linked_current sound known
  refine ⟨uses, h.acyclic known, ?_, ?_, ?_, complete.sharedClasses, complete.sharedEndpoints⟩
  · intro k own
    obtain ⟨f, m, n, ds, made⟩ := h.made known
    obtain ⟨rfl, c, there⟩ := made.own_class own
    refine ⟨c, there, Class.Linked.bind ?_ (complete.offered k (Model.classes_of_own own) c there)⟩
    obtain ⟨ver', found', at'⟩ := Model.class?_eq_some there
    rw [found] at found'
    cases found'
    exact linked.file.classes c (List.mem_of_getElem? at')
  · intro k own
    obtain ⟨f, m, n, ds, made⟩ := h.made known
    obtain ⟨rfl, e, there⟩ := made.own_endpoint own
    refine ⟨e, there, Endpoint.Linked.bind ?_ (complete.endpoints k own e there)⟩
    obtain ⟨ver', found', at'⟩ := Model.endpoint?_eq_some there
    rw [found] at found'
    cases found'
    exact linked.file.endpoints e (List.mem_of_getElem? at')
  · intro i d there c hc
    have at' := there
    rw [Model.domain?, Model.file?, found] at at'
    have member := List.mem_of_getElem? at'
    exact Converter.Linked.bind (linked.file.domains d member c hc) (complete.domains i d there c hc)

end Store

/-- After a steady history the links of every committed file end in what is committed now. -/
theorem committed_links_current (settings : Settings) (history : List Moment)
    (steady : Steady settings history) :
    let s := Store.after settings history
    ∀ name v, s.file? name = some v →
      ∃ ver, s.model.version? v = some ver ∧ ver.Linked s.current :=
  fun _ _ known =>
    steady.settled.linked_current (Store.after_sound settings history).1 known

theorem committed_links_current_steady : Steady Relinking.settings Relinking.steady ∧
    (Store.after Relinking.settings Relinking.steady).file? "L" = some 3 ∧
    ∃ ver, (Store.after Relinking.settings Relinking.steady).model.version? 3 = some ver ∧
      ver.Linked (Store.after Relinking.settings Relinking.steady).current :=
  ⟨Relinking.steady_keeps, Relinking.file_steady,
    committed_links_current _ _ Relinking.steady_keeps "L" 3 Relinking.file_steady⟩

/-- When a link comes back, a file can share a class of a file that is not committed any more. -/
theorem links_of_unsteady : ¬ ∀ name v,
    (Store.after Relinking.settings Relinking.unsteady).file? name = some v →
      ∃ ver, (Store.after Relinking.settings Relinking.unsteady).model.version? v = some ver ∧
        ver.Linked (Store.after Relinking.settings Relinking.unsteady).current := by
  rw [Relinking.after_unsteady]
  intro all
  obtain ⟨ver, found, linked⟩ := all "L" 1 rfl
  cases found
  have stale := linked.sharedClasses ⟨0, 0⟩ (List.mem_singleton_self _)
  cases stale

/-- After a steady history nothing is missing from any committed file. -/
theorem committed_whole (settings : Settings) (history : List Moment)
    (steady : Steady settings history) :
    let s := Store.after settings history
    ∀ name v, s.file? name = some v → s.Whole v :=
  fun _ _ known => steady.settled.whole (Store.after_sound settings history).1 known

theorem committed_whole_steady : Steady Relinking.settings Relinking.steady ∧
    (Store.after Relinking.settings Relinking.steady).file? "L" = some 3 ∧
    (Store.after Relinking.settings Relinking.steady).Whole 3 :=
  ⟨Relinking.steady_keeps, Relinking.file_steady,
    committed_whole _ _ Relinking.steady_keeps "L" 3 Relinking.file_steady⟩

/-- When a link comes back, a file can be committed that uses itself. -/
theorem circle_of_unsteady :
    ∃ name v, (Store.after Relinking.settings Relinking.unsteady).file? name = some v ∧
      v ∈ (Store.after Relinking.settings Relinking.unsteady).dependencies v := by
  rw [Relinking.after_unsteady]
  exact ⟨"Z", 3, rfl, List.mem_singleton_self 3⟩

end DataModel
