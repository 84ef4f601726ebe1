import DataModel.Proofs.Store.Sound
import DataModel.Proofs.Resolution.Completion
import DataModel.Store.View
import Mathlib.Logic.Relation

/-!
A settled store: each committed file is what resolving it without an error against the committed
files made of it, and no file depends on itself. Then each file is linked with nothing but the
files below it and the known domains, and nothing is left unbound.
-/
namespace DataModel.Store
open Resolution
variable {s s' : Store} {v w : VersionId}

/-- A version that another depends on over any number of uses, or the other itself. -/
def Below (s : Store) : VersionId → VersionId → Prop :=
  Relation.ReflTransGen fun v w => w ∈ s.dependencies v

/-- What the links of a committed version may end in. -/
def reach (s : Store) (v : VersionId) : Horizon where
  files := s.Below v
  classes name k := s.Below v k.version ∧ (s.model.class? k).map (·.name) = some name
  decorators name k := s.Below v k.version ∧ (s.model.decorator? k).map (·.name) = some name
  domains name k := s.domains.get? name = some k
  classes_files h := h.1

theorem reach_within (h : s.Below v w) : (s.reach w).Within (s.reach v) where
  files below := h.trans below
  classes := And.imp_left h.trans
  decorators := And.imp_left h.trans
  domains known := known

/-- How a committed version was made: its file was loaded and resolved without an error in a model
that agrees with the store about everything below it. -/
structure Made (s : Store) (v : VersionId) (f : ModelFile) (before after : Model)
    (ds : List Diagnostic) : Prop where
  loaded : f.IsLoaded s.settings.app
  fresh : before.version? v = some (.fresh v f)
  done : before.resolve v (s.dependencies v) s.domains s.settings.allowCompositeKeys =
    .ok (ds, after)
  clean : Clean ds
  result : s.model.version? v = after.version? v
  below : ∀ {w}, s.Below v w → w ≠ v → s.model.version? w = before.version? w
  domains : ∀ {name k}, s.domains.get? name = some k →
    s.model.fileName k.version = before.fileName k.version

structure Settled (s : Store) : Prop where
  named : ∀ {name v}, s.committed.get? name = some v → s.model.fileName v = name
  made : ∀ {name v}, s.committed.get? name = some v → ∃ f m n ds, s.Made v f m n ds
  falls : ∃ rank : VersionId → Nat, ∀ {name v}, s.committed.get? name = some v →
    ∀ d ∈ s.dependencies v, rank d < rank v

theorem committed_of_dependency {d : VersionId} (h : d ∈ s.dependencies v) :
    ∃ use ∈ s.model.uses v, s.committed.get? use.name = some d := List.mem_filterMap.mp h

/-- What is below a committed version is committed. -/
theorem committed_of_below (h : s.Below v w) {name : String}
    (known : s.committed.get? name = some v) : ∃ name, s.committed.get? name = some w := by
  induction h with
  | refl => exact ⟨name, known⟩
  | tail _ step _ =>
      obtain ⟨use, -, found⟩ := committed_of_dependency step
      exact ⟨use.name, found⟩

/-- A version is either at the top of what is below it or below one of its dependencies. -/
theorem below_cases (h : s.Below v w) : w = v ∨ ∃ d ∈ s.dependencies v, s.Below d w := by
  rcases Relation.ReflTransGen.cases_head h with same | ⟨d, dependency, rest⟩
  · exact .inl same.symm
  · exact .inr ⟨d, dependency, rest⟩

section Ranks
variable {rank : VersionId → Nat}
  (falls : ∀ {name v}, s.committed.get? name = some v → ∀ d ∈ s.dependencies v, rank d < rank v)
include falls

theorem rank_below (h : s.Below v w) {name : String} (known : s.committed.get? name = some v) :
    rank w ≤ rank v := by
  induction h with
  | refl => exact le_refl _
  | tail path step ih =>
      obtain ⟨name', known'⟩ := committed_of_below path known
      exact (falls known' _ step).le.trans ih

/-- Nothing below a dependency of a version has the version's rank. -/
theorem rank_strictly_below {d : VersionId} {name : String}
    (known : s.committed.get? name = some v) (dependency : d ∈ s.dependencies v)
    (h : s.Below d w) : rank w < rank v := by
  obtain ⟨use, -, found⟩ := committed_of_dependency dependency
  exact (rank_below falls h found).trans_lt (falls known d dependency)

end Ranks

namespace Made
variable {f : ModelFile} {m n : Model} {ds : List Diagnostic}

theorem evolves (h : s.Made v f m n ds) : m.Evolves v n := Model.resolve_evolves h.fresh h.done

theorem version?_below (h : s.Made v f m n ds) (below : s.Below v w) :
    s.model.version? w = n.version? w := by
  by_cases here : w = v
  · rw [here, h.result]
  · rw [h.below below here, h.evolves.others here]

theorem className (h : s.Made v f m n ds) {k : Key} (below : s.Below v k.version) :
    (s.model.class? k).map (·.name) = (m.class? k).map (·.name) := by
  rw [Model.class?_congr (h.version?_below below), h.evolves.keepsShape.className]

theorem decorator? (h : s.Made v f m n ds) {k : Key} (below : s.Below v k.version) :
    s.model.decorator? k = m.decorator? k := by
  have same := Model.file?_congr (h.version?_below below)
  rw [← h.evolves.keepsShape.decorator?, Model.decorator?, Model.decorator?, same]

theorem uses (h : s.Made v f m n ds) : s.model.uses v = m.uses v := by
  rw [Model.uses_congr h.result, h.evolves.keepsShape.uses]

/-- The file of a committed version declares what its text says. -/
theorem bare (h : s.Made v f m n ds) : (s.model.file? v).map ModelFile.bare = some f.bare := by
  rw [Model.file?_congr h.result, h.evolves.bare, Model.file?, h.fresh]
  rfl

/-- The own classes of a committed version are classes of its own file. -/
theorem own_class (h : s.Made v f m n ds) {k : Key} (own : k ∈ s.model.ownClasses v) :
    k.version = v ∧ ∃ c, s.model.class? k = some c := by
  rw [Model.ownClasses, h.result] at own
  have early := h.evolves.ownClasses own
  have home := (Model.homed_of_fresh h.fresh).classes k early
  refine ⟨home, ?_⟩
  have offered := Model.classes_of_own early
  rw [Model.classes, h.fresh, Option.map_some, Option.getD_some, Version.fresh] at offered
  obtain ⟨i, inside, rfl⟩ := List.mem_map.mp offered
  have there : m.class? ⟨v, i⟩ = some (f.classes.get ⟨i, List.mem_range.mp inside⟩) := by
    rw [Model.class?, Model.file?, h.fresh]
    exact List.getElem?_eq_getElem _
  have named := h.className (k := ⟨v, i⟩) .refl
  rw [there] at named
  obtain ⟨c, found, -⟩ := Option.map_eq_some_iff.mp named
  exact ⟨c, found⟩

theorem own_endpoint (h : s.Made v f m n ds) {k : Key} (own : k ∈ s.model.ownEndpoints v) :
    k.version = v ∧ ∃ e, s.model.endpoint? k = some e := by
  rw [Model.ownEndpoints, h.result] at own
  have early := h.evolves.ownEndpoints own
  have home := (Model.homed_of_fresh h.fresh).endpoints k early
  refine ⟨home, ?_⟩
  have offered := Model.endpoints_of_own early
  rw [Model.endpoints, h.fresh, Option.map_some, Option.getD_some, Version.fresh] at offered
  obtain ⟨i, inside, rfl⟩ := List.mem_map.mp offered
  have there : m.endpoint? ⟨v, i⟩ = some (f.endpoints.get ⟨i, List.mem_range.mp inside⟩) := by
    rw [Model.endpoint?, Model.file?, h.fresh]
    exact List.getElem?_eq_getElem _
  have named := h.evolves.keepsShape.endpointName ⟨v, i⟩
  rw [there, ← Model.endpoint?_congr (k := ⟨v, i⟩) h.result] at named
  obtain ⟨e, found, -⟩ := Option.map_eq_some_iff.mp named
  exact ⟨e, found⟩

/-- The horizon of a version covers its resolution. -/
theorem covers (h : s.Made v f m n ds) : Covers (s.reach v) m v (s.dependencies v) s.domains where
  self := .refl
  dependencies _ hd := .single hd
  classes below found := ⟨below, by rw [h.className below, found]; rfl⟩
  decorators {w f' i d} below found at' := by
    have same := h.decorator? (k := ⟨w, i⟩) below
    refine ⟨below, ?_⟩
    rw [same, Model.decorator?, found, Option.bind_some, at']
    rfl
  domains known := known

/-- If what is below a version is linked within reach, the model in which it was made is like
itself within the version's reach. -/
theorem like (h : s.Made v f m n ds)
    (linked : ∀ {w ver}, s.Below v w → w ≠ v → s.model.version? w = some ver →
      ver.Linked (s.reach w)) : Model.Like id (s.reach v) m m where
  same := by
    intro w _
    refine exists_movedTo ?_
    rw [Version.rename_id, Option.map_id]
    rfl
  linked {w ver} below found := by
    by_cases here : w = v
    · subst here
      rw [h.fresh] at found
      cases found
      exact Version.fresh_linked h.loaded.unlinked .refl
    · rw [← h.below below here] at found
      exact (linked below here found).mono (reach_within below)
  domains _ := rfl

end Made

namespace Settled
variable (h : s.Settled)
include h

/-- A committed version is linked with what is in its reach only. -/
theorem linked {name : String} (known : s.committed.get? name = some v) {ver : Version}
    (found : s.model.version? v = some ver) : ver.Linked (s.reach v) := by
  obtain ⟨rank, falls⟩ := h.falls
  suffices all : ∀ i v name ver, rank v < i → s.committed.get? name = some v →
      s.model.version? v = some ver → ver.Linked (s.reach v) from
    all (rank v + 1) v name ver (Nat.lt_succ_self _) known found
  intro i
  induction i with
  | zero => exact fun _ _ _ low => absurd low (Nat.not_lt_zero _)
  | succ i ih =>
      intro v name ver low known found
      obtain ⟨f, m, n, ds, made⟩ := h.made known
      have like := made.like fun {w ver} below other found => by
        obtain ⟨d, dependency, rest⟩ := (below_cases below).resolve_left other
        obtain ⟨name', known'⟩ := committed_of_below below known
        have less := rank_strictly_below falls known dependency rest
        exact ih w name' ver (by omega) known' found
      obtain ⟨n', again, like'⟩ := Model.resolve_same like made.covers made.done
      rw [made.done] at again
      cases again
      rw [made.result] at found
      exact like'.linked .refl found

/-- What a committed version offers stands in the files below it. -/
theorem offered_below {name : String} (known : s.committed.get? name = some v) {k : Key}
    (offered : k ∈ s.model.classes v) : s.Below v k.version := by
  rw [Model.classes] at offered
  cases found : s.model.version? v with
  | none =>
      rw [found] at offered
      cases offered
  | some ver =>
      rw [found] at offered
      exact (h.linked known found).classes k offered

theorem offeredEndpoint_below {name : String} (known : s.committed.get? name = some v) {k : Key}
    (offered : k ∈ s.model.endpoints v) : s.Below v k.version := by
  rw [Model.endpoints] at offered
  cases found : s.model.version? v with
  | none =>
      rw [found] at offered
      cases offered
  | some ver =>
      rw [found] at offered
      exact (h.linked known found).endpoints k offered

/-- In a committed version nothing is left unbound, and what it uses is committed. -/
theorem complete {name : String} (known : s.committed.get? name = some v) :
    s.model.Complete v ∧ ∀ use ∈ s.model.uses v, ∃ d, s.committed.get? use.name = some d := by
  obtain ⟨rank, falls⟩ := h.falls
  suffices all : ∀ i v name, rank v < i → s.committed.get? name = some v →
      s.model.Complete v ∧ ∀ use ∈ s.model.uses v, ∃ d, s.committed.get? use.name = some d from
    all (rank v + 1) v name (Nat.lt_succ_self _) known
  intro i
  induction i with
  | zero => exact fun _ _ low => absurd low (Nat.not_lt_zero _)
  | succ i ih =>
      intro v name low known
      obtain ⟨f, m, n, ds, made⟩ := h.made known
      have version? : ∀ {w}, s.Below v w → s.model.version? w = n.version? w :=
        made.version?_below
      have apart : ∀ d ∈ s.dependencies v, d ≠ v ∧ ∀ k ∈ m.classes d, Foreign m v k := by
        intro d dependency
        obtain ⟨use, -, known'⟩ := committed_of_dependency dependency
        have less := rank_strictly_below falls known dependency .refl
        have other : d ≠ v := fun same => Nat.lt_irrefl _ (same ▸ less)
        have complete' := (ih d use.name (by omega) known').1
        refine ⟨other, fun k offered => ?_⟩
        rw [Model.classes, ← made.below (.single dependency) other] at offered
        have below := h.offered_below known' offered
        have other' : k.version ≠ v := by
          intro same
          exact Nat.lt_irrefl _ (same ▸ rank_strictly_below falls known dependency below)
        refine ⟨other', fun c found => complete'.offered k offered c ?_⟩
        rw [Model.class?_congr (made.below (.head dependency below) other')]
        exact found
      obtain ⟨complete, uses⟩ := Model.resolve_complete made.fresh apart made.done made.clean
      refine ⟨complete.congr made.result ?_ ?_, ?_⟩
      · intro k offered
        rw [Model.classes, ← made.result] at offered
        exact version? (h.offered_below known offered)
      · intro k offered
        rw [Model.endpoints, ← made.result] at offered
        exact version? (h.offeredEndpoint_below known offered)
      · intro use hu
        rw [made.uses] at hu
        obtain ⟨d, dependency, same⟩ := uses use hu
        obtain ⟨use', -, known'⟩ := committed_of_dependency dependency
        have named : s.model.fileName d = m.fileName d :=
          Model.fileName_congr (made.below (.single dependency) (apart d dependency).1)
        rw [h.named known', same] at named
        exact ⟨d, named ▸ known'⟩

end Settled

end DataModel.Store
