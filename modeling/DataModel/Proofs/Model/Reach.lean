import Mathlib.Logic.Relation
import DataModel.Proofs.Model.Linked

/-!
What can be reached from a version: the versions of the entities that it offers or is linked with,
those that these are linked with, and so on.
-/
namespace DataModel

section Keys

def Placeholder.keys (a : Placeholder) : List Key := a.listDomain.toList

def Property.keys : Property → List Key
  | .regular p => p.domain.toList ++ p.origin.toList.flatMap Placeholder.keys
  | .association p => p.target.toList ++ p.origin.toList.flatMap Placeholder.keys
  | .composition p => p.target.toList ++ p.domainKind.toList
  | .alias p => p.keys

def Class.keys (c : Class) : List Key :=
  c.parent.toList ++ c.decorators ++ c.properties.flatMap Property.keys

def Endpoint.keys (e : Endpoint) : List Key := e.properties.flatMap Property.keys

def Domain.keys (d : Domain) : List Key := d.converters.flatMap (·.targets)

def ModelFile.keys (f : ModelFile) : List Key :=
  f.domains.flatMap Domain.keys ++ f.classes.flatMap Class.keys ++ f.endpoints.flatMap Endpoint.keys

/-- All that a version is linked with, and all that it offers. -/
def Version.keys (v : Version) : List Key :=
  v.file.keys ++ v.classes ++ v.endpoints ++ v.sharedClasses ++ v.sharedEndpoints

end Keys

namespace Model

/-- A link or an offer of one version ends in another. -/
def Links (m : Model) (v w : VersionId) : Prop :=
  ∃ ver, m.version? v = some ver ∧ ∃ k ∈ ver.keys, k.version = w

def Reaches (m : Model) : VersionId → VersionId → Prop := Relation.ReflTransGen m.Links

end Model

section Bounds
variable {P : VersionId → Prop}

theorem Answers.bound {k : Option Key} {r : Option Reference}
    (h : Answers (fun _ k => P k.version) k r) : ∀ l ∈ k.toList, P l.version := by
  intro l hl
  obtain ⟨_, -, known⟩ := h l (Option.mem_toList.mp hl)
  exact known

theorem Property.Linked.bound {p : Property} (h : p.Linked (.of P)) :
    ∀ k ∈ p.keys, P k.version := by
  have origins : ∀ origin : Option Placeholder, (∀ a, origin = some a → a.Linked (.of P)) →
      ∀ k ∈ origin.toList.flatMap Placeholder.keys, P k.version := by
    intro origin linked k hk
    obtain ⟨a, ha, member⟩ := List.mem_flatMap.mp hk
    exact Answers.bound (linked a (Option.mem_toList.mp ha)) k member
  intro k hk
  cases p with
  | regular p =>
      rcases List.mem_append.mp hk with domain | origin
      · exact h.domain.bound k domain
      · exact origins _ h.origin k origin
  | association p =>
      rcases List.mem_append.mp hk with target | origin
      · exact h.target.bound k target
      · exact origins _ h.origin k origin
  | composition p =>
      rcases List.mem_append.mp hk with target | kind
      · exact h.target.bound k target
      · exact h.domainKind.bound k kind
  | «alias» p => exact Answers.bound h k hk

theorem Class.Linked.bound {c : Class} (h : c.Linked (.of P)) : ∀ k ∈ c.keys, P k.version := by
  intro k hk
  rw [keys, List.mem_append, List.mem_append] at hk
  rcases hk with (parent | decorator) | property
  · exact h.parent.bound k parent
  · obtain ⟨_, -, known⟩ := h.decorators.mem decorator
    exact known
  · obtain ⟨p, hp, member⟩ := List.mem_flatMap.mp property
    exact (h.properties p hp).bound k member

theorem Endpoint.Linked.bound {e : Endpoint} (h : e.Linked (.of P)) :
    ∀ k ∈ e.keys, P k.version := by
  intro k hk
  obtain ⟨p, hp, member⟩ := List.mem_flatMap.mp hk
  rcases List.mem_append.mp hp with param | returned
  · exact (h.params p param).bound k member
  · exact (h.returns p (Option.mem_toList.mp returned)).bound k member

theorem ModelFile.Linked.bound {f : ModelFile} (h : f.Linked (.of P)) :
    ∀ k ∈ f.keys, P k.version := by
  intro k hk
  rw [keys, List.mem_append, List.mem_append] at hk
  rcases hk with (domain | class') | endpoint
  · obtain ⟨d, hd, member⟩ := List.mem_flatMap.mp domain
    obtain ⟨c, hc, target⟩ := List.mem_flatMap.mp member
    obtain ⟨_, -, known⟩ := Stand.mem (h.domains d hd c hc) target
    exact known
  · obtain ⟨c, hc, member⟩ := List.mem_flatMap.mp class'
    exact (h.classes c hc).bound k member
  · obtain ⟨e, he, member⟩ := List.mem_flatMap.mp endpoint
    exact (h.endpoints e he).bound k member

/-- What is linked within some versions is linked with no others. -/
theorem Version.Linked.bound {v : Version} (h : v.Linked (.of P)) : ∀ k ∈ v.keys, P k.version := by
  intro k hk
  rw [keys, List.mem_append, List.mem_append, List.mem_append, List.mem_append] at hk
  rcases hk with (((file | class') | endpoint) | shared) | shared
  · exact h.file.bound k file
  · exact h.classes k class'
  · exact h.endpoints k endpoint
  · exact h.sharedClasses k shared
  · exact h.sharedEndpoints k shared

/-- Versions that are linked among themselves reach no others. -/
theorem Model.Reaches.within {m : Model} {v w : VersionId} (h : m.Reaches v w) (start : P v)
    (closed : ∀ {v ver}, P v → m.version? v = some ver → ver.Linked (.of P)) : P w := by
  induction h with
  | refl => exact start
  | tail _ link ih =>
      obtain ⟨ver, found, k, hk, rfl⟩ := link
      exact (closed ih found).bound k hk

end Bounds
end DataModel
