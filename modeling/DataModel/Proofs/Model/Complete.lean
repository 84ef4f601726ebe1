import DataModel.Proofs.Model.Evolution

/-!
What it means that nothing in a version is left unbound: every reference of what the file offers
has a key, every converter has a target for each of its references, and everything that an alias
of the file names is on offer.
-/
namespace DataModel

def Property.Complete : Property → Prop
  | .regular p => p.domain.isSome
  | .association p => p.target.isSome
  | .composition p => p.target.isSome ∧ (p.domainKindReference.isSome → p.domainKind.isSome)
  | .alias p => p.listDomainReference.isSome → p.listDomain.isSome

structure Class.Complete (c : Class) : Prop where
  parent : c.parentReference.isSome → c.parent.isSome
  decorators : c.decorators.length = c.decoratorReferences.length
  properties : ∀ p ∈ c.properties, p.Complete

structure Endpoint.Complete (e : Endpoint) : Prop where
  params : ∀ p ∈ e.params, p.Complete
  returns : ∀ p, e.returns = some p → p.Complete

def Converter.Complete (c : Converter) : Prop := c.targets.length = c.targetReferences.length

def Domain.Complete (d : Domain) : Prop := ∀ c ∈ d.converters, c.Complete

namespace Model

/-- The classes under some keys all have a property. -/
def AllClasses (m : Model) (ks : List Key) (T : Class → Prop) : Prop :=
  ∀ k ∈ ks, ∀ c, m.class? k = some c → T c

def AllEndpoints (m : Model) (ks : List Key) (T : Endpoint → Prop) : Prop :=
  ∀ k ∈ ks, ∀ e, m.endpoint? k = some e → T e

section Setting
variable {m : Model} {ks : List Key}

theorem AllClasses.nil {T : Class → Prop} : m.AllClasses [] T :=
  fun _ h => absurd h List.not_mem_nil

theorem AllClasses.snoc {T : Class → Prop} {k : Key} (h : m.AllClasses ks T)
    (last : ∀ c, m.class? k = some c → T c) : m.AllClasses (ks ++ [k]) T := by
  intro l hl
  rcases List.mem_append.mp hl with early | here
  · exact h l early
  · exact List.mem_singleton.mp here ▸ last

theorem AllClasses.setClass {T : Class → Prop} {k : Key} {c : Class} (h : m.AllClasses ks T)
    (new : T c) : (m.setClass k c).AllClasses ks T := by
  intro l hl d found
  rw [class?_setClass] at found
  split at found
  · obtain ⟨-, -, rfl⟩ := Option.map_eq_some_iff.mp found
    exact new
  · exact h l hl d found

theorem class?_setClass_self {k : Key} {c d : Class} (found : (m.setClass k c).class? k = some d) :
    d = c := by
  rw [class?_setClass, if_pos rfl] at found
  obtain ⟨-, -, rfl⟩ := Option.map_eq_some_iff.mp found
  rfl

theorem AllEndpoints.nil {T : Endpoint → Prop} : m.AllEndpoints [] T :=
  fun _ h => absurd h List.not_mem_nil

theorem AllEndpoints.snoc {T : Endpoint → Prop} {k : Key} (h : m.AllEndpoints ks T)
    (last : ∀ e, m.endpoint? k = some e → T e) : m.AllEndpoints (ks ++ [k]) T := by
  intro l hl
  rcases List.mem_append.mp hl with early | here
  · exact h l early
  · exact List.mem_singleton.mp here ▸ last

theorem AllEndpoints.setEndpoint {T : Endpoint → Prop} {k : Key} {e : Endpoint}
    (h : m.AllEndpoints ks T) (new : T e) : (m.setEndpoint k e).AllEndpoints ks T := by
  intro l hl d found
  rw [endpoint?_setEndpoint] at found
  split at found
  · obtain ⟨-, -, rfl⟩ := Option.map_eq_some_iff.mp found
    exact new
  · exact h l hl d found

theorem endpoint?_setEndpoint_self {k : Key} {e d : Endpoint}
    (found : (m.setEndpoint k e).endpoint? k = some d) : d = e := by
  rw [endpoint?_setEndpoint, if_pos rfl] at found
  obtain ⟨-, -, rfl⟩ := Option.map_eq_some_iff.mp found
  rfl

end Setting

/-- A name of a class on offer by a version. -/
def OffersClass (m : Model) (v : VersionId) (name : String) : Prop :=
  ∃ k ∈ m.classes v, (m.class? k).map (·.name) = some name

def OffersEndpoint (m : Model) (v : VersionId) (name : String) : Prop :=
  ∃ k ∈ m.endpoints v, (m.endpoint? k).map (·.name) = some name

/-- A version in which nothing is left unbound. -/
structure Complete (m : Model) (v : VersionId) : Prop where
  offered : m.AllClasses (m.classes v) Class.Complete
  endpoints : m.AllEndpoints (m.ownEndpoints v) Endpoint.Complete
  domains : ∀ i d, m.domain? ⟨v, i⟩ = some d → d.Complete
  sharedClasses : ∀ f, m.file? v = some f → ∀ a ∈ f.aliases, ∀ r ∈ a.classes,
    m.OffersClass v r.name
  sharedEndpoints : ∀ f, m.file? v = some f → ∀ a ∈ f.aliases, ∀ r ∈ a.endpoints,
    m.OffersEndpoint v r.name

/-- Being complete is told by a version and by the versions of what it offers. -/
theorem Complete.congr {m m' : Model} {v : VersionId} (h : m.Complete v)
    (self : m'.version? v = m.version? v)
    (classes : ∀ k ∈ m.classes v, m'.version? k.version = m.version? k.version)
    (endpoints : ∀ k ∈ m.endpoints v, m'.version? k.version = m.version? k.version) :
    m'.Complete v := by
  have offered : m'.classes v = m.classes v := by rw [Model.classes, self, Model.classes]
  have offered' : m'.endpoints v = m.endpoints v := by rw [Model.endpoints, self, Model.endpoints]
  have own : m'.ownEndpoints v = m.ownEndpoints v := by
    rw [ownEndpoints, self, ownEndpoints]
  refine ⟨?_, ?_, ?_, ?_, ?_⟩
  · intro k hk c found
    rw [offered] at hk
    rw [class?_congr (classes k hk)] at found
    exact h.offered k hk c found
  · intro k hk e found
    rw [own] at hk
    rw [endpoint?_congr (endpoints k (endpoints_of_own hk))] at found
    exact h.endpoints k hk e found
  · intro i d found
    rw [domain?, file?_congr self] at found
    exact h.domains i d found
  · intro f known a ha r hr
    rw [file?_congr self] at known
    obtain ⟨k, hk, named⟩ := h.sharedClasses f known a ha r hr
    exact ⟨k, offered ▸ hk, by rw [class?_congr (classes k hk), named]⟩
  · intro f known a ha r hr
    rw [file?_congr self] at known
    obtain ⟨k, hk, named⟩ := h.sharedEndpoints f known a ha r hr
    exact ⟨k, offered' ▸ hk, by rw [endpoint?_congr (endpoints k hk), named]⟩

end Model
end DataModel
