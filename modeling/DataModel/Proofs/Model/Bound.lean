import DataModel.Proofs.Model.Complete
import DataModel.Proofs.Model.Linked

/-!
Bound entities: every reference in them is answered by an entity of exactly its name. What is
linked with entities of the right names only and complete is bound.
-/
namespace DataModel

theorem forall₂_of_sublist {α β : Type} {R : α → β → Prop} {xs : List α} {ys : List β}
    (h : List.SublistForall₂ R xs ys) (whole : xs.length = ys.length) : List.Forall₂ R xs ys := by
  obtain ⟨zs, related, sub⟩ := List.sublistForall₂_iff.mp h
  rwa [← sub.eq_of_length (related.length_eq.symm.trans whole)]

/-- A reference, if there is one, is answered by a key that is allowed for its name. -/
def Meets (allowed : String → Key → Prop) (k : Option Key) (r : Option Reference) : Prop :=
  ∀ ref, r = some ref → ∃ key, k = some key ∧ allowed ref.name key

theorem meets_of_answers {allowed : String → Key → Prop} {k : Option Key} {r : Option Reference}
    (h : Answers allowed k r) (there : r.isSome → k.isSome) : Meets allowed k r := by
  rintro ref rfl
  obtain ⟨key, rfl⟩ := Option.isSome_iff_exists.mp (there rfl)
  obtain ⟨ref', same, known⟩ := h key rfl
  cases same
  exact ⟨key, rfl, known⟩

section Bound
variable (H : Horizon)

def Property.Bound : Property → Prop
  | .regular p => Meets H.domains p.domain (some p.domainReference)
  | .association p => Meets H.classes p.target (some p.reference)
  | .composition p => Meets H.classes p.target (some p.reference) ∧
      Meets H.domains p.domainKind p.domainKindReference
  | .alias p => Meets H.domains p.listDomain p.listDomainReference

structure Class.Bound (c : Class) : Prop where
  parent : Meets H.classes c.parent c.parentReference
  decorators : List.Forall₂ (fun k r => H.decorators r.name k) c.decorators c.decoratorReferences
  properties : ∀ p ∈ c.properties, p.Bound H

def Endpoint.Bound (e : Endpoint) : Prop := ∀ p ∈ e.properties, p.Bound H

/-- A converter with one target for each reference, of its name. -/
def Converter.Bound (c : Converter) : Prop :=
  List.Forall₂ (fun k r => H.domains r.name k) c.targets c.targetReferences

end Bound

section Binding
variable {H : Horizon}

theorem Property.Linked.bind {p : Property} (h : p.Linked H) (complete : p.Complete) :
    p.Bound H := by
  cases p with
  | regular p => exact meets_of_answers h.domain fun _ => complete
  | association p => exact meets_of_answers h.target fun _ => complete
  | composition p =>
      exact ⟨meets_of_answers h.target fun _ => complete.1, meets_of_answers h.domainKind complete.2⟩
  | «alias» p => exact meets_of_answers h complete

theorem Class.Linked.bind {c : Class} (h : c.Linked H) (complete : c.Complete) : c.Bound H :=
  ⟨meets_of_answers h.parent complete.parent, forall₂_of_sublist h.decorators complete.decorators,
    fun p hp => (h.properties p hp).bind (complete.properties p hp)⟩

theorem Endpoint.Linked.bind {e : Endpoint} (h : e.Linked H) (complete : e.Complete) :
    e.Bound H := by
  intro p hp
  rcases List.mem_append.mp hp with param | returned
  · exact (h.params p param).bind (complete.params p param)
  · have there := Option.mem_toList.mp returned
    exact (h.returns p there).bind (complete.returns p there)

theorem Converter.Linked.bind {c : Converter} (h : c.Linked H) (complete : c.Complete) :
    c.Bound H := forall₂_of_sublist h complete

end Binding
end DataModel
