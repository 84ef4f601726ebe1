import DataModel.Proofs.Model.Linked
import DataModel.Proofs.Model.Names
import Mathlib.Logic.Relation
import Mathlib.Order.WellFoundedSet

/-!
Primary keys. An association goes to a class with a single primary key, which may be an association
itself, and so on; where no class leads back to itself, this comes to an end, and every name is
known.
-/
namespace DataModel

section Links

/-- A class with exactly one primary key. -/
def Model.HasSingleKey (m : Model) (k : Key) : Prop :=
  ∃ c, m.class? k = some c ∧ c.primaryKeys.length = 1

/-- An association, if it is bound, goes to a class with exactly one primary key. -/
def Property.Keyed (m : Model) : Property → Prop
  | .association a => ∀ k, a.target = some k → m.HasSingleKey k
  | .regular _ | .composition _ | .alias _ => True

structure Model.Keyed (m : Model) : Prop where
  classes : ∀ {k c}, m.class? k = some c → ∀ p ∈ c.properties, p.Keyed m
  endpoints : ∀ {k e}, m.endpoint? k = some e → ∀ p ∈ e.properties, p.Keyed m

/-- Every class is still there and has as many primary keys as before. -/
def Model.KeepsKeys (m n : Model) : Prop :=
  ∀ k c, m.class? k = some c →
    ∃ d, n.class? k = some d ∧ d.primaryKeys.length = c.primaryKeys.length

end Links

section Keys
variable {m n n' : Model} {k : Key}

theorem Model.KeepsKeys.refl (m : Model) : m.KeepsKeys m :=
  fun _ c found => ⟨c, found, rfl⟩

theorem Model.KeepsKeys.trans (h : m.KeepsKeys n) (h' : n.KeepsKeys n') : m.KeepsKeys n' := by
  intro k c found
  obtain ⟨d, found', count⟩ := h k c found
  obtain ⟨e, found'', count'⟩ := h' k d found'
  exact ⟨e, found'', count'.trans count⟩

theorem Model.KeepsKeys.single (h : m.KeepsKeys n) (single : m.HasSingleKey k) :
    n.HasSingleKey k := by
  obtain ⟨c, found, one⟩ := single
  obtain ⟨d, found', count⟩ := h k c found
  exact ⟨d, found', count.trans one⟩

theorem Property.Keyed.keep {p : Property} (keyed : p.Keyed m) (h : m.KeepsKeys n) :
    p.Keyed n := by
  cases p with
  | association a => exact fun k bound => h.single (keyed k bound)
  | _ => trivial

theorem Model.KeepsKeys.setClass {c d : Class} (found : n.class? k = some c)
    (count : d.primaryKeys.length = c.primaryKeys.length) : n.KeepsKeys (n.setClass k d) := by
  intro l e there
  rw [class?_setClass]
  split
  · next here =>
    subst here
    rw [found] at there ⊢
    cases there
    exact ⟨d, rfl, count⟩
  · exact ⟨e, there, rfl⟩

theorem Model.KeepsKeys.ofClasses (classes : ∀ k, n.class? k = m.class? k) : m.KeepsKeys n :=
  fun k c found => ⟨c, (classes k).trans found, rfl⟩

theorem Model.Keyed.setClass {c d : Class} (keyed : n.Keyed) (found : n.class? k = some c)
    (count : d.primaryKeys.length = c.primaryKeys.length) (new : ∀ p ∈ d.properties, p.Keyed n) :
    (n.setClass k d).Keyed := by
  have kept := KeepsKeys.setClass found count
  refine ⟨fun {l e} there p hp => ?_, fun {l e} there p hp => ?_⟩
  · rw [class?_setClass] at there
    split at there
    · obtain ⟨_, -, rfl⟩ := Option.map_eq_some_iff.mp there
      exact (new p hp).keep kept
    · exact (keyed.classes there p hp).keep kept
  · rw [endpoint?_setClass] at there
    exact (keyed.endpoints there p hp).keep kept

theorem Model.Keyed.setEndpoint {e : Endpoint} (keyed : n.Keyed)
    (new : ∀ p ∈ e.properties, p.Keyed n) : (n.setEndpoint k e).Keyed := by
  have kept : n.KeepsKeys (n.setEndpoint k e) := .ofClasses fun l => n.class?_setEndpoint k l e
  refine ⟨fun {l c} there p hp => ?_, fun {l d} there p hp => ?_⟩
  · rw [class?_setEndpoint] at there
    exact (keyed.classes there p hp).keep kept
  · rw [endpoint?_setEndpoint] at there
    split at there
    · obtain ⟨_, -, rfl⟩ := Option.map_eq_some_iff.mp there
      exact (new p hp).keep kept
    · exact (keyed.endpoints there p hp).keep kept

theorem Model.Keyed.same (keyed : m.Keyed) (classes : ∀ k, n.class? k = m.class? k)
    (endpoints : ∀ k, n.endpoint? k = m.endpoint? k) : n.Keyed :=
  ⟨fun there p hp => (keyed.classes (classes _ ▸ there) p hp).keep (.ofClasses classes),
    fun there p hp => (keyed.endpoints (endpoints _ ▸ there) p hp).keep (.ofClasses classes)⟩

end Keys

namespace Model
variable {m n : Model}

section Adding

theorem keepsKeys_add (m : Model) (f : ModelFile) : m.KeepsKeys (m.add f).1 := by
  intro k c found
  obtain ⟨ver, known, -⟩ := class?_eq_some found
  rw [class?_congr (version?_add_old f (has_of_version? known))]
  exact ⟨c, found, rfl⟩

theorem Keyed.empty : Model.empty.Keyed where
  classes found := nomatch found
  endpoints found := nomatch found

theorem Keyed.add (keyed : m.Keyed) {f : ModelFile} (unlinked : f.Unlinked) :
    (m.add f).1.Keyed := by
  have kept := keepsKeys_add m f
  have unbound : ∀ p : Property, p.Linked .none → p.Keyed (m.add f).1 := by
    intro p linked
    cases p with
    | association a =>
        intro k bound
        obtain ⟨_, -, no⟩ := linked.target k bound
        exact no.elim
    | _ => trivial
  refine ⟨fun {k c} found p hp => ?_, fun {k e} found p hp => ?_⟩
  · obtain ⟨ver, known, at'⟩ := class?_eq_some found
    rcases has_add.mp (has_of_version? known) with here | there
    · rw [here, version?_add_new] at known
      cases known
      exact unbound p ((unlinked.classes c (List.mem_of_getElem? at')).properties p hp)
    · rw [class?_congr (version?_add_old f there)] at found
      exact (keyed.classes found p hp).keep kept
  · obtain ⟨ver, known, at'⟩ := endpoint?_eq_some found
    rcases has_add.mp (has_of_version? known) with here | there
    · rw [here, version?_add_new] at known
      cases known
      have linked := unlinked.endpoints e (List.mem_of_getElem? at')
      rcases List.mem_append.mp hp with param | returned
      · exact unbound p (linked.params p param)
      · exact unbound p (linked.returns p (Option.mem_toList.mp returned))
    · rw [endpoint?_congr (version?_add_old f there)] at found
      exact (keyed.endpoints found p hp).keep kept

end Adding

section Chains

/-- The only primary key of a class is an association, which goes to a class. -/
def KeyStep (m : Model) (k t : Key) : Prop :=
  ∃ c key, m.class? k = some c ∧ c.primaryKeys = [.association key] ∧ key.target = some t

/-- No class leads back to itself through the keys. -/
def Acyclic (m : Model) : Prop := ∀ k, ¬ Relation.TransGen m.KeyStep k k

/-- The way from an association to the key of its class, to the key of that one's class, and so on
comes to an end: at a regular key, or at an association that is not bound. -/
inductive Ends (m : Model) : Association → Prop
  | unbound {a : Association} (target : a.target = none) : Ends m a
  | regular {a : Association} {k : Key} {c : Class} {key : Regular} (target : a.target = some k)
    (found : m.class? k = some c) (single : c.primaryKeys = [.regular key]) : Ends m a
  | association {a : Association} {k : Key} {c : Class} {key : Association}
    (target : a.target = some k) (found : m.class? k = some c)
    (single : c.primaryKeys = [.association key]) (rest : Ends m key) : Ends m a

/-- Steps between keys lead from one class to another one of finitely many. -/
theorem Acyclic.wellFounded (acyclic : m.Acyclic) : WellFounded fun t k => m.KeyStep k t := by
  have inside : ∀ k, k ∈ m.classKeys → Acc (fun t k => m.KeyStep k t) k := by
    have order : IsStrictOrder Key fun t k => Relation.TransGen m.KeyStep k t :=
      { irrefl := acyclic, trans := fun _ _ _ first second => second.trans first }
    have finite := m.classKeys.finite_toSet.wellFoundedOn
      (r := fun t k => Relation.TransGen m.KeyStep k t)
    intro k hk
    refine finite.induction hk fun k _ ih => Acc.intro k fun t step => ?_
    by_cases there : t ∈ m.classKeys
    · exact ih t there (.single step)
    · refine Acc.intro t fun t' ⟨c, _, found, _⟩ => absurd (mem_classKeys ?_) there
      rw [found]
      rfl
  refine ⟨fun k => Acc.intro k fun t step => ?_⟩
  have known : k ∈ m.classKeys := by
    obtain ⟨c, _, found, _⟩ := step
    exact mem_classKeys (by rw [found]; rfl)
  exact (inside k known).inv step

/-- Where no class leads back to itself, the name of every association is known. -/
theorem Acyclic.associationName (acyclic : m.Acyclic) (a : Association) :
    (m.associationName? (m.classCount + 1) a).isSome := by
  suffices found : ∃ fuel name, m.associationName? fuel a = some name by
    obtain ⟨fuel, name, known⟩ := found
    rw [associationName?_enough known]
    rfl
  have onward : ∀ k a, a.target = some k → ∃ fuel name, m.associationName? fuel a = some name := by
    intro k
    induction k using acyclic.wellFounded.induction with
    | _ k ih =>
      intro a target
      rcases m.associationName?_cases a with ⟨name, known⟩ | ⟨k', c, key, same, found, keys, next⟩
      · exact ⟨1, name, known 0⟩
      · rw [target] at same
        cases same
        cases bound : key.target with
        | none =>
            rcases m.associationName?_cases key with ⟨name, known⟩ | ⟨_, _, _, same, -⟩
            · exact ⟨2, _, by rw [next, known]; rfl⟩
            · rw [bound] at same
              cases same
        | some t =>
            obtain ⟨fuel, name, known⟩ := ih t ⟨c, key, found, keys, bound⟩ key bound
            exact ⟨fuel + 1, _, by rw [next, known]; rfl⟩
  rcases m.associationName?_cases a with ⟨name, known⟩ | ⟨k, _, _, target, -⟩
  · exact ⟨1, name, known 0⟩
  · exact onward k a target

theorem Acyclic.propertyName (acyclic : m.Acyclic) (p : Property) :
    (m.propertyName? p).isSome := by
  cases p with
  | association a => exact acyclic.associationName a
  | _ => rfl

/-- Where no class leads back to itself and all associations go to single keys, the way from each
association to its key comes to an end. -/
theorem Acyclic.ends (acyclic : m.Acyclic) (keyed : m.Keyed) {a : Association}
    (single : Property.Keyed m (.association a)) : m.Ends a := by
  cases bound : a.target with
  | none => exact .unbound bound
  | some k =>
      induction k using acyclic.wellFounded.induction generalizing a with
      | _ k ih =>
        obtain ⟨c, found, one⟩ := single k bound
        obtain ⟨p, keys⟩ := List.length_eq_one_iff.mp one
        obtain ⟨member, isKey⟩ : p ∈ c.properties ∧ p.isPrimaryKey = true := by
          rw [← List.mem_filter, ← Class.primaryKeys, keys]
          exact List.mem_singleton_self p
        cases p with
        | regular key => exact .regular bound found keys
        | association key =>
            refine .association bound found keys ?_
            cases next : key.target with
            | none => exact .unbound next
            | some t => exact ih t ⟨c, key, found, keys, next⟩ (keyed.classes found _ member) next
        | composition p => cases isKey
        | «alias» p => cases isKey

/-- Models whose classes have the same keys have the same steps between them. -/
theorem Acyclic.keep (acyclic : m.Acyclic)
    (same : ∀ k, (n.class? k).map (·.primaryKeys) = (m.class? k).map (·.primaryKeys)) :
    n.Acyclic := by
  have steps : ∀ k t, n.KeyStep k t → m.KeyStep k t := by
    rintro k t ⟨c, key, found, keys, target⟩
    have known := same k
    rw [found, Option.map_some, keys, eq_comm, Option.map_eq_some_iff] at known
    obtain ⟨d, found', keys'⟩ := known
    exact ⟨d, key, found', keys', target⟩
  exact fun k circle => acyclic k (Relation.TransGen.mono steps _ _ circle)

end Chains

end Model
end DataModel
