import DataModel.Model.Diagnostic
import DataModel.Proofs.Model.Linked
import DataModel.Proofs.Model.Names

/-!
Links to classes under other keys. An entity is relinked if every link of it to a class goes to
the key that stands for the old one; links to domains and decorators stay. What a property is
called, and what it is, does not depend on the keys under which its classes are found. An entity
is unbound if it has no link that stands for a reference in it.
-/
namespace DataModel

section Relinking
variable (σ : Key → Key)

def Association.relink (a : Association) : Association := { a with target := a.target.map σ }

def Composition.relink (c : Composition) : Composition := { c with target := c.target.map σ }

def Property.relink : Property → Property
  | .regular p => .regular p
  | .association p => .association (p.relink σ)
  | .composition p => .composition (p.relink σ)
  | .alias p => .alias p

def Class.relink (c : Class) : Class :=
  { c with parent := c.parent.map σ, properties := c.properties.map (Property.relink σ) }

def Endpoint.relink (e : Endpoint) : Endpoint :=
  { e with
    params := e.params.map (Property.relink σ)
    returns := e.returns.map (Property.relink σ) }

def Subject.relink : Subject → Subject
  | .class k => .class (σ k)
  | .property p => .property (p.relink σ)
  | .file v => .file v
  | .domain k => .domain k
  | .fileAlias a => .fileAlias a

def Diagnostic.relink (d : Diagnostic) : Diagnostic :=
  { d with subject := d.subject.map (Subject.relink σ) }

end Relinking

section Identity

@[simp] theorem Property.relink_id : Property.relink id = id := by
  funext p
  cases p <;> simp [Property.relink, Association.relink, Composition.relink]

@[simp] theorem Class.relink_id : Class.relink id = id := by
  funext c
  simp [Class.relink]

@[simp] theorem Endpoint.relink_id : Endpoint.relink id = id := by
  funext e
  simp [Endpoint.relink]

end Identity

section Reading
variable (σ : Key → Key)

@[simp] theorem Property.location_relink (p : Property) : (p.relink σ).location = p.location := by
  cases p <;> rfl

@[simp] theorem Property.isPrimaryKey_relink (p : Property) :
    (p.relink σ).isPrimaryKey = p.isPrimaryKey := by
  cases p <;> rfl

@[simp] theorem Property.isField_relink (p : Property) : (p.relink σ).isField = p.isField := by
  cases p <;> rfl

@[simp] theorem Property.isAlias_relink (p : Property) : (p.relink σ).isAlias = p.isAlias := by
  cases p <;> rfl

@[simp] theorem Property.alias?_relink (p : Property) : (p.relink σ).alias? = p.alias? := by
  cases p <;> rfl

theorem filterMap_alias?_relink (ps : List Property) :
    (ps.map (Property.relink σ)).filterMap Property.alias? = ps.filterMap Property.alias? := by
  rw [List.filterMap_map]
  exact List.filterMap_congr fun p _ => Property.alias?_relink σ p

theorem Class.primaryKeys_relink (c : Class) :
    (c.relink σ).primaryKeys = c.primaryKeys.map (Property.relink σ) := by
  show (c.properties.map _).filter _ = (c.properties.filter _).map _
  rw [List.filter_map]
  exact congrArg _ (List.filter_congr fun p _ => Property.isPrimaryKey_relink σ p)

end Reading

section Unbinding

/-- A key that does not stand for a reference. -/
def unanswered (key : Option Key) (r : Option Reference) : Option Key :=
  if r.isSome then none else key

def Placeholder.unbound (a : Placeholder) : Placeholder :=
  { a with listDomain := unanswered a.listDomain a.listDomainReference }

def Property.unbound : Property → Property
  | .regular p => .regular { p with domain := none }
  | .association p => .association { p with target := none }
  | .composition p =>
    .composition
      { p with target := none, domainKind := unanswered p.domainKind p.domainKindReference }
  | .alias p => .alias p.unbound

def Class.unbound (c : Class) : Class :=
  { c with
    parent := unanswered c.parent c.parentReference
    decorators := []
    properties := c.properties.map Property.unbound }

def Endpoint.unbound (e : Endpoint) : Endpoint :=
  { e with
    params := e.params.map Property.unbound
    returns := e.returns.map Property.unbound }

/-- What a link does not show in can be told from properties that are unbound. -/
theorem read_of_unbound {α : Type} {ps qs : List Property} (read : Property → α)
    (still : ∀ p, read p.unbound = read p)
    (same : qs.map Property.unbound = ps.map Property.unbound) : qs.map read = ps.map read := by
  have whole : ∀ ps : List Property, ps.map read = (ps.map Property.unbound).map read := by
    intro ps
    rw [List.map_map]
    exact List.map_congr_left fun p _ => (still p).symm
  rw [whole, same, ← whole]

@[simp] theorem Property.origin?_unbound (p : Property) : p.unbound.origin? = p.origin? := by
  cases p <;> rfl

@[simp] theorem Property.isPrimaryKey_unbound (p : Property) :
    p.unbound.isPrimaryKey = p.isPrimaryKey := by
  cases p <;> rfl

@[simp] theorem Property.alias?_unbound (p : Property) :
    p.unbound.alias? = p.alias?.map Placeholder.unbound := by
  cases p <;> rfl

theorem Class.primaryKeys_of_unbound {c d : Class} (same : d.unbound = c.unbound) :
    d.primaryKeys.map Property.unbound = c.primaryKeys.map Property.unbound := by
  have whole : ∀ c : Class, c.primaryKeys.map Property.unbound =
      (c.properties.map Property.unbound).filter (·.isPrimaryKey) := by
    intro c
    rw [primaryKeys, List.filter_map]
    exact congrArg _ (List.filter_congr fun p _ => (Property.isPrimaryKey_unbound p).symm)
  rw [whole, whole]
  exact congrArg _ (congrArg Class.properties same)

/-- A class has as many primary keys whatever it is bound to. -/
theorem Class.keysCount_of_unbound {c d : Class} (same : d.unbound = c.unbound) :
    d.primaryKeys.length = c.primaryKeys.length := by
  simpa using congrArg List.length (primaryKeys_of_unbound same)

end Unbinding

section Slots

/-- The numbers of the aliases of a list. -/
def slots (ps : List Property) : List Nat := ps.filterMap fun p => p.alias?.map (·.slot)

theorem slots_eq (ps : List Property) :
    slots ps = (ps.filterMap Property.alias?).map (·.slot) := by
  rw [slots, List.map_filterMap]

theorem slots_of_unbound {ps qs : List Property}
    (same : qs.map Property.unbound = ps.map Property.unbound) : slots qs = slots ps := by
  have whole : ∀ ps : List Property,
      slots ps = (ps.map fun p => p.alias?.map (·.slot)).filterMap id := by
    intro ps
    rw [slots, List.filterMap_map]
    rfl
  have read := read_of_unbound (fun p => p.alias?.map (·.slot)) (fun p => by
    rw [Property.alias?_unbound, Option.map_map]
    rfl) same
  rw [whole, whole, read]

theorem nodup_of_slots {ps : List Property} (once : (slots ps).Nodup) :
    (ps.filterMap Property.alias?).Nodup := by
  rw [slots_eq] at once
  exact once.of_map _

theorem nodup_slots {ps : List Property} (declared : Declares ps) : (slots ps).Nodup := by
  suffices all : ∀ (ps : List Property) (off : Nat),
      (∀ (i : Nat) (p : Property), ps[i]? = some p → ∀ a, p.alias? = some a → a.slot = off + i) →
      (slots ps).Nodup ∧ ∀ n ∈ slots ps, off ≤ n from
    (all ps 0 fun i p found a isAlias => by
      rw [(declared i p found).numbered a isAlias, Nat.zero_add]).1
  intro ps
  induction ps with
  | nil => exact fun _ _ => ⟨List.nodup_nil, fun n hn => absurd hn List.not_mem_nil⟩
  | cons p ps ih =>
      intro off numbered
      obtain ⟨once, above⟩ := ih (off + 1) fun i q found a isAlias => by
        rw [numbered (i + 1) q found a isAlias]
        omega
      rw [slots] at once above ⊢
      cases isAlias : p.alias? with
      | none =>
          rw [List.filterMap_cons_none (by rw [isAlias]; rfl)]
          exact ⟨once, fun n hn => Nat.le_of_succ_le (above n hn)⟩
      | some a =>
          have here := numbered 0 p rfl a isAlias
          rw [List.filterMap_cons_some (by rw [isAlias]; rfl), List.nodup_cons]
          refine ⟨⟨fun later => ?_, once⟩, ?_⟩
          · have far := above a.slot later
            omega
          · intro n hn
            rcases List.mem_cons.mp hn with rfl | later
            · exact Nat.le_of_eq here.symm
            · exact Nat.le_of_succ_le (above n later)

end Slots

namespace Model
variable {σ : Key → Key} {m m' : Model}

/-- The classes of one model are those of another under other keys, as far as names and primary
keys go. -/
def HeadsAlike (σ : Key → Key) (m m' : Model) : Prop :=
  ∀ k, (m'.class? (σ k)).map (fun c => (c.name, c.primaryKeys)) =
    (m.class? k).map fun c => (c.name, c.primaryKeys.map (Property.relink σ))

theorem associationName?_relink (alike : HeadsAlike σ m m') (fuel : Nat) (a : Association) :
    m'.associationName? fuel (a.relink σ) = m.associationName? fuel a := by
  induction fuel generalizing a with
  | zero => rfl
  | succ fuel ih =>
      simp only [associationName?, Association.relink]
      cases a.givenName with
      | some name => rfl
      | none =>
          cases a.target with
          | none => rfl
          | some k =>
              simp only [Option.map_some, Option.bind_some]
              rw [alike k]
              cases m.class? k with
              | none => rfl
              | some c =>
                  simp only [Option.map_some]
                  rcases c.primaryKeys with _ | ⟨p, _ | ⟨q, rest⟩⟩
                  · rfl
                  · cases p with
                    | regular p => rfl
                    | association key =>
                        simp only [List.map_cons, List.map_nil, Property.relink]
                        rw [ih key]
                    | composition p => rfl
                    | «alias» p => rfl
                  · cases p <;> rfl

theorem propertyName?_relink (alike : HeadsAlike σ m m') (p : Property) :
    m'.propertyName? (p.relink σ) = m.propertyName? p := by
  cases p with
  | regular p => rfl
  | association a =>
      show m'.associationName? _ (a.relink σ) = m.associationName? _ a
      refine Option.ext fun name => ?_
      rw [associationName?_eq_some_iff, associationName?_eq_some_iff]
      simp only [associationName?_relink alike]
  | composition p => rfl
  | «alias» p => rfl

/-- The name of a property depends on nothing but the names and primary keys of classes. -/
theorem propertyName?_congr (same : ∀ k, (m'.class? k).map (fun c => (c.name, c.primaryKeys)) =
    (m.class? k).map fun c => (c.name, c.primaryKeys)) (p : Property) :
    m'.propertyName? p = m.propertyName? p := by
  have alike : HeadsAlike id m m' := by
    intro k
    rw [id, same k]
    simp
  have found := propertyName?_relink alike p
  rwa [Property.relink_id] at found

end Model
end DataModel
