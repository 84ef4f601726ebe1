import DataModel.Proofs.Resolution.Looping
import DataModel.Proofs.Resolution.Placeholders

/-!
Binding in two runs. Before it, the entities of the two runs are the same up to their links; after
it, the links of the second run are those of the first under the keys of the second.
-/
namespace DataModel

section Unbound

/-- A property that differs from another one in its links only. -/
inductive Property.Rebound : Property → Property → Prop
  | regular (p : Regular) (domain : Option Key) :
      Rebound (.regular p) (.regular { p with domain })
  | association (a : Association) (target : Option Key) :
      Rebound (.association a) (.association { a with target })
  | composition (c : Composition) (target domainKind : Option Key)
      (same : unanswered domainKind c.domainKindReference =
        unanswered c.domainKind c.domainKindReference) :
      Rebound (.composition c) (.composition { c with target, domainKind })
  | alias (a : Placeholder) (listDomain : Option Key)
      (same : unanswered listDomain a.listDomainReference =
        unanswered a.listDomain a.listDomainReference) :
      Rebound (.alias a) (.alias { a with listDomain })

theorem Property.rebound {p q : Property} (same : q.unbound = p.unbound) : p.Rebound q := by
  cases p with
  | regular p =>
      cases q with
      | regular q =>
          obtain ⟨_, _, _, _, _, _, domain, _, _, _, _⟩ := q
          obtain ⟨_, _, _, _, _, _, _, _, _, _, _⟩ := p
          cases same
          exact .regular _ domain
      | _ => cases same
  | association a =>
      cases q with
      | association b =>
          obtain ⟨_, _, _, _, _, target, _, _, _, _, _, _⟩ := b
          obtain ⟨_, _, _, _, _, _, _, _, _, _, _, _⟩ := a
          cases same
          exact .association _ target
      | _ => cases same
  | composition c =>
      cases q with
      | composition d =>
          obtain ⟨_, _, _, _, _, target, _, _, domainKind⟩ := d
          obtain ⟨_, _, _, _, _, _, _, _, _⟩ := c
          simp only [unbound, Property.composition.injEq, Composition.mk.injEq] at same
          obtain ⟨rfl, rfl, rfl, rfl, rfl, -, rfl, rfl, same⟩ := same
          exact .composition _ target domainKind same
      | _ => cases same
  | «alias» a =>
      cases q with
      | «alias» b =>
          obtain ⟨_, _, _, _, _, _, _, _, _, _, _, listDomain⟩ := b
          obtain ⟨_, _, _, _, _, _, _, _, _, _, _, _⟩ := a
          simp only [unbound, Placeholder.unbound, Property.alias.injEq,
            Placeholder.mk.injEq] at same
          obtain ⟨rfl, rfl, rfl, rfl, rfl, rfl, rfl, rfl, rfl, rfl, rfl, same⟩ := same
          exact .alias _ listDomain same
      | _ => cases same

@[simp] theorem Property.relink_unbound (σ : Key → Key) (p : Property) :
    p.unbound.relink σ = p.unbound := by
  cases p <;> rfl

/-- A class is relinked if its links are, and the rest is the same. -/
theorem Class.eq_relink {σ : Key → Key} {c d : Class} (same : d.unbound = c.unbound.relink σ)
    (parent : d.parent = c.parent.map σ) (decorators : d.decorators = c.decorators)
    (properties : d.properties = c.properties.map (Property.relink σ)) : d = c.relink σ := by
  obtain ⟨_, _, _, _, _, _, _, _, _, _, _, _, _, _, _, _⟩ := c
  obtain ⟨_, _, _, _, _, _, _, _, _, _, _, _, _, _, _, _⟩ := d
  simp only [unbound, relink, Class.mk.injEq] at same parent decorators properties ⊢
  obtain ⟨h₁, h₂, h₃, h₄, h₅, h₆, h₇, h₈, h₉, h₁₀, -, h₁₁, -, -, h₁₂, h₁₃⟩ := same
  exact ⟨h₁, h₂, h₃, h₄, h₅, h₆, h₇, h₈, h₉, h₁₀, parent, h₁₁, decorators, properties, h₁₂, h₁₃⟩

theorem Endpoint.eq_relink {σ : Key → Key} {e d : Endpoint} (same : d.unbound = e.unbound)
    (params : d.params = e.params.map (Property.relink σ))
    (returns : d.returns = e.returns.map (Property.relink σ)) : d = e.relink σ := by
  obtain ⟨_, _, _, _, _, _, _, _⟩ := e
  obtain ⟨_, _, _, _, _, _, _, _⟩ := d
  simp only [unbound, relink, Endpoint.mk.injEq] at same params returns ⊢
  obtain ⟨h₁, h₂, h₃, h₄, -, -, h₅, h₆⟩ := same
  exact ⟨h₁, h₂, h₃, h₄, params, returns, h₅, h₆⟩

end Unbound

namespace Resolution
variable {μ : Mirror} {s s' : Scope} {n n' : Model}

section Properties

/-- The numbers of primary keys are what binding an association looks at. -/
def KeysCounted (σ : Key → Key) (n n' : Model) : Prop :=
  ∀ k, (n'.class? (σ k)).map (·.primaryKeys.length) = (n.class? k).map (·.primaryKeys.length)

/-- A property, not yet bound, in the two runs. -/
structure Mirror.Awaits (μ : Mirror) (p p' : Property) : Prop where
  same : p'.unbound = p.unbound
  about : μ.subject (.property p) (.property p')

theorem bindTarget_reflects (scopes : μ.Scopes s s') (counted : KeysCounted μ.key n n')
    (a : Association) (t : Option Key) :
    μ.Reflects (fun b b' => b' = b.relink μ.key) (bindTarget n s a)
      (bindTarget n' s' { a with target := t }) := by
  have about : μ.subject (.property (.association { a with target := none }))
      (.property (.association { a with target := none })) := μ.relinked (.property (.association _))
  unfold bindTarget
  refine (findClass_reflects scopes about a.reference).bind ?_
  rintro k _ ⟨-, rfl⟩
  cases k with
  | none => exact .pure rfl
  | some k =>
      have count : (((n'.class? (μ.key k)).map (·.primaryKeys)).getD []).length =
          (((n.class? k).map (·.primaryKeys)).getD []).length := by
        have both := counted k
        cases known : n.class? k with
        | none =>
            rw [known, Option.map_none, Option.map_eq_none_iff] at both
            rw [both]
        | some c =>
            rw [known, Option.map_some] at both
            obtain ⟨d, there, same⟩ := Option.map_eq_some_iff.mp both
            rw [there]
            exact same
      simp only [Option.map_some, count]
      split
      · exact .pure rfl
      · exact (report_reflects scopes .associationKey about a.reference).bind fun _ _ _ => .pure rfl

theorem bindProperty_reflects (scopes : μ.Scopes s s') (files : n'.fileName = n.fileName)
    (counted : KeysCounted μ.key n n') {p p' : Property} (awaits : μ.Awaits p p') :
    μ.Reflects (fun q q' => q' = q.relink μ.key) (bindProperty n s p) (bindProperty n' s' p') := by
  obtain ⟨same, about⟩ := awaits
  cases Property.rebound same with
  | regular p domain =>
      refine (findDomain_reflects scopes files about p.domainReference).bind ?_
      rintro k _ rfl
      exact .pure rfl
  | association a target =>
      refine (bindTarget_reflects scopes counted a target).bind ?_
      rintro b _ rfl
      exact .pure rfl
  | composition c target domainKind kept =>
      obtain ⟨_, _, _, _, reference, _, _, kindReference, kind⟩ := c
      refine (findClass_reflects scopes about reference).bind ?_
      rintro k _ ⟨-, rfl⟩
      cases kindReference with
      | none =>
          cases (kept : domainKind = kind)
          exact .pure rfl
      | some r =>
          refine (findDomain_reflects scopes files about r).bind ?_
          rintro found _ rfl
          exact .pure rfl
  | «alias» a listDomain kept =>
      obtain ⟨_, _, _, _, _, _, _, _, _, _, listReference, old⟩ := a
      cases listReference with
      | none =>
          cases (kept : listDomain = old)
          exact .pure rfl
      | some r =>
          refine (findDomain_reflects scopes files about r).bind ?_
          rintro found _ rfl
          exact .pure rfl

theorem bindProperties_reflects (scopes : μ.Scopes s s') (files : n'.fileName = n.fileName)
    (counted : KeysCounted μ.key n n') {ps ps' : List Property}
    (awaits : List.Forall₂ μ.Awaits ps ps') :
    μ.Reflects (fun qs qs' => qs' = qs.map (Property.relink μ.key)) (ps.mapM (bindProperty n s))
      (ps'.mapM (bindProperty n' s')) := by
  refine (Mirror.Reflects.mapM awaits fun p p' waits =>
    bindProperty_reflects scopes files counted waits).mono fun qs qs' all => ?_
  exact (List.forall₂_eq_eq_eq ▸ (List.forall₂_map_left_iff (f := Property.relink μ.key)).mpr
    (all.imp fun _ _ same => same.symm) : qs.map (Property.relink μ.key) = qs').symm

end Properties
section Entities

/-- A class, not yet bound, in the two runs. -/
structure Mirror.AwaitsClass (μ : Mirror) (c c' : Class) : Prop where
  same : c'.unbound = c.unbound.relink μ.key
  properties : List.Forall₂ μ.Awaits c.properties c'.properties

/-- A class of which the parent is bound. -/
structure Mirror.HasParent (μ : Mirror) (c c' : Class) : Prop extends μ.AwaitsClass c c' where
  parent : c'.parent = c.parent.map μ.key

/-- A class of which the parent and the decorators are bound. -/
structure Mirror.HasHead (μ : Mirror) (c c' : Class) : Prop extends μ.HasParent c c' where
  decorators : c'.decorators = c.decorators

structure Mirror.AwaitsEndpoint (μ : Mirror) (e e' : Endpoint) : Prop where
  same : e'.unbound = e.unbound
  params : List.Forall₂ μ.Awaits e.params e'.params
  returns : Option.Rel μ.Awaits e.returns e'.returns

theorem bindParent_reflects (scopes : μ.Scopes s s') (k : Key) {c c' : Class}
    (awaits : μ.AwaitsClass c c') :
    μ.Reflects μ.HasParent (bindParent s n k c) (bindParent s' n' (μ.key k) c') := by
  obtain ⟨same, properties⟩ := awaits
  have references := congrArg Class.parentReference same
  have parents := congrArg Class.parent same
  have linked : μ.Reflects (fun d d' => d'.parent = d.parent.map μ.key ∧
      List.Forall₂ μ.Awaits d.properties d'.properties)
      (bindParent s n k c) (bindParent s' n' (μ.key k) c') := by
    simp only [Class.unbound, Class.relink] at references parents
    unfold bindParent
    cases given : c.parentReference with
    | none =>
        rw [given] at references
        rw [references, given] at parents
        rw [references]
        exact .pure ⟨parents, properties⟩
    | some r =>
        rw [given] at references
        rw [references]
        refine (findClass_reflects scopes (μ.relinked (.class k)) r).bind ?_
        rintro found _ ⟨-, rfl⟩
        exact .pure ⟨rfl, properties⟩
  refine (linked.gives (bindParent_unbound k c) (bindParent_unbound _ c')).mono ?_
  rintro d d' ⟨⟨parent, rest⟩, unbound, unbound'⟩
  exact ⟨⟨by rw [unbound, unbound', same], rest⟩, parent⟩

theorem bindDecorators_reflects (scopes : μ.Scopes s s') (k : Key) {c c' : Class}
    (head : μ.HasParent c c') :
    μ.Reflects μ.HasHead (bindDecorators s n k c) (bindDecorators s' n' (μ.key k) c') := by
  obtain ⟨⟨same, properties⟩, parent⟩ := head
  have references := congrArg Class.decoratorReferences same
  simp only [Class.unbound, Class.relink] at references
  have linked : μ.Reflects (fun d d' => d'.decorators = d.decorators ∧
      d'.parent = d.parent.map μ.key ∧ List.Forall₂ μ.Awaits d.properties d'.properties)
      (bindDecorators s n k c) (bindDecorators s' n' (μ.key k) c') := by
    unfold bindDecorators
    rw [references]
    refine (Mirror.Reflects.mapM_same fun r _ =>
      findDecorator_reflects scopes (μ.relinked (.class k)) r).bind ?_
    rintro found _ rfl
    exact .pure ⟨rfl, parent, properties⟩
  refine (linked.gives (bindDecorators_unbound k c) (bindDecorators_unbound _ c')).mono ?_
  rintro d d' ⟨⟨decorators, parent', rest⟩, unbound, unbound'⟩
  exact ⟨⟨⟨by rw [unbound, unbound', same], rest⟩, parent'⟩, decorators⟩

theorem bindClassProperties_reflects (scopes : μ.Scopes s s') (files : n'.fileName = n.fileName)
    (counted : KeysCounted μ.key n n') (k : Key) {c c' : Class} (head : μ.HasHead c c') :
    μ.Reflects (fun d d' => d' = d.relink μ.key) (bindClassProperties s n k c)
      (bindClassProperties s' n' (μ.key k) c') := by
  obtain ⟨⟨⟨same, properties⟩, parent⟩, decorators⟩ := head
  have linked : μ.Reflects (fun d d' => d'.parent = d.parent.map μ.key ∧
      d'.decorators = d.decorators ∧ d'.properties = d.properties.map (Property.relink μ.key))
      (bindClassProperties s n k c) (bindClassProperties s' n' (μ.key k) c') := by
    refine (bindProperties_reflects scopes files counted properties).bind ?_
    rintro ps _ rfl
    exact .pure ⟨parent, decorators, rfl⟩
  refine (linked.gives (bindClassProperties_unbound k c) (bindClassProperties_unbound _ c')).mono ?_
  rintro d d' ⟨⟨parent', decorators', properties'⟩, unbound, unbound'⟩
  exact Class.eq_relink (by rw [unbound, unbound', same]) parent' decorators' properties'

theorem bindEndpointProperties_reflects (scopes : μ.Scopes s s') (files : n'.fileName = n.fileName)
    (counted : KeysCounted μ.key n n') {e e' : Endpoint} (awaits : μ.AwaitsEndpoint e e') :
    μ.Reflects (fun d d' => d' = d.relink μ.key) (bindEndpointProperties s n e)
      (bindEndpointProperties s' n' e') := by
  obtain ⟨same, params, returns⟩ := awaits
  have linked : μ.Reflects (fun d d' => d'.params = d.params.map (Property.relink μ.key) ∧
      d'.returns = d.returns.map (Property.relink μ.key))
      (bindEndpointProperties s n e) (bindEndpointProperties s' n' e') := by
    refine (bindProperties_reflects scopes files counted params).bind ?_
    rintro ps _ rfl
    refine (Mirror.Reflects.mapOption returns fun p p' waits =>
      bindProperty_reflects scopes files counted waits).bind fun q q' related => .pure ⟨rfl, ?_⟩
    cases related with
    | none => rfl
    | some same => rw [same]; rfl
  refine (linked.gives (bindEndpointProperties_unbound e)
    (bindEndpointProperties_unbound e')).mono ?_
  rintro d d' ⟨⟨params', returns'⟩, unbound, unbound'⟩
  exact Endpoint.eq_relink (by rw [unbound, unbound', same]) params' returns'

end Entities
section Loops
variable {m m' : Model}

/-- What two runs have in common whatever is bound and expanded: whose entities they are, and in
which order they come. -/
structure Mirror.Alike (μ : Mirror) (s s' : Scope) (m m' : Model) : Prop where
  home : m.Homed s.self
  home' : m'.Homed s'.self
  once : (m.ownClasses s.self).Nodup
  order : μ.order (m.ownClasses s.self) (m'.ownClasses s'.self)
  onceEndpoints : (m.ownEndpoints s.self).Nodup
  sameEndpoints : m'.ownEndpoints s'.self = m.ownEndpoints s.self
  files : m'.fileName = m.fileName

theorem fileName_rebinds {v : VersionId} (step : Model.Rebinds v m n) : n.fileName = m.fileName :=
  funext step.evolves.keepsShape.fileName

theorem Mirror.Alike.rebinds (h : μ.Alike s s' m m') (step : Model.Rebinds s.self m n)
    (step' : Model.Rebinds s'.self m' n') : μ.Alike s s' n n' where
  home := step.homed h.home
  home' := step'.homed h.home'
  once := step.ownClasses ▸ h.once
  order := by
    rw [step.ownClasses, step'.ownClasses]
    exact h.order
  onceEndpoints := step.ownEndpoints ▸ h.onceEndpoints
  sameEndpoints := by
    rw [step.ownEndpoints, step'.ownEndpoints]
    exact h.sameEndpoints
  files := by
    rw [fileName_rebinds step, fileName_rebinds step']
    exact h.files

theorem Rebound.setClass (h : Rebound m n) {k : Key} {c c' : Class} (found : n.class? k = some c)
    (same : c'.unbound = c.unbound) : Rebound m (n.setClass k c') := by
  refine h.trans ⟨fun l => ?_, fun l => ?_⟩
  · rw [Model.class?_setClass]
    split
    · next here =>
      subst here
      rw [found]
      exact .some same
    · exact (Rebound.refl n).classes l
  · rw [Model.endpoint?_setClass]
    exact (Rebound.refl n).endpoints l

theorem Rebound.setEndpoint (h : Rebound m n) {k : Key} {e e' : Endpoint}
    (found : n.endpoint? k = some e) (same : e'.unbound = e.unbound) :
    Rebound m (n.setEndpoint k e') := by
  refine h.trans ⟨fun l => ?_, fun l => ?_⟩
  · rw [Model.class?_setEndpoint]
    exact (Rebound.refl n).classes l
  · rw [Model.endpoint?_setEndpoint]
    split
    · next here =>
      subst here
      rw [found]
      exact .some same
    · exact (Rebound.refl n).endpoints l

theorem Rebound.keysCount (h : Rebound m n) (k : Key) :
    (n.class? k).map (·.primaryKeys.length) = (m.class? k).map (·.primaryKeys.length) := by
  have both := h.classes k
  cases known : m.class? k with
  | none =>
      rw [known] at both
      cases found : n.class? k with
      | none => rfl
      | some d =>
          rw [found] at both
          cases both
  | some c =>
      rw [known] at both
      cases found : n.class? k with
      | none =>
          rw [found] at both
          cases both
      | some d =>
          rw [found] at both
          cases both with
          | some same =>
              rw [Option.map_some, Option.map_some, Class.keysCount_of_unbound same]

theorem KeysCounted.rebound {σ : Key → Key} (h : KeysCounted σ m m') (step : Rebound m n)
    (step' : Rebound m' n') : KeysCounted σ n n' := by
  intro k
  rw [step'.keysCount, step.keysCount]
  exact h k

/-- Nothing but links of classes changed. -/
structure BindsClasses (v : VersionId) (m n : Model) : Prop where
  changes : ChangesClasses v m n
  rebound : Rebound m n

theorem BindsClasses.trans {v : VersionId} {n' : Model} (h : BindsClasses v m n)
    (h' : BindsClasses v n n') : BindsClasses v m n' :=
  ⟨h.changes.trans h'.changes, h.rebound.trans h'.rebound⟩

structure BindsEndpoints (v : VersionId) (m n : Model) : Prop where
  changes : ChangesEndpoints v m n
  rebound : Rebound m n

theorem forOwnClasses_reflects {f f' : Model → Key → Class → Noting Class}
    {R R' : Class → Class → Prop} (alike : μ.Alike s s' m m') (counted : KeysCounted μ.key m m')
    (related : classKind.Related μ.key R (m.ownClasses s.self) m m')
    (unbound : ∀ n k c, Gives (fun _ d => d.unbound = c.unbound) (f n k c))
    (unbound' : ∀ n k c, Gives (fun _ d => d.unbound = c.unbound) (f' n k c))
    (each : ∀ n n' k c c', n'.fileName = n.fileName → KeysCounted μ.key n n' → R c c' →
      μ.Reflects R' (f n k c) (f' n' (μ.key k) c')) :
    μ.Reflects (fun n n' => BindsClasses s.self m n ∧ BindsClasses s'.self m' n' ∧
        classKind.Related μ.key R' (m.ownClasses s.self) n n' ∧
        ∀ k ∉ m.ownClasses s.self, n.class? k = m.class? k ∧
          n'.class? (μ.key k) = m'.class? (μ.key k))
      (forOwnClasses s f m) (forOwnClasses s' f' m') := by
  rw [forOwnClasses_eq, forOwnClasses_eq]
  refine Kind.loop_reflects_each alike.once (μ.takes alike.order) related ?_ ?_ ?_ ?_ ?_
  · exact ⟨.refl _ m, .refl m⟩
  · exact ⟨.refl _ m', .refl m'⟩
  · intro n k c frame own _ found
    refine (unbound n k c).mono fun _ d same => ⟨?_, frame.rebound.setClass found same⟩
    exact frame.changes.set (alike.home.classes k own) found (Class.bare_of_unbound same)
  · intro n k c frame own _ found
    refine (unbound' n k c).mono fun _ d same => ⟨?_, frame.rebound.setClass found same⟩
    exact frame.changes.set (alike.home'.classes k own) found (Class.bare_of_unbound same)
  · intro n n' k c c' frame frame'
    have here := alike.rebinds frame.changes.toRebinds frame'.changes.toRebinds
    exact each n n' k c c' here.files (counted.rebound frame.rebound frame'.rebound)

theorem forOwnEndpoints_reflects {f f' : Model → Endpoint → Noting Endpoint}
    {R R' : Endpoint → Endpoint → Prop} (alike : μ.Alike s s' m m')
    (counted : KeysCounted μ.key m m')
    (related : endpointKind.Related id R (m.ownEndpoints s.self) m m')
    (unbound : ∀ n e, Gives (fun _ d => d.unbound = e.unbound) (f n e))
    (unbound' : ∀ n e, Gives (fun _ d => d.unbound = e.unbound) (f' n e))
    (each : ∀ n n' e e', n'.fileName = n.fileName → KeysCounted μ.key n n' → R e e' →
      μ.Reflects R' (f n e) (f' n' e')) :
    μ.Reflects (fun n n' => BindsEndpoints s.self m n ∧ BindsEndpoints s'.self m' n' ∧
        endpointKind.Related id R' (m.ownEndpoints s.self) n n' ∧
        ∀ k ∉ m.ownEndpoints s.self, n.endpoint? k = m.endpoint? k ∧
          n'.endpoint? k = m'.endpoint? k)
      (forOwnEndpoints s f m) (forOwnEndpoints s' f' m') := by
  rw [forOwnEndpoints_eq, forOwnEndpoints_eq, alike.sameEndpoints]
  refine Kind.loop_reflects_each alike.onceEndpoints (μ.takes_same _) related ?_ ?_ ?_ ?_ ?_
  · exact ⟨.refl _ m, .refl m⟩
  · exact ⟨.refl _ m', .refl m'⟩
  · intro n k e frame own _ found
    refine (unbound n e).mono fun _ d same => ⟨?_, frame.rebound.setEndpoint found same⟩
    exact frame.changes.set (alike.home.endpoints k own) found
      (Endpoint.bare_of_unbound same)
  · intro n k e frame own _ found
    refine (unbound' n e).mono fun _ d same => ⟨?_, frame.rebound.setEndpoint found same⟩
    exact frame.changes.set (alike.home'.endpoints k (alike.sameEndpoints ▸ own)) found
      (Endpoint.bare_of_unbound same)
  · intro n n' k e e' frame frame'
    have here := alike.rebinds frame.changes.toRebinds frame'.changes.toRebinds
    exact each n n' e e' here.files (counted.rebound frame.rebound frame'.rebound)

end Loops
section Domains
variable {m m' : Model}

/-- Two runs whose domains differ in their links only, and only in the resolved file. -/
structure DomainsAlike (v : VersionId) (m m' : Model) : Prop where
  own : (m'.file? v).map (fun f => f.domains.map Domain.bare) =
    (m.file? v).map fun f => f.domains.map Domain.bare
  others : ∀ k, k.version ≠ v → m'.domain? k = m.domain? k

theorem DomainsAlike.rebinds {v : VersionId} (h : DomainsAlike v m m')
    (step : Model.Rebinds v m n) (step' : Model.Rebinds v m' n')
    (kept : ∀ k, n.domain? k = m.domain? k) (kept' : ∀ k, n'.domain? k = m'.domain? k) :
    DomainsAlike v n n' := by
  have fromBare : ∀ f : ModelFile, f.domains.map Domain.bare = f.bare.domains.map Domain.bare := by
    intro f
    simp [ModelFile.bare, Domain.bare, Converter.bare]
  refine ⟨?_, fun k other => ?_⟩
  · rw [step.evolves.keepsShape.reading fromBare, step'.evolves.keepsShape.reading fromBare]
    exact h.own
  · rw [kept, kept']
    exact h.others k other

theorem forall₂_of_map {α β : Type} {f : α → β} {xs ys : List α} (h : ys.map f = xs.map f) :
    List.Forall₂ (fun x y => f y = f x) xs ys := by
  have all : List.Forall₂ Eq (ys.map f) (xs.map f) := h ▸ List.forall₂_refl _
  exact (List.forall₂_map_left_iff.mp (List.forall₂_map_right_iff.mp all)).flip

theorem forall₂_zipIdx {α : Type} {R : α → α → Prop} {xs ys : List α} (h : List.Forall₂ R xs ys)
    (start : Nat) :
    List.Forall₂ (fun p q : α × Nat => R p.1 q.1 ∧ q.2 = p.2) (xs.zipIdx start)
      (ys.zipIdx start) := by
  induction h generalizing start with
  | nil => exact .nil
  | cons first _ ih => exact .cons ⟨first, rfl⟩ (ih (start + 1))

theorem bindConverter_reflects (scopes : μ.Scopes s s') (files : m'.fileName = m.fileName)
    {t : Subject} (about : μ.subject t t) {c c' : Converter} (same : c'.bare = c.bare) :
    μ.Reflects (fun d d' => d' = d)
      (do
        let found ← c.targetReferences.mapM (findDomain m s t)
        return { c with targets := found.filterMap id })
      (do
        let found ← c'.targetReferences.mapM (findDomain m' s' t)
        return { c' with targets := found.filterMap id }) := by
  have references : c'.targetReferences = c.targetReferences := congrArg (·.targetReferences) same
  rw [references]
  refine (Mirror.Reflects.mapM_same fun r _ => findDomain_reflects scopes files about r).bind ?_
  rintro _ found rfl
  have bound := congrArg (fun d : Converter => { d with targets := found.filterMap id }) same
  exact .pure (references ▸ bound)

theorem bindConverters_reflects (scopes : μ.Scopes s s') (files : m'.fileName = m.fileName)
    (domains : DomainsAlike s.self m m') :
    μ.Reflects (fun n n' => ∀ k, n'.domain? k = n.domain? k) (bindConverters s m)
      (bindConverters s' m') := by
  unfold bindConverters
  rw [scopes.self]
  have declared : (((m'.file? s.self).map (·.domains)).getD []).map Domain.bare =
      (((m.file? s.self).map (·.domains)).getD []).map Domain.bare := by
    have whole : ∀ m : Model, (((m.file? s.self).map (·.domains)).getD []).map Domain.bare =
        ((m.file? s.self).map fun f => f.domains.map Domain.bare).getD [] := by
      intro m
      cases m.file? s.self <;> rfl
    rw [whole, whole, domains.own]
  dsimp only
  refine (Mirror.Reflects.mapM (R := fun d d' => d' = d)
    (forall₂_zipIdx (forall₂_of_map declared) 0) ?_).bind fun bound bound' all => .pure fun k => ?_
  · rintro ⟨d, _⟩ ⟨d', i⟩ ⟨same, rfl⟩
    have converters : d'.converters.map Converter.bare = d.converters.map Converter.bare :=
      congrArg Domain.converters same
    refine (Mirror.Reflects.mapM (forall₂_of_map converters) fun c c' same =>
      bindConverter_reflects scopes files (μ.relinked (.domain ⟨s.self, i⟩)) same).bind ?_
    intro cs cs' all
    have same' : cs' = cs := (List.forall₂_eq_eq_eq ▸ all.flip : cs' = cs)
    subst same'
    exact .pure (congrArg (fun d : Domain => { d with converters := cs' }) same)
  · have same : bound' = bound := (List.forall₂_eq_eq_eq ▸ all.flip : bound' = bound)
    subst same
    have there := congrArg Option.isSome domains.own
    rw [Option.isSome_map, Option.isSome_map] at there
    rw [Model.domain?, Model.domain?, Model.file?_modifyFile, Model.file?_modifyFile]
    by_cases here : s.self = k.version
    · rw [if_pos here, if_pos here, ← here]
      cases known : m.file? s.self with
      | none =>
          cases known' : m'.file? s.self with
          | none => rfl
          | some f' => simp [known, known'] at there
      | some f =>
          cases known' : m'.file? s.self with
          | none => simp [known, known'] at there
          | some f' => rfl
    · rw [if_neg here, if_neg here]
      exact domains.others k (Ne.symm here)

end Domains
section Whole
variable {m m' : Model}

/-- The second run has the classes, endpoints and domains of the first, linked with each other in
the same way. -/
structure Mirror.Models (μ : Mirror) (m m' : Model) : Prop where
  classes : ∀ k, m'.class? (μ.key k) = (m.class? k).map (Class.relink μ.key)
  endpoints : ∀ k, m'.endpoint? k = (m.endpoint? k).map (Endpoint.relink μ.key)
  domains : ∀ k, m'.domain? k = m.domain? k

/-- Where the file is not yet bound, in the two runs. -/
structure Mirror.Begins (μ : Mirror) (s s' : Scope) (m m' : Model) : Prop
    extends μ.Alike s s' m m' where
  counted : KeysCounted μ.key m m'
  classes : classKind.Related μ.key μ.AwaitsClass (m.ownClasses s.self) m m'
  otherClasses : ∀ k ∉ m.ownClasses s.self,
    m'.class? (μ.key k) = (m.class? k).map (Class.relink μ.key)
  endpoints : endpointKind.Related id μ.AwaitsEndpoint (m.ownEndpoints s.self) m m'
  otherEndpoints : ∀ k ∉ m.ownEndpoints s.self,
    m'.endpoint? k = (m.endpoint? k).map (Endpoint.relink μ.key)
  domains : DomainsAlike s.self m m'

theorem missingUses_mirrored (scopes : μ.Scopes s s') (uses : m'.uses s.self = m.uses s.self) :
    missingUses m' s' = missingUses m s := by
  rw [missingUses, missingUses, scopes.self, uses, scopes.dependencies]

theorem checkUses_reflects (scopes : μ.Scopes s s') (uses : m'.uses s.self = m.uses s.self) :
    μ.Reflects (fun _ _ => True) (checkUses m s) (checkUses m' s') := by
  unfold checkUses
  rw [missingUses_mirrored scopes uses, scopes.self]
  exact .forM fun use _ => report_reflects scopes _ (μ.relinked (.file s.self)) _

theorem bindConverters_still :
    Gives (fun _ n => (∀ k, n.class? k = m.class? k) ∧ ∀ k, n.endpoint? k = m.endpoint? k)
      (bindConverters s m) :=
  bindConverters_gives.mono fun _ _ given => ⟨given.2.1, given.2.2.1⟩

theorem bind_models (scopes : μ.Scopes s s') (begins : μ.Begins s s' m m') :
    μ.Reflects (fun n n' => μ.Models n n') (bind s m) (bind s' m') := by
  unfold bind
  have alike := begins.toAlike
  refine (forOwnClasses_reflects alike begins.counted begins.classes (fun _ => bindParent_unbound)
    (fun _ => bindParent_unbound) fun n n' k c c' _ _ => bindParent_reflects scopes k).bind ?_
  rintro m₁ m₁' ⟨first, first', classes₁, others₁⟩
  have alike₁ := alike.rebinds first.changes.toRebinds first'.changes.toRebinds
  have counted₁ := begins.counted.rebound first.rebound first'.rebound
  have own₁ := first.changes.toRebinds.ownClasses
  refine (forOwnClasses_reflects alike₁ counted₁ (own₁ ▸ classes₁) (fun _ => bindDecorators_unbound)
    (fun _ => bindDecorators_unbound) fun n n' k c c' _ _ =>
      bindDecorators_reflects scopes k).bind ?_
  rintro m₂ m₂' ⟨second, second', classes₂, others₂⟩
  have alike₂ := alike₁.rebinds second.changes.toRebinds second'.changes.toRebinds
  have counted₂ := counted₁.rebound second.rebound second'.rebound
  have own₂ := second.changes.toRebinds.ownClasses
  refine (forOwnClasses_reflects alike₂ counted₂ (own₂ ▸ classes₂)
    (fun _ => bindClassProperties_unbound) (fun _ => bindClassProperties_unbound)
    fun n n' k c c' files counted => bindClassProperties_reflects scopes files counted k).bind ?_
  rintro m₃ m₃' ⟨third, third', classes₃, others₃⟩
  have alike₃ := alike₂.rebinds third.changes.toRebinds third'.changes.toRebinds
  have counted₃ := counted₂.rebound third.rebound third'.rebound
  have toThird := ((first.trans second).trans third).changes
  have toThird' := ((first'.trans second').trans third').changes
  have waiting : endpointKind.Related id μ.AwaitsEndpoint (m₃.ownEndpoints s.self) m₃ m₃' := by
    intro k hk
    obtain ⟨e, e', found, found', awaits⟩ :=
      begins.endpoints k (toThird.toRebinds.ownEndpoints ▸ hk)
    exact ⟨e, e', (toThird.endpoints k).trans found, (toThird'.endpoints k).trans found', awaits⟩
  refine (forOwnEndpoints_reflects alike₃ counted₃ waiting (fun _ => bindEndpointProperties_unbound)
    (fun _ => bindEndpointProperties_unbound)
    fun n n' e e' files counted => bindEndpointProperties_reflects scopes files counted).bind ?_
  rintro m₄ m₄' ⟨fourth, fourth', endpoints₄, others₄⟩
  have alike₄ := alike₃.rebinds fourth.changes.toRebinds fourth'.changes.toRebinds
  have domains : DomainsAlike s.self m₄ m₄' := by
    refine begins.domains.rebinds (toThird.toRebinds.trans fourth.changes.toRebinds)
      (scopes.self ▸ toThird'.toRebinds.trans fourth'.changes.toRebinds) (fun k => ?_) fun k => ?_
    · rw [fourth.changes.domains, toThird.domains]
    · rw [fourth'.changes.domains, toThird'.domains]
  refine ((bindConverters_reflects scopes alike₄.files domains).gives
    bindConverters_still bindConverters_still).mono ?_
  rintro n n' ⟨same, ⟨classes, ends⟩, classes', ends'⟩
  refine ⟨fun k => ?_, fun k => ?_, same⟩
  · rw [classes, classes', fourth.changes.classes, fourth'.changes.classes]
    by_cases own : k ∈ m.ownClasses s.self
    · obtain ⟨c, c', found, found', rfl⟩ := classes₃ k
        ((first.trans second).changes.toRebinds.ownClasses ▸ own)
      exact found'.trans (congrArg (Option.map (Class.relink μ.key)) found).symm
    · have own₁ : k ∉ m₁.ownClasses s.self := first.changes.toRebinds.ownClasses ▸ own
      have own₂ : k ∉ m₂.ownClasses s.self := second.changes.toRebinds.ownClasses ▸ own₁
      rw [(others₃ k own₂).1, (others₃ k own₂).2, (others₂ k own₁).1, (others₂ k own₁).2,
        (others₁ k own).1, (others₁ k own).2]
      exact begins.otherClasses k own
  · rw [ends, ends']
    by_cases own : k ∈ m.ownEndpoints s.self
    · obtain ⟨e, e', found, found', rfl⟩ := endpoints₄ k (toThird.toRebinds.ownEndpoints ▸ own)
      exact found'.trans (congrArg (Option.map (Endpoint.relink μ.key)) found).symm
    · have own₃ : k ∉ m₃.ownEndpoints s.self := toThird.toRebinds.ownEndpoints ▸ own
      rw [(others₄ k own₃).1, (others₄ k own₃).2, toThird.endpoints, toThird'.endpoints]
      exact begins.otherEndpoints k own

/-- Binding a file in two runs links it in the same way. -/
theorem bind_reflects (scopes : μ.Scopes s s') (begins : μ.Begins s s' m m') :
    μ.Reflects (fun n n' => μ.Models n n' ∧ Rebinding s.self m n ∧ Rebinding s'.self m' n')
      (bind s m) (bind s' m') :=
  (bind_models scopes begins).gives (bind_rebinding begins.home) (bind_rebinding begins.home')

end Whole
end Resolution
end DataModel
