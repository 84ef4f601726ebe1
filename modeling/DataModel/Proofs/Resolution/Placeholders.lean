import DataModel.Proofs.Resolution.Expanding

/-!
Placeholders through all steps. A file that was just loaded has nothing to collapse; binding leaves
everything as it is but the links; expanding puts copies in the place of each alias that is not
reported. Only a return value whose alias selects no field stays a placeholder without an error.
-/
namespace DataModel.Resolution
variable {s : Scope} {m n : Model}

section Collapsing

theorem collapseFrom_original {seen : List Placeholder} {ps : List Property}
    (original : ∀ p ∈ ps, p.origin? = none) : collapseFrom seen ps = ps := by
  induction ps with
  | nil => rfl
  | cons p ps ih =>
      obtain ⟨first, rest⟩ := List.forall_mem_cons.mp original
      rw [collapseFrom, first]
      exact congrArg (p :: ·) (ih rest)

theorem collapseReturn_original {p : Property} (original : p.origin? = none) :
    collapseReturn p = p := by
  rw [collapseReturn, original]

/-- A model whose entities of one version are as they were declared. -/
structure Undone (m : Model) (v : VersionId) : Prop where
  classes : ∀ k ∈ m.ownClasses v, ∀ c, m.class? k = some c → ∀ p ∈ c.properties, p.origin? = none
  endpoints : ∀ k ∈ m.ownEndpoints v, ∀ e, m.endpoint? k = some e →
    ∀ p ∈ e.properties, p.origin? = none

theorem forOwnClasses_idle {f : Model → Key → Class → Noting Class}
    (idle : ∀ k ∈ m.ownClasses s.self, ∀ c, m.class? k = some c → f m k c = pure c) :
    forOwnClasses s f m = pure m := by
  unfold forOwnClasses
  generalize m.ownClasses s.self = ks at idle
  induction ks with
  | nil => rfl
  | cons k ks ih =>
      obtain ⟨first, rest⟩ := List.forall_mem_cons.mp idle
      rw [List.foldlM_cons]
      cases found : m.class? k with
      | none => exact (pure_bind _ _).trans (ih rest)
      | some c =>
          simp only [first c found, pure_bind, Model.setClass_self found]
          exact ih rest

theorem forOwnEndpoints_idle {f : Model → Endpoint → Noting Endpoint}
    (idle : ∀ k ∈ m.ownEndpoints s.self, ∀ e, m.endpoint? k = some e → f m e = pure e) :
    forOwnEndpoints s f m = pure m := by
  unfold forOwnEndpoints
  generalize m.ownEndpoints s.self = ks at idle
  induction ks with
  | nil => rfl
  | cons k ks ih =>
      obtain ⟨first, rest⟩ := List.forall_mem_cons.mp idle
      rw [List.foldlM_cons]
      cases found : m.endpoint? k with
      | none => exact (pure_bind _ _).trans (ih rest)
      | some e =>
          simp only [first e found, pure_bind, Model.setEndpoint_self found]
          exact ih rest

/-- Where nothing was expanded there is nothing to collapse. -/
theorem collapseAll_undone (undone : Undone m s.self) : collapseAll s m = pure m := by
  unfold collapseAll
  rw [forOwnClasses_idle, pure_bind, forOwnEndpoints_idle]
  · intro k hk e found
    have original := undone.endpoints k hk e found
    have params : collapse e.params = e.params :=
      collapseFrom_original fun p hp => original p (List.mem_append_left _ hp)
    have returns : e.returns.map collapseReturn = e.returns := by
      cases given : e.returns with
      | none => rfl
      | some p =>
          refine congrArg some (collapseReturn_original (original p ?_))
          exact List.mem_append_right _ (given ▸ List.mem_singleton_self p)
    rw [collapseEndpoint, params, returns]
  · intro k hk c found
    have properties : collapse c.properties = c.properties :=
      collapseFrom_original (undone.classes k hk c found)
    rw [collapseClass, properties]

end Collapsing

section Unbinding

theorem bindProperty_unbound (p : Property) :
    Gives (fun _ q => q.unbound = p.unbound) (bindProperty m s p) := by
  cases p with
  | regular p => exact (findDomain_gives m s _ _).bind fun _ _ _ => .pure rfl
  | association a =>
      have bound : Gives (fun _ b => Property.unbound (.association b) =
          Property.unbound (.association a)) (bindTarget m s a) := by
        unfold bindTarget
        refine (findClass_gives s _ _).bind fun _ k _ => ?_
        cases k with
        | none => exact .pure rfl
        | some k =>
            dsimp only
            split
            · exact .pure rfl
            · exact (report_gives s _ _ _).bind fun _ _ _ => .pure rfl
      exact bound.bind fun _ b same => .pure same
  | composition c =>
      refine (findClass_gives s _ _).bind fun _ target _ => ?_
      cases given : c.domainKindReference with
      | none =>
          refine .pure ?_
          simp [Property.unbound, given]
      | some r =>
          refine (findDomain_gives m s _ r).bind fun _ kind _ => .pure ?_
          simp [Property.unbound, unanswered, given]
  | «alias» a =>
      simp only [bindProperty]
      cases given : a.listDomainReference with
      | none => exact .pure rfl
      | some r =>
          refine (findDomain_gives m s _ r).bind fun _ k _ => .pure ?_
          simp [Property.unbound, Placeholder.unbound, unanswered, given]

theorem bindProperties_unbound (ps : List Property) :
    Gives (fun _ qs => qs.map Property.unbound = ps.map Property.unbound)
      (ps.mapM (bindProperty m s)) := by
  refine (Gives.mapM (P := fun p q => q.unbound = p.unbound) (Q := fun _ _ => True) fun p _ =>
    (bindProperty_unbound p).mono fun _ _ same => ⟨same, fun _ => trivial⟩).mono ?_
  exact fun _ qs all => map_of_forall₂ all.1

theorem bindParent_unbound (k : Key) (c : Class) :
    Gives (fun _ c' => c'.unbound = c.unbound) (bindParent s m k c) := by
  unfold bindParent
  cases given : c.parentReference with
  | none => exact .pure rfl
  | some r =>
      refine (findClass_gives s _ r).bind fun _ parent _ => .pure ?_
      simp [Class.unbound, unanswered, given]

theorem bindDecorators_unbound (k : Key) (c : Class) :
    Gives (fun _ c' => c'.unbound = c.unbound) (bindDecorators s m k c) := by
  unfold bindDecorators
  refine (Gives.mapM (P := fun _ _ => True) (Q := fun _ _ => True) fun r _ =>
    (findDecorator_gives s _ r).mono fun _ _ _ => ⟨trivial, fun _ => trivial⟩).bind ?_
  exact fun _ _ _ => .pure rfl

theorem bindClassProperties_unbound (k : Key) (c : Class) :
    Gives (fun _ c' => c'.unbound = c.unbound) (bindClassProperties s m k c) := by
  refine (bindProperties_unbound c.properties).bind fun _ ps same => .pure ?_
  simp only [Class.unbound, same]

theorem bindEndpointProperties_unbound (e : Endpoint) :
    Gives (fun _ e' => e'.unbound = e.unbound) (bindEndpointProperties s m e) := by
  refine (bindProperties_unbound e.params).bind fun _ params same => ?_
  cases given : e.returns with
  | none =>
      refine .pure ?_
      simp [Endpoint.unbound, same, given]
  | some p =>
      rw [Option.mapM_some, bind_map_left]
      refine (bindProperty_unbound p).bind fun _ q bound => .pure ?_
      simp [Endpoint.unbound, same, given, bound]

/-- Classes and endpoints of two models that differ in their links only. -/
structure Rebound (m n : Model) : Prop where
  classes : ∀ k, Option.Rel (fun c c' : Class => c'.unbound = c.unbound) (m.class? k) (n.class? k)
  endpoints : ∀ k, Option.Rel (fun e e' : Endpoint => e'.unbound = e.unbound) (m.endpoint? k)
    (n.endpoint? k)

theorem Rebound.refl (m : Model) : Rebound m m :=
  ⟨fun k => rel_refl (R := fun c c' : Class => c'.unbound = c.unbound) (fun _ => rfl) (m.class? k),
    fun k => rel_refl (R := fun e e' : Endpoint => e'.unbound = e.unbound) (fun _ => rfl)
      (m.endpoint? k)⟩

theorem Rebound.trans {n' : Model} (h : Rebound m n) (h' : Rebound n n') : Rebound m n' :=
  ⟨fun k => rel_trans (R := fun c c' : Class => c'.unbound = c.unbound)
      (fun first second => second.trans first) (h.classes k) (h'.classes k),
    fun k => rel_trans (R := fun e e' : Endpoint => e'.unbound = e.unbound)
      (fun first second => second.trans first) (h.endpoints k) (h'.endpoints k)⟩

theorem Rebound.class_before (h : Rebound m n) {k : Key} {d : Class} (found : n.class? k = some d) :
    ∃ c, m.class? k = some c ∧ d.unbound = c.unbound := by
  have both := h.classes k
  rw [found] at both
  cases known : m.class? k with
  | none =>
      rw [known] at both
      cases both
  | some c =>
      rw [known] at both
      cases both with
      | some same => exact ⟨c, rfl, same⟩

theorem Rebound.endpoint_before (h : Rebound m n) {k : Key} {d : Endpoint}
    (found : n.endpoint? k = some d) :
    ∃ e, m.endpoint? k = some e ∧ d.unbound = e.unbound := by
  have both := h.endpoints k
  rw [found] at both
  cases known : m.endpoint? k with
  | none =>
      rw [known] at both
      cases both
  | some e =>
      rw [known] at both
      cases both with
      | some same => exact ⟨e, rfl, same⟩

theorem Class.bare_of_unbound {c d : Class} (same : d.unbound = c.unbound) : d.bare = c.bare := by
  have bare := congrArg Class.bare same
  exact bare

theorem Endpoint.bare_of_unbound {e d : Endpoint} (same : d.unbound = e.unbound) :
    d.bare = e.bare := by
  have bare := congrArg Endpoint.bare same
  exact bare

/-- A step that changes nothing of the resolved file but links. -/
structure Rebinding (v : VersionId) (m n : Model) : Prop extends Model.Rebinds v m n, Rebound m n

theorem Rebinding.trans {v : VersionId} {n' : Model} (h : Rebinding v m n)
    (h' : Rebinding v n n') : Rebinding v m n' :=
  ⟨h.toRebinds.trans h'.toRebinds, h.toRebound.trans h'.toRebound⟩

theorem forOwnClasses_rebinding (home : m.Homed s.self)
    {f : Model → Key → Class → Noting Class}
    (each : ∀ n k c, Gives (fun _ c' => c'.unbound = c.unbound) (f n k c)) :
    Gives (fun _ n => Rebinding s.self m n) (forOwnClasses s f m) := by
  have changes := forOwnClasses_gives (s := s) (f := f) home (fun _ (h : True) => h)
    fun n k c _ _ => (each n k c).mono fun _ _ same => ⟨Class.bare_of_unbound same, fun _ => id⟩
  have keeps := forOwnClasses_keeps (s := s) (m := m) (K := fun c c' => c'.unbound = c.unbound)
    (fun _ => rfl) (fun first second => second.trans first) each
  refine (changes.and keeps).mono fun _ n both => ⟨both.1.1.toRebinds, both.2, fun k => ?_⟩
  rw [both.1.1.endpoints]
  exact (Rebound.refl m).endpoints k

theorem forOwnEndpoints_rebinding (home : m.Homed s.self)
    {f : Model → Endpoint → Noting Endpoint}
    (each : ∀ n e, Gives (fun _ e' => e'.unbound = e.unbound) (f n e)) :
    Gives (fun _ n => Rebinding s.self m n) (forOwnEndpoints s f m) := by
  have changes := forOwnEndpoints_gives (s := s) (f := f) home (fun _ (h : True) => h)
    fun n e _ => (each n e).mono fun _ _ same => ⟨Endpoint.bare_of_unbound same, fun _ => id⟩
  have keeps := forOwnEndpoints_keeps (s := s) (m := m) (K := fun e e' => e'.unbound = e.unbound)
    (fun _ => rfl) (fun first second => second.trans first) each
  refine (changes.and keeps).mono fun _ n both => ⟨both.1.1.toRebinds, fun k => ?_, both.2⟩
  rw [both.1.1.classes]
  exact (Rebound.refl m).classes k

/-- Binding changes nothing but links. -/
theorem bind_rebinding (home : m.Homed s.self) :
    Gives (fun _ n => Rebinding s.self m n) (bind s m) := by
  unfold bind
  refine (forOwnClasses_rebinding home fun _ => bindParent_unbound).bind fun _ m₁ first => ?_
  have home₁ := first.toRebinds.homed home
  refine (forOwnClasses_rebinding home₁ fun _ => bindDecorators_unbound).bind fun _ m₂ second => ?_
  have home₂ := second.toRebinds.homed home₁
  refine (forOwnClasses_rebinding home₂ fun _ => bindClassProperties_unbound).bind
    fun _ m₃ third => ?_
  have home₃ := third.toRebinds.homed home₂
  refine (forOwnEndpoints_rebinding home₃ fun _ => bindEndpointProperties_unbound).bind
    fun _ m₄ fourth => ?_
  have toFourth := ((first.trans second).trans third).trans fourth
  refine bindConverters_gives.mono fun _ m₅ fifth => toFourth.trans ⟨fifth.1, ?_, ?_⟩
  · intro k
    rw [fifth.2.1]
    exact (Rebound.refl m₄).classes k
  · intro k
    rw [fifth.2.2.1]
    exact (Rebound.refl m₄).endpoints k

end Unbinding

section Expanding

/-- Every class on offer is there. -/
def Scope.Known (s : Scope) (m : Model) : Prop :=
  ∀ {name o}, s.classes.get? name = some o → (m.class? o.key).isSome

/-- A class on offer under a name has that name. -/
theorem named_of {v : VersionId} {dependencies : List VersionId} {domains : Table Key}
    {name : String} {o : Offer}
    (found : (Scope.of m v dependencies domains).classes.get? name = some o) :
    ∃ c, m.class? o.key = some c ∧ c.name = name := by
  rcases List.mem_append.mp (Table.mem_of_get?_ofList found) with ofDependency | own
  · obtain ⟨d, -, offered⟩ := List.mem_flatMap.mp ofDependency
    exact (mem_offeredClasses offered).2
  · exact (mem_offeredClasses own).2

theorem known_of {v : VersionId} {dependencies : List VersionId} {domains : Table Key} :
    (Scope.of m v dependencies domains).Known m := by
  intro name o found
  obtain ⟨c, there, -⟩ := named_of found
  rw [there]
  rfl

theorem Scope.Known.shape (known : s.Known m) (shape : Model.KeepsShape m n) : s.Known n := by
  intro name o found
  have there := known found
  have names := congrArg Option.isSome (shape.className o.key)
  rwa [Option.isSome_map, Option.isSome_map, there] at names

theorem SelectsField.congr (same : ∀ k, n.class? k = m.class? k) {a : Placeholder}
    (h : SelectsField s n a) : SelectsField s m a := by
  have classes : n.class? = m.class? := funext same
  have names : n.propertyName? = m.propertyName? :=
    funext (Model.propertyName?_congr fun k => by rw [same k])
  rwa [SelectsField, classes, names] at h

/-- Links play no part in what an alias selects. -/
theorem SelectsField.unbound {a b : Placeholder} (same : b.unbound = a.unbound)
    (h : SelectsField s n a) : SelectsField s n b := by
  obtain ⟨label, comment, location, slot, reference, included, excluded, leading, trailing,
    required, listDomainReference, listDomain⟩ := a
  obtain ⟨label', comment', location', slot', reference', included', excluded', leading',
    trailing', required', listDomainReference', listDomain'⟩ := b
  simp only [Placeholder.unbound, Placeholder.mk.injEq] at same
  obtain ⟨-, -, -, -, rfl, rfl, rfl, -⟩ := same
  exact h

theorem expandClass_gives (known : s.Known m) {k : Key} {c : Class} :
    Gives (fun ds c' => c'.bare = c.bare ∧ (Clean ds → (slots c.properties).Nodup →
        ∀ p ∈ c'.properties, p.alias? = none))
      (expandClass s m k c) := by
  have there : ∀ (qs : List Property) name o, s.classes.get? name = some o →
      ((m.setClass k { c with properties := qs }).class? o.key).isSome := by
    intro qs name o offer
    have before := known offer
    rw [Model.class?_setClass]
    split
    · rwa [Option.isSome_map]
    · exact before
  by_cases once : (slots c.properties).Nodup
  · refine (expandList_gives (nodup_of_slots once)).bind fun ds qs expanded => .pure ⟨rfl, ?_⟩
    obtain ⟨made, spreads, all⟩ := expanded
    intro clean _
    rw [List.append_nil] at clean
    exact spreads.no_alias (all clean there)
  · exact (expandClass_bare k c).mono fun _ _ bare => ⟨bare, fun _ twice => absurd twice once⟩

/-- An endpoint of which every alias is replaced if it is not reported. -/
def Endpoint.Replaceable (s : Scope) (m : Model) (e : Endpoint) : Prop :=
  (slots e.params).Nodup ∧ ∀ p a, e.returns = some p → p.alias? = some a → SelectsField s m a

theorem expandReturn_gives (known : s.Known m) (p : Property) :
    Gives (fun ds q => Clean ds → (∀ a, p.alias? = some a → SelectsField s m a) → q.alias? = none)
      (expandReturn s m p) := by
  unfold expandReturn
  cases isAlias : p.alias? with
  | none => exact .pure fun _ _ => isAlias
  | some a =>
      refine (copies_made a).bind fun ds new made => .pure fun clean selects => ?_
      rw [List.append_nil] at clean
      obtain ⟨ps, rfl⟩ := Option.isSome_iff_exists.mp (made.2 clean fun o => known)
      obtain ⟨copies, some⟩ := made.1 ps rfl
      cases ps with
      | nil => exact absurd rfl (some (selects a rfl))
      | cons q rest => exact alias?_eq_none_of_field (copies q List.mem_cons_self).field

theorem expandEndpoint_gives (known : s.Known m) (e : Endpoint) :
    Gives (fun ds e' => e'.bare = e.bare ∧ (Clean ds → Endpoint.Replaceable s m e →
        ∀ p ∈ e'.properties, p.alias? = none))
      (expandEndpoint s m e) := by
  by_cases once : (slots e.params).Nodup
  · refine (expandList_gives (nodup_of_slots once)).bind fun ds params expanded => ?_
    obtain ⟨made, spreads, all⟩ := expanded
    cases given : e.returns with
    | none =>
        refine .pure ⟨rfl, fun clean _ p hp => ?_⟩
        rw [List.append_nil] at clean
        rw [Endpoint.properties, Option.toList_none, List.append_nil] at hp
        exact spreads.no_alias (all clean fun _ _ _ offer => known offer) p hp
    | some p =>
        rw [Option.mapM_some, bind_map_left]
        refine (expandReturn_gives known p).bind fun ds' q replaced => .pure ⟨rfl, ?_⟩
        intro clean replaceable p' hp
        rw [List.append_nil, clean_append] at clean
        rcases List.mem_append.mp hp with param | returned
        · exact spreads.no_alias (all clean.1 fun _ _ _ offer => known offer) p' param
        · rw [List.mem_singleton.mp returned]
          exact replaced clean.2 fun a => replaceable.2 p a given
  · exact (expandEndpoint_bare e).mono fun _ _ bare =>
      ⟨bare, fun _ replaceable => absurd replaceable.1 once⟩

/-- Expanding without an error leaves an alias only as a return value that selects no field. -/
theorem expandAll_whole (home : m.Homed s.self) (onceClasses : (m.ownClasses s.self).Nodup)
    (onceEndpoints : (m.ownEndpoints s.self).Nodup) (known : s.Known m) :
    Gives (fun ds n => Model.Rebinds s.self m n ∧ (Clean ds →
        (m.AllClasses (m.ownClasses s.self) fun c => (slots c.properties).Nodup) →
        (m.AllEndpoints (m.ownEndpoints s.self) (Endpoint.Replaceable s n)) →
        (n.AllClasses (m.ownClasses s.self) fun c => ∀ p ∈ c.properties, p.alias? = none) ∧
        n.AllEndpoints (m.ownEndpoints s.self) fun e => ∀ p ∈ e.properties, p.alias? = none))
      (expandAll s m) := by
  rw [expandAll_eq home onceClasses onceEndpoints]
  have none_once : ∀ {ps : List Property}, (∀ p ∈ ps, p.alias? = none) → (slots ps).Nodup := by
    intro ps none
    have empty : slots ps = [] := by
      refine List.filterMap_eq_nil_iff.mpr fun p hp => ?_
      rw [none p hp]
      rfl
    rw [empty]
    exact List.nodup_nil
  refine (forOwnClasses_gives (T := fun c => (slots c.properties).Nodup) home
    (fun c none => none_once none) fun n k c changes found =>
      expandClass_gives (known.shape changes.toRebinds.evolves.keepsShape)).bind fun ds₁ m₁ first => ?_
  have home₁ := first.1.toRebinds.homed home
  have known₁ : s.Known m₁ := known.shape first.1.toRebinds.evolves.keepsShape
  have back : ∀ e : Endpoint, (∀ p ∈ e.properties, p.alias? = none) →
      Endpoint.Replaceable s m₁ e := by
    intro e none
    refine ⟨none_once fun p hp => none p (List.mem_append_left _ hp), fun p a given isAlias => ?_⟩
    have returned : p ∈ e.properties := List.mem_append_right _ (given ▸ List.mem_singleton_self p)
    exact absurd ((none p returned).symm.trans isAlias) nofun
  refine (forOwnEndpoints_gives home₁ back fun n e changes => ?_).mono
    fun ds₂ m₂ second => ⟨first.1.toRebinds.trans second.1.toRebinds, ?_⟩
  · have known' : s.Known n := known₁.shape changes.toRebinds.evolves.keepsShape
    refine (expandEndpoint_gives known' e).mono fun ds e' given => ⟨given.1, fun clean whole => ?_⟩
    refine given.2 clean ⟨whole.1, fun p a returned isAlias => ?_⟩
    exact (whole.2 p a returned isAlias).congr fun k => (changes.classes k).symm
  · intro clean classes endpoints
    rw [clean_append] at clean
    have ownEndpoints := first.1.toRebinds.ownEndpoints
    refine ⟨fun k hk c found => ?_, ownEndpoints ▸ second.2 clean.2 fun k hk e found => ?_⟩
    · exact first.2 clean.1 classes k hk c ((second.1.classes k).symm.trans found)
    · have whole := endpoints k (ownEndpoints ▸ hk) e ((first.1.endpoints k).symm.trans found)
      refine ⟨whole.1, fun p a returned isAlias => ?_⟩
      exact (whole.2 p a returned isAlias).congr second.1.classes

end Expanding

theorem undone_of_declared {v : VersionId} {f : ModelFile}
    (fresh : m.version? v = some (.fresh v f)) (declared : f.Declared) : Undone m v := by
  constructor
  · intro k hk c found p hp
    exact ((declared.classes c (Model.class_of_fresh fresh hk found)).forall p hp).2
  · intro k hk e found p hp
    obtain ⟨params, returns⟩ := declared.endpoints e (Model.endpoint_of_fresh fresh hk found)
    rcases List.mem_append.mp hp with param | returned
    · exact (params.forall p param).2
    · exact returns p (Option.mem_toList.mp returned)

/-- Once bound, the aliases of each class are numbered as they were declared. -/
theorem nodup_slots_bound {v : VersionId} {f : ModelFile}
    (fresh : m.version? v = some (.fresh v f)) (declared : f.Declared) (bound : Rebinding v m n) :
    n.AllClasses (n.ownClasses v) fun c => (slots c.properties).Nodup := by
  intro k hk d found
  obtain ⟨c, before, same⟩ := bound.class_before found
  rw [slots_of_unbound (congrArg Class.properties same)]
  exact nodup_slots
    (declared.classes c (Model.class_of_fresh fresh (bound.ownClasses ▸ hk) before))

/-- Once bound, the parameters of each endpoint are numbered as they were declared. -/
theorem nodup_params_bound {v : VersionId} (fresh : m.version? v = some (.fresh v f))
    (declared : f.Declared) (bound : Rebinding v m n) :
    n.AllEndpoints (n.ownEndpoints v) fun e => (slots e.params).Nodup := by
  intro k hk d found
  obtain ⟨e, before, same⟩ := bound.endpoint_before found
  rw [slots_of_unbound (congrArg Endpoint.params same)]
  exact nodup_slots
    (declared.endpoints e (Model.endpoint_of_fresh fresh (bound.ownEndpoints ▸ hk) before)).1

/-- All steps, if they find no error, leave no alias to an own entity but a return value that
selects no field. -/
theorem steps_whole {f : ModelFile} (fresh : m.version? s.self = some (.fresh s.self f))
    (declared : f.Declared) (known : s.Known m) (allowCompositeKeys : Bool) :
    Gives (fun ds n => Clean ds →
        (∀ e ∈ f.endpoints, ∀ p a, e.returns = some p → p.alias? = some a → SelectsField s n a) →
        (n.AllClasses (n.ownClasses s.self) fun c => ∀ p ∈ c.properties, p.alias? = none) ∧
        n.AllEndpoints (n.ownEndpoints s.self) fun e => ∀ p ∈ e.properties, p.alias? = none)
      (steps s allowCompositeKeys m) := by
  have home := Model.homed_of_fresh fresh
  have has := Model.has_of_version? fresh
  unfold steps
  dsimp only
  rw [collapseAll_undone (undone_of_declared fresh declared), pure_bind]
  refine (checkUses_gives m s).bind fun ds₁ _ _ => ?_
  refine (bind_rebinding home).bind fun ds₂ m₂ bound => ?_
  have ownClasses := bound.toRebinds.ownClasses
  have ownEndpoints := bound.toRebinds.ownEndpoints
  refine (expandAll_whole (bound.toRebinds.homed home)
    (ownClasses ▸ Model.nodup_ownClasses_of_fresh fresh)
    (ownEndpoints ▸ Model.nodup_ownEndpoints_of_fresh fresh)
    (known.shape bound.toRebinds.evolves.keepsShape)).bind fun ds₃ m₃ expanded => ?_
  have toThird := bound.toRebinds.trans expanded.1
  refine (shareAliases_gives (P := fun _ => True) (toThird.evolves.keepsShape.has.mpr has)
    fun _ _ _ _ => trivial).bind fun ds₄ m₄ shared => ?_
  have class? := class?_of_files shared.1.files
  have endpoint? := endpoint?_of_files shared.1.files
  have outcome : ∀ ds, Clean (ds₁ ++ (ds₂ ++ (ds₃ ++ (ds₄ ++ ds)))) →
      (∀ e ∈ f.endpoints, ∀ p a, e.returns = some p → p.alias? = some a → SelectsField s m₄ a) →
      (m₄.AllClasses (m₄.ownClasses s.self) fun c => ∀ p ∈ c.properties, p.alias? = none) ∧
      m₄.AllEndpoints (m₄.ownEndpoints s.self) fun e => ∀ p ∈ e.properties, p.alias? = none := by
    intro ds clean selects
    simp only [clean_append] at clean
    obtain ⟨-, -, clean₃, -, -⟩ := clean
    have once := nodup_slots_bound fresh declared bound
    have replaceable : m₂.AllEndpoints (m₂.ownEndpoints s.self) (Endpoint.Replaceable s m₃) := by
      intro k hk d found
      obtain ⟨e, before, same⟩ := bound.endpoint_before found
      have member := Model.endpoint_of_fresh fresh (ownEndpoints ▸ hk) before
      rw [Endpoint.Replaceable, slots_of_unbound (congrArg Endpoint.params same)]
      refine ⟨nodup_slots (declared.endpoints e member).1, fun q b returned isAlias => ?_⟩
      have returns : d.returns.map Property.unbound = e.returns.map Property.unbound :=
        congrArg Endpoint.returns same
      rw [returned] at returns
      obtain ⟨p, given, unbound⟩ := Option.map_eq_some_iff.mp returns.symm
      have aliases := congrArg Property.alias? unbound
      rw [Property.alias?_unbound, Property.alias?_unbound, isAlias] at aliases
      obtain ⟨a, isAlias', unbound'⟩ := Option.map_eq_some_iff.mp aliases
      have selected := selects e member p a given isAlias'
      exact (selected.congr class?).unbound unbound'.symm
    obtain ⟨classes, endpoints⟩ := expanded.2 clean₃ once replaceable
    rw [expanded.1.ownClasses.symm] at classes
    rw [expanded.1.ownEndpoints.symm] at endpoints
    refine ⟨fun k hk c found => ?_, fun k hk e found => ?_⟩
    · exact classes k (shared.1.toEvolves.ownClasses hk) c ((class? k).symm.trans found)
    · exact endpoints k (shared.1.toEvolves.ownEndpoints hk) e ((endpoint? k).symm.trans found)
  have rest : Gives (fun ds n => Clean (ds₁ ++ (ds₂ ++ (ds₃ ++ (ds₄ ++ ds)))) →
      (∀ e ∈ f.endpoints, ∀ p a, e.returns = some p → p.alias? = some a → SelectsField s n a) →
      (n.AllClasses (n.ownClasses s.self) fun c => ∀ p ∈ c.properties, p.alias? = none) ∧
      n.AllEndpoints (n.ownEndpoints s.self) fun e => ∀ p ∈ e.properties, p.alias? = none)
      (do
        checkDuplicates s m₄
        checkUnusedUses s (missingUses m s) m₄
        checkUsesOrder s (missingUses m s) m₄
        return m₄) := by
    refine (checkDuplicates_gives s m₄).bind fun _ _ _ => ?_
    refine (checkUnusedUses_gives s _ m₄).bind fun _ _ _ => ?_
    exact (checkUsesOrder_gives s _ m₄).bind fun _ _ _ => .pure (outcome _)
  split
  · refine (checkKeys_gives s m₄).bind fun ds _ _ => rest.mono fun ds' n holds clean => holds ?_
    simp only [clean_append] at clean ⊢
    tauto
  · exact rest

end DataModel.Resolution

namespace DataModel.Model
open Resolution
variable {m n : Model} {v : VersionId} {f : ModelFile} {dependencies : List VersionId}
  {domains : Table Key} {allowCompositeKeys : Bool} {ds : List Diagnostic}

/-- Where a file just loaded resolves without an error, no alias is left among the properties of
its own classes and endpoints, if each alias that is a return value selects a field. -/
theorem resolve_no_alias (declared : f.Declared) (fresh : m.version? v = some (.fresh v f))
    (done : m.resolve v dependencies domains allowCompositeKeys = .ok (ds, n)) (clean : Clean ds)
    (selects : ∀ e ∈ f.endpoints, ∀ a, e.returns = some (.alias a) →
      SelectsField (.of m v dependencies domains) n a) :
    ∀ p ∈ n.properties v, p.isAlias = false := by
  obtain ⟨n', notes, run, same⟩ := resolve_run done
  cases same
  obtain ⟨ds, added, whole⟩ := steps_whole (s := .of m v dependencies domains) fresh declared
    known_of allowCompositeKeys _ _ _ run
  rw [List.nil_append] at added
  rw [added] at clean
  obtain ⟨classes, endpoints⟩ := whole clean fun e he p a returns isAlias => by
    cases p with
    | «alias» b =>
        cases isAlias
        exact selects e he a returns
    | _ => cases isAlias
  have plain : ∀ p : Property, p.alias? = none → p.isAlias = false := by
    intro p none
    cases p with
    | «alias» a => cases none
    | _ => rfl
  intro p hp
  rcases List.mem_append.mp hp with ofClass | ofEndpoint
  · obtain ⟨k, hk, member⟩ := List.mem_flatMap.mp ofClass
    cases found : n.class? k with
    | none =>
        rw [found] at member
        cases member
    | some c =>
        rw [found] at member
        exact plain p (classes k hk c found p member)
  · obtain ⟨k, hk, member⟩ := List.mem_flatMap.mp ofEndpoint
    cases found : n.endpoint? k with
    | none =>
        rw [found] at member
        cases member
    | some e =>
        rw [found] at member
        exact plain p (endpoints k hk e found p member)

namespace Returning

def placeholder : Placeholder where
  label := none
  comment := none
  location := ⟨"alias", 7, 54⟩
  slot := 0
  reference := ⟨"B", 7, 69⟩
  included := []
  excluded := []
  leading := ""
  trailing := ""
  required := none
  listDomainReference := none
  listDomain := none

def regular (location : Reference) (domain : Option Key) (origin : Option Placeholder) : Property :=
  .regular ⟨"x", none, "c", location, false, ⟨"D", 5, 73⟩, domain, false, false, none, origin⟩

/-- A file with a domain, a class, and an endpoint that returns a value. -/
def file (properties : List Property) (value : Property) : ModelFile where
  name := "A"
  path := "/model/A.tmd"
  module := "M"
  source := ""
  tags := []
  uses := []
  domains := [⟨"D", some "l", none, none, none, [], [], some ⟨"domain", 3, 1⟩⟩]
  decorators := []
  classes :=
    [⟨"B", "c", none, none, none, .none, false, none, none, none, none, [], [], properties,
      some ⟨"App", "M"⟩, some ⟨"class", 5, 1⟩⟩]
  endpoints :=
    [⟨"e", "GET", "r", none, [], some value, some ⟨"App", "M"⟩, some ⟨"endpoint", 7, 1⟩⟩]
  aliases := []

/-- The value is an alias of the class, which has a field. -/
def full : ModelFile := file [regular ⟨"name", 5, 44⟩ none none] (.alias placeholder)

def fullResolved : ModelFile :=
  file [regular ⟨"name", 5, 44⟩ (some ⟨0, 0⟩) none]
    (regular ⟨"alias", 7, 54⟩ (some ⟨0, 0⟩) (some placeholder))

/-- The value is an alias of the class, which has no property. -/
def bare : ModelFile := file [] (.alias placeholder)

def loaded (f : ModelFile) : Model := ⟨#[.fresh 0 f]⟩

def known : Table Key := [("D", ⟨0, 0⟩)]

theorem declared_file {properties : List Property} (declares : Declares properties) :
    (file properties (.alias placeholder)).Declared := by
  have unlinked : placeholder.Linked .none := .none
  refine ⟨⟨?_, ?_, ?_⟩, ?_, ?_⟩
  · intro d hd
    cases List.mem_singleton.mp hd
    exact fun c hc => absurd hc List.not_mem_nil
  · intro c hc
    cases List.mem_singleton.mp hc
    exact ⟨.none, .nil, fun p hp => (declares.forall p hp).1⟩
  · intro e he
    cases List.mem_singleton.mp he
    refine ⟨fun p hp => absurd hp List.not_mem_nil, fun p returns => ?_⟩
    cases returns
    exact unlinked
  · intro c hc
    cases List.mem_singleton.mp hc
    exact declares
  · intro e he
    cases List.mem_singleton.mp he
    refine ⟨.nil, fun p returns => ?_⟩
    cases returns
    rfl

theorem declared_full : full.Declared := by
  refine declared_file (Declares.nil.snoc ⟨⟨.none, ?_⟩, rfl, ?_⟩)
  · exact fun a made => by cases made
  · exact fun a isAlias => by cases isAlias

theorem declared_bare : bare.Declared := declared_file .nil

theorem resolve_full : (loaded full).resolve 0 [] known false = .ok ([], loaded fullResolved) := by
  with_unfolding_all rfl

theorem resolve_bare : (loaded bare).resolve 0 [] known false = .ok ([], loaded bare) := by
  with_unfolding_all rfl

theorem selects_full :
    SelectsField (.of (loaded full) 0 [] known) (loaded fullResolved) placeholder := by
  refine ⟨⟨⟨0, 0⟩, "A"⟩, _, rfl, rfl, ?_⟩
  rw [show placeholder.included = [] from rfl, if_pos rfl]
  exact ⟨_, List.mem_cons_self, rfl, fun r hr => absurd hr List.not_mem_nil⟩

end Returning
open Returning

theorem resolve_no_alias_full :
    full.Declared ∧ (loaded full).resolve 0 [] known false = .ok ([], loaded fullResolved) ∧
      SelectsField (.of (loaded full) 0 [] known) (loaded fullResolved) placeholder ∧
      ∀ p ∈ (loaded fullResolved).properties 0, p.isAlias = false := by
  refine ⟨declared_full, resolve_full, selects_full, ?_⟩
  refine resolve_no_alias declared_full rfl resolve_full clean_nil fun e he a returns => ?_
  cases List.mem_singleton.mp he
  cases returns
  exact selects_full

/-- A return value that is an alias of a class without a field stays an alias, and nothing is
reported. -/
theorem alias_of_no_field :
    bare.Declared ∧ (loaded bare).resolve 0 [] known false = .ok ([], loaded bare) ∧
      ¬ ∀ p ∈ (loaded bare).properties 0, p.isAlias = false := by
  refine ⟨declared_bare, resolve_bare, fun plain => ?_⟩
  exact Bool.noConfusion (plain (.alias placeholder) List.mem_cons_self)

end DataModel.Model
