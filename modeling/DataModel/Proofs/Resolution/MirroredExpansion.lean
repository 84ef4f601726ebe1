import DataModel.Proofs.Resolution.MirroredBinding

/-!
Expanding in two runs. The copies that an alias makes depend on the class it names as that class is
at the moment, which may still hold aliases itself. The two runs therefore expand a file in the
same way if a class that copies from another one with aliases comes on the same side of it in both.
-/
namespace DataModel.Resolution
variable {μ : Mirror} {s s' : Scope} {n n' m m' : Model}

section Copies

theorem lookup_map_relink (σ : Key → Key) (name : String) (ps : List (String × Property)) :
    (ps.map (Prod.map id (Property.relink σ))).lookup name =
      (ps.lookup name).map (Property.relink σ) := by
  induction ps with
  | nil => rfl
  | cons p ps ih =>
      obtain ⟨label, p⟩ := p
      rw [List.map_cons, Prod.map_apply, List.lookup_cons, List.lookup_cons, ih, id]
      split <;> rfl

theorem copyField_relink (σ : Key → Key) (a : Placeholder) (name : String) (location : Reference)
    (p : Property) :
    copyField a name location (p.relink σ) = (copyField a name location p).relink σ := by
  cases p <;> rfl

theorem named_reflects (heads : Model.HeadsAlike μ.key n n') (ps : List Property) :
    μ.Reflects (fun qs qs' => qs' = qs.map (Prod.map id (Property.relink μ.key))) (named n ps)
      (named n' (ps.map (Property.relink μ.key))) := by
  unfold named
  induction ps with
  | nil => exact .pure rfl
  | cons p ps ih =>
      rw [List.map_cons, List.mapM_cons, List.mapM_cons, bind_assoc, bind_assoc]
      refine (nameOf_reflects heads p).bind ?_
      rintro _ name rfl
      rw [pure_bind, pure_bind]
      refine ih.bind ?_
      rintro qs _ rfl
      exact .pure rfl

theorem select_reflects (scopes : μ.Scopes s s') (a : Placeholder) (className : String)
    (ps : List (String × Property)) :
    μ.Reflects (fun o o' => o' = o.map (List.map (Prod.map id (Property.relink μ.key))))
      (select s a className ps)
      (select s' a className (ps.map (Prod.map id (Property.relink μ.key)))) := by
  unfold select
  simp only [lookup_map_relink, Option.isNone_map]
  refine (Mirror.Reflects.forM fun r _ =>
    report_reflects scopes _ (μ.relinked (.property (.alias a))) _).bind fun _ _ _ => ?_
  split
  · exact .pure rfl
  · split
    · refine .pure (congrArg some ?_)
      rw [List.map_filterMap]
      refine List.filterMap_congr fun r _ => ?_
      rw [Option.map_map, Option.map_map]
      rfl
    · refine .pure (congrArg some ?_)
      rw [List.filter_map]
      rfl

/-- The copies of an alias, where the class that it names is the same in the two runs. -/
theorem copies_reflects (scopes : μ.Scopes s s') (heads : Model.HeadsAlike μ.key n n')
    (a : Placeholder) (target : ∀ o, s.classes.get? a.reference.name = some o →
      n'.class? (μ.key o.key) = (n.class? o.key).map (Class.relink μ.key)) :
    μ.Reflects (fun o o' => o' = o.map (List.map (Property.relink μ.key))) (copies s n a)
      (copies s' n' a) := by
  unfold copies
  refine (findClass_reflects scopes (μ.relinked (.property (.alias a))) a.reference).bind ?_
  rintro _ _ ⟨rfl, rfl⟩
  cases offer : s.classes.get? a.reference.name with
  | none => exact .pure rfl
  | some o =>
      simp only [Option.map_some, Option.bind_some]
      rw [target o offer]
      cases n.class? o.key with
      | none => exact .pure rfl
      | some c =>
          refine (named_reflects heads c.properties).bind ?_
          rintro ps _ rfl
          refine (select_reflects scopes a c.name ps).bind ?_
          rintro selected _ rfl
          refine .pure ?_
          rw [Option.map_map, Option.map_map]
          refine congrArg (Option.map · selected) (funext fun ps => ?_)
          simp only [Function.comp_apply]
          rw [List.filter_map, List.map_map, List.map_map]
          refine congrArg₂ List.map (funext fun q => ?_) (List.filter_congr fun q _ => ?_)
          · exact copyField_relink μ.key a q.1 _ q.2
          · exact Property.isField_relink μ.key q.2

end Copies

section Lists

theorem splice_relink (σ : Key → Key) (a : Placeholder) (new ps : List Property) :
    splice a (new.map (Property.relink σ)) (ps.map (Property.relink σ)) =
      (splice a new ps).map (Property.relink σ) := by
  induction ps with
  | nil => rfl
  | cons p ps ih =>
      rw [List.map_cons, splice, splice, Property.alias?_relink]
      split
      · rw [List.map_append]
      · rw [List.map_cons, ih]

theorem expandList_reflects (scopes : μ.Scopes s s') {held held' : List Property → Model}
    (ps : List Property)
    (heads : ∀ qs, Model.HeadsAlike μ.key (held qs) (held' (qs.map (Property.relink μ.key))))
    (target : ∀ a ∈ ps.filterMap Property.alias?, ∀ o, s.classes.get? a.reference.name = some o →
      ∀ qs, (held' (qs.map (Property.relink μ.key))).class? (μ.key o.key) =
        ((held qs).class? o.key).map (Class.relink μ.key)) :
    μ.Reflects (fun qs qs' => qs' = qs.map (Property.relink μ.key)) (expandList s held ps)
      (expandList s' held' (ps.map (Property.relink μ.key))) := by
  unfold expandList
  rw [filterMap_alias?_relink]
  refine Mirror.Reflects.foldlM (R := fun (qs qs' : List Property) =>
    qs' = qs.map (Property.relink μ.key)) rfl ?_
  rintro a ha qs _ rfl
  refine (copies_reflects scopes (heads qs) a fun o offer => target a ha o offer qs).bind ?_
  rintro made _ rfl
  cases made with
  | none => exact .pure rfl
  | some new => exact .pure (splice_relink μ.key a new qs)

end Lists

section Entities

theorem headsAlike_of (same : ∀ k, n'.class? (μ.key k) = (n.class? k).map (Class.relink μ.key)) :
    Model.HeadsAlike μ.key n n' := by
  intro k
  rw [same, Option.map_map]
  refine congrArg (Option.map · (n.class? k)) (funext fun c => ?_)
  exact congrArg (Prod.mk c.name) (Class.primaryKeys_relink μ.key c)

theorem headsAlike_setClass (heads : Model.HeadsAlike μ.key n n') (k : Key) (c : Class) :
    Model.HeadsAlike μ.key (n.setClass k c) (n'.setClass (μ.key k) (c.relink μ.key)) := by
  intro l
  rw [Model.class?_setClass, Model.class?_setClass]
  by_cases here : k = l
  · subst here
    have there := congrArg Option.isSome (heads k)
    rw [Option.isSome_map, Option.isSome_map] at there
    rw [if_pos rfl, if_pos rfl]
    cases known : n.class? k with
    | none =>
        cases known' : n'.class? (μ.key k) with
        | none => rfl
        | some d => simp [known, known'] at there
    | some d =>
        cases known' : n'.class? (μ.key k) with
        | none => simp [known, known'] at there
        | some d' =>
            exact congrArg (fun keys => some (c.name, keys)) (Class.primaryKeys_relink μ.key c)
  · rw [if_neg here, if_neg (μ.injective.ne here)]
    exact heads l

theorem expandClass_reflects (scopes : μ.Scopes s s') (heads : Model.HeadsAlike μ.key n n')
    {k : Key} {c : Class} (found : n.class? k = some c)
    (found' : n'.class? (μ.key k) = some (c.relink μ.key))
    (target : ∀ a ∈ c.properties.filterMap Property.alias?, ∀ o,
      s.classes.get? a.reference.name = some o → o.key ≠ k →
        n'.class? (μ.key o.key) = (n.class? o.key).map (Class.relink μ.key)) :
    μ.Reflects (fun d d' => d' = d.relink μ.key) (expandClass s n k c)
      (expandClass s' n' (μ.key k) (c.relink μ.key)) := by
  unfold expandClass
  refine (expandList_reflects scopes c.properties (fun qs => ?_) fun a ha o offer qs => ?_).bind ?_
  · exact headsAlike_setClass heads k { c with properties := qs }
  · by_cases here : k = o.key
    · rw [← here, Model.class?_setClass, Model.class?_setClass, if_pos rfl, if_pos rfl, found, found']
      rfl
    · rw [Model.class?_setClass, Model.class?_setClass, if_neg here, if_neg (μ.injective.ne here)]
      exact target a ha o offer (Ne.symm here)
  · rintro qs _ rfl
    exact .pure rfl

theorem expandReturn_reflects (scopes : μ.Scopes s s') (heads : Model.HeadsAlike μ.key n n')
    (same : ∀ k, n'.class? (μ.key k) = (n.class? k).map (Class.relink μ.key)) (p : Property) :
    μ.Reflects (fun q q' => q' = q.relink μ.key) (expandReturn s n p)
      (expandReturn s' n' (p.relink μ.key)) := by
  unfold expandReturn
  rw [Property.alias?_relink]
  cases p.alias? with
  | none => exact .pure rfl
  | some a =>
      refine (copies_reflects scopes heads a fun o _ => same o.key).bind ?_
      rintro made _ rfl
      refine .pure ?_
      cases made with
      | none => rfl
      | some new => cases new <;> rfl

theorem expandEndpoint_reflects (scopes : μ.Scopes s s')
    (same : ∀ k, n'.class? (μ.key k) = (n.class? k).map (Class.relink μ.key)) (e : Endpoint) :
    μ.Reflects (fun d d' => d' = d.relink μ.key) (expandEndpoint s n e)
      (expandEndpoint s' n' (e.relink μ.key)) := by
  have heads := headsAlike_of same
  unfold expandEndpoint
  refine (expandList_reflects scopes e.params (fun _ => heads) fun a _ o _ _ => same o.key).bind ?_
  rintro params _ rfl
  have returned : Option.Rel (fun p p' => p' = Property.relink μ.key p) e.returns
      (e.relink μ.key).returns := by
    rw [Endpoint.relink]
    cases e.returns with
    | none => exact .none
    | some p => exact .some rfl
  refine (Mirror.Reflects.mapOption (R := fun q q' => q' = Property.relink μ.key q) returned ?_).bind ?_
  · rintro p _ rfl
    exact expandReturn_reflects scopes heads same p
  · intro q q' related
    refine .pure ?_
    cases related with
    | none => rfl
    | some same => rw [same]; rfl

end Entities

section Whole

/-- Expanding keeps the primary keys, since copies are none, and a class without aliases. -/
theorem expandClass_keeps {k : Key} {c : Class} (once : (slots c.properties).Nodup) :
    Gives (fun _ d => d.bare = c.bare ∧ d.primaryKeys = c.primaryKeys ∧
        (c.properties.filterMap Property.alias? = [] → d = c))
      (expandClass s n k c) := by
  refine (expandList_gives (nodup_of_slots once)).bind fun ds qs expanded => .pure ?_
  obtain ⟨made, spreads, -⟩ := expanded
  refine ⟨rfl, spreads.primaryKeys, fun none => ?_⟩
  have plain : ∀ p ∈ c.properties, spread made p = [p] := by
    intro p hp
    rw [spread, List.filterMap_eq_nil_iff.mp none p hp]
  rw [spreads.whole, List.flatMap_congr plain, List.flatMap_singleton']

/-- A class of a file copies from another one that holds aliases itself. -/
def Feeds (s : Scope) (m : Model) (l k : Key) : Prop :=
  ∃ c d o, m.class? k = some c ∧ m.class? l = some d ∧ o.key = l ∧ l ≠ k ∧
    (∃ a ∈ c.properties.filterMap Property.alias?, s.classes.get? a.reference.name = some o) ∧
    d.properties.filterMap Property.alias? ≠ []

/-- A class comes before another one in both of two lists, or in neither. -/
def SameSide (key : Key → Key) (ks ks' : List Key) (l k : Key) : Prop :=
  ∀ before after before' after', ks = before ++ k :: after → ks' = before' ++ key k :: after' →
    (l ∈ before ↔ key l ∈ before')

/-- What expanding changes: neither names nor primary keys. -/
structure Expands (v : VersionId) (m n : Model) : Prop where
  changes : ChangesClasses v m n
  heads : ∀ k, (n.class? k).map (fun c => (c.name, c.primaryKeys)) =
    (m.class? k).map fun c => (c.name, c.primaryKeys)

theorem Expands.refl (v : VersionId) (m : Model) : Expands v m m :=
  ⟨.refl v m, fun _ => rfl⟩

theorem Expands.set {v : VersionId} (h : Expands v m n) {k : Key} {c d : Class}
    (home : k.version = v) (found : n.class? k = some c) (bare : d.bare = c.bare)
    (keys : d.primaryKeys = c.primaryKeys) : Expands v m (n.setClass k d) := by
  refine ⟨h.changes.set home found bare, fun l => ?_⟩
  rw [← h.heads l, Model.class?_setClass]
  split
  · next here =>
    subst here
    have name := congrArg Class.name bare
    simp only [Class.bare] at name
    rw [found, Option.map_some, Option.map_some, Option.map_some, name, keys]
  · rfl

theorem Expands.headsAlike (first : Expands s.self m n) (second : Expands s'.self m' n')
    (alike : Model.HeadsAlike μ.key m m') : Model.HeadsAlike μ.key n n' := by
  intro k
  have before : (n.class? k).map (fun c => (c.name, c.primaryKeys.map (Property.relink μ.key))) =
      (m.class? k).map fun c => (c.name, c.primaryKeys.map (Property.relink μ.key)) := by
    have both := congrArg (Option.map (Prod.map id (List.map (Property.relink μ.key))))
      (first.heads k)
    rwa [Option.map_map, Option.map_map] at both
  rw [second.heads, before]
  exact alike k

theorem slots_relink (σ : Key → Key) (ps : List Property) :
    slots (ps.map (Property.relink σ)) = slots ps := by
  rw [slots_eq, slots_eq, filterMap_alias?_relink]

/-- On the way, both runs find the same class: the result of the first run if both have passed it,
what it was at the beginning if neither has, and if only one has, then it must not have changed. -/
theorem class?_mirrored {I J : Model → Prop} {final : Model} {before before' : List Key}
    (models : μ.Models m m') (midway : classKind.Midway I m final before n)
    (chases : classKind.Chases μ.key (fun _ d d' => d' = d.relink μ.key) J m' final before' n')
    {l : Key} (still : ¬ (l ∈ before ↔ μ.key l ∈ before') → final.class? l = m.class? l) :
    n'.class? (μ.key l) = (n.class? l).map (Class.relink μ.key) := by
  have waiting' : μ.key l ∉ before' →
      n'.class? (μ.key l) = (m.class? l).map (Class.relink μ.key) :=
    fun waits => (chases.waiting _ waits).trans (models.classes l)
  have passed' : μ.key l ∈ before' →
      n'.class? (μ.key l) = (final.class? l).map (Class.relink μ.key) := by
    intro passed
    obtain ⟨d, _, result, there, rfl⟩ := chases.passed l passed
    have known : final.class? l = some d := result
    rw [known]
    exact there
  by_cases first : l ∈ before
  · have left : n.class? l = final.class? l := midway.passed l first
    by_cases second : μ.key l ∈ before'
    · rw [passed' second, left]
    · rw [waiting' second, left, still fun same => second (same.mp first)]
  · have left : n.class? l = m.class? l := midway.waiting l first
    by_cases second : μ.key l ∈ before'
    · rw [passed' second, left, still fun same => first (same.mpr second)]
    · rw [waiting' second, left]

theorem expandClasses_reflects (scopes : μ.Scopes s s') (alike : μ.Alike s s' m m')
    (models : μ.Models m m') (there : ∀ k ∈ m.ownClasses s.self, (m.class? k).isSome)
    (once : ∀ k ∈ m.ownClasses s.self, ∀ c, m.class? k = some c → (slots c.properties).Nodup)
    (sides : ∀ l k, Feeds s m l k →
      SameSide μ.key (m.ownClasses s.self) (m'.ownClasses s'.self) l k) :
    μ.Reflects (fun n n' => Expands s.self m n ∧ Expands s'.self m' n' ∧
        ∀ k, n'.class? (μ.key k) = (n.class? k).map (Class.relink μ.key))
      (forOwnClasses s (expandClass s) m) (forOwnClasses s' (expandClass s') m') := by
  have takes := μ.takes alike.order
  have once' := takes.perm.nodup_iff.mpr (alike.once.map μ.injective)
  have heads := headsAlike_of models.classes
  rw [forOwnClasses_eq, forOwnClasses_eq]
  refine (Kind.loop_reflects (R := fun _ d d' => d' = d.relink μ.key)
    (S := fun k d => ∀ c, m.class? k = some c → c.properties.filterMap Property.alias? = [] → d = c)
    (I := Expands s.self m) (J := Expands s'.self m') alike.once takes there ?_
    (.refl _ m) (.refl _ m') ?_ ?_ ?_).mono ?_
  · intro k hk
    show (m'.class? (μ.key k)).isSome
    rw [models.classes, Option.isSome_map]
    exact there k hk
  · intro n k c frame own begun found
    refine (expandClass_keeps (once k own c begun)).mono fun _ d kept => ?_
    refine ⟨frame.set (alike.home.classes k own) found kept.1 kept.2.1, fun c' known none => ?_⟩
    cases (show m.class? k = some c from begun).symm.trans known
    exact kept.2.2 none
  · intro n' k' c' frame own begun found
    obtain ⟨k, hk, rfl⟩ := List.mem_map.mp (takes.perm.mem_iff.mp own)
    obtain ⟨c, known, rfl⟩ := Option.map_eq_some_iff.mp ((models.classes k).symm.trans begun)
    have single : (slots (c.relink μ.key).properties).Nodup := by
      rw [Class.relink, slots_relink]
      exact once k hk c known
    refine (expandClass_keeps single).mono fun _ d kept => ?_
    exact frame.set (alike.home'.classes _ own) found kept.1 kept.2.1
  · intro final before k after before' after' n n' c c' split split' midway chases made begun begun'
    have known : m.class? k = some c := begun
    have early := notMem_before alike.once split
    have early' := notMem_before once' split'
    have same : c' = c.relink μ.key := by
      have both := (models.classes k).symm.trans begun'
      rw [known] at both
      exact (Option.some.inj both).symm
    subst same
    refine expandClass_reflects scopes (midway.within.headsAlike chases.within heads)
      ((midway.waiting k early).trans begun) ((chases.waiting _ early').trans begun') ?_
    intro a ha o offer apart
    refine class?_mirrored models midway chases fun uneven => ?_
    -- a class that the two runs find on different sides is an own one, and holds no alias
    have own : o.key ∈ m.ownClasses s.self := by
      by_contra other
      refine uneven (iff_of_false (fun passed => other ?_) fun passed => other (takes.mem_iff.mp ?_))
      · rw [split]
        exact List.mem_append_left _ passed
      · rw [split']
        exact List.mem_append_left _ passed
    obtain ⟨d, there_d⟩ := Option.isSome_iff_exists.mp (there o.key own)
    have plain : d.properties.filterMap Property.alias? = [] := by
      by_contra holds
      exact uneven (sides o.key k ⟨c, d, o, known, there_d, rfl, apart, ⟨a, ha, offer⟩, holds⟩
        before after before' after' split split')
    obtain ⟨e, result, kept⟩ := made o.key own
    cases kept d there_d plain
    exact Eq.trans result there_d.symm
  · rintro n n' ⟨midway, chases⟩
    refine ⟨midway.within, chases.within, fun k => ?_⟩
    by_cases own : k ∈ m.ownClasses s.self
    · obtain ⟨d, _, result, there', rfl⟩ := chases.passed k (takes.mem_iff.mpr own)
      have left : n.class? k = some d := result
      have right : n'.class? (μ.key k) = some (d.relink μ.key) := there'
      rw [left, right, Option.map_some]
    · have left : n.class? k = m.class? k := midway.waiting k own
      have right : n'.class? (μ.key k) = m'.class? (μ.key k) :=
        chases.waiting _ fun there => own (takes.mem_iff.mp there)
      rw [left, right, models.classes]

/-- Expanding a file in two runs gives the same entities, linked in the same way. -/
theorem expandAll_reflects (scopes : μ.Scopes s s') (alike : μ.Alike s s' m m')
    (models : μ.Models m m') (there : ∀ k ∈ m.ownClasses s.self, (m.class? k).isSome)
    (thereEndpoints : ∀ k ∈ m.ownEndpoints s.self, (m.endpoint? k).isSome)
    (once : ∀ k ∈ m.ownClasses s.self, ∀ c, m.class? k = some c → (slots c.properties).Nodup)
    (sides : ∀ l k, Feeds s m l k →
      SameSide μ.key (m.ownClasses s.self) (m'.ownClasses s'.self) l k) :
    μ.Reflects (fun n n' => μ.Models n n' ∧ Model.Rebinds s.self m n ∧ Model.Rebinds s'.self m' n')
      (expandAll s m) (expandAll s' m') := by
  have single := (μ.perm alike.order).nodup_iff.mpr (alike.once.map μ.injective)
  rw [expandAll_eq alike.home alike.once alike.onceEndpoints,
    expandAll_eq alike.home' single (alike.sameEndpoints ▸ alike.onceEndpoints)]
  refine (expandClasses_reflects scopes alike models there once sides).bind ?_
  rintro m₁ m₁' ⟨first, first', classes⟩
  have alike₁ := alike.rebinds first.changes.toRebinds first'.changes.toRebinds
  have own := first.changes.toRebinds.ownEndpoints
  rw [forOwnEndpoints_eq, forOwnEndpoints_eq, alike₁.sameEndpoints]
  refine (Kind.loop_reflects_each (R := fun e e' => e' = e.relink μ.key)
    (Q := fun e e' => e' = e.relink μ.key) (I := ChangesEndpoints s.self m₁)
    (J := ChangesEndpoints s'.self m₁') alike₁.onceEndpoints (μ.takes_same _) ?_
    (.refl _ m₁) (.refl _ m₁') ?_ ?_ ?_).mono ?_
  · intro k hk
    obtain ⟨e, known⟩ := Option.isSome_iff_exists.mp (thereEndpoints k (own ▸ hk))
    refine ⟨e, e.relink μ.key, (first.changes.endpoints k).trans known, ?_, rfl⟩
    refine (first'.changes.endpoints k).trans ((models.endpoints k).trans ?_)
    rw [known, Option.map_some]
  · intro n k e frame member _ found
    refine (expandEndpoint_bare e).mono fun _ d bare => ?_
    exact frame.set (alike₁.home.endpoints k member) found bare
  · intro n k e frame member _ found
    refine (expandEndpoint_bare e).mono fun _ d bare => ?_
    exact frame.set (alike₁.home'.endpoints k (alike₁.sameEndpoints ▸ member)) found bare
  · rintro n n' k e _ frame frame' rfl
    refine expandEndpoint_reflects scopes (fun k => ?_) e
    rw [frame.classes, frame'.classes]
    exact classes k
  · rintro n n' ⟨frame, frame', related, others⟩
    refine ⟨⟨fun k => ?_, fun k => ?_, fun k => ?_⟩, first.changes.toRebinds.trans frame.toRebinds,
      first'.changes.toRebinds.trans frame'.toRebinds⟩
    · rw [frame.classes, frame'.classes]
      exact classes k
    · by_cases member : k ∈ m₁.ownEndpoints s.self
      · obtain ⟨e, _, found, found', rfl⟩ := related k member
        exact found'.trans (congrArg (Option.map _) found).symm
      · have left : n.endpoint? k = m₁.endpoint? k := (others k member).1
        have right : n'.endpoint? k = m₁'.endpoint? k := (others k member).2
        rw [left, right, first.changes.endpoints, first'.changes.endpoints]
        exact models.endpoints k
    · rw [frame.domains, frame'.domains, first.changes.domains, first'.changes.domains]
      exact models.domains k

end Whole
end DataModel.Resolution
