import DataModel.Proofs.Resolution.Looping
import DataModel.Proofs.Resolution.Placeholders

/-!
Collapsing undoes expanding. The copies of an alias stand side by side and know the alias they
were made for, so that collapsing puts it back in their place. An alias that was replaced by no
copy at all is gone for good, unless it is a return value, which then stays as it is.
-/
namespace DataModel

/-- The number of the alias that a property is, or that it is a copy of. -/
def Property.slot? (p : Property) : Option Nat := (p.alias?.or p.origin?).map (·.slot)

/-- Every alias of a list is still in another one, or has left a copy there. -/
def Traced (ps qs : List Property) : Prop := ∀ slot ∈ slots ps, ∃ q ∈ qs, q.slot? = some slot

/-- A class in which the aliases are put back. -/
def Class.collapsed (c : Class) : Class := { c with properties := Resolution.collapse c.properties }

def Endpoint.collapsed (e : Endpoint) : Endpoint :=
  { e with
    params := Resolution.collapse e.params
    returns := e.returns.map Resolution.collapseReturn }

namespace Resolution
variable {s : Scope} {m n : Model}

section Lists
variable {made : Placeholder → Option (List Property)} {ps qs : List Property}

theorem eq_alias {p : Property} {a : Placeholder} (isAlias : p.alias? = some a) : p = .alias a := by
  cases p with
  | «alias» b => exact congrArg Property.alias (Option.some.inj isAlias)
  | _ => cases isAlias

/-- An alias in a place that was spread has left the copies that were made for it. -/
theorem slot_of_spread {p q : Property} (original : p.origin? = none)
    (copies : ∀ a, p.alias? = some a → ∀ cs, made a = some cs → ∀ c ∈ cs, CopyOf a c)
    (member : q ∈ spread made p) : q.slot? = p.alias?.map (·.slot) := by
  rw [spread] at member
  cases isAlias : p.alias? with
  | none =>
      rw [isAlias] at member
      rw [List.mem_singleton.mp member, Property.slot?, isAlias, original]
      rfl
  | some a =>
      rw [isAlias] at member
      dsimp only at member
      cases known : made a with
      | none =>
          rw [known] at member
          rw [List.mem_singleton.mp member, Property.slot?, isAlias]
          rfl
      | some cs =>
          rw [known] at member
          have copy := copies a isAlias cs known q member
          rw [Property.slot?, alias?_eq_none_of_field copy.field, copy.origin]
          rfl

/-- Where every alias is traced, none of them was replaced by no copy at all. -/
theorem Spreads.made_ne_nil (spreads : Spreads made ps qs) (original : ∀ p ∈ ps, p.origin? = none)
    (once : (slots ps).Nodup) (traced : Traced ps qs) :
    ∀ a ∈ ps.filterMap Property.alias?, made a ≠ some [] := by
  intro a ha none
  have member : a.slot ∈ slots ps := slots_eq ps ▸ List.mem_map_of_mem ha
  obtain ⟨q, hq, slot⟩ := traced a.slot member
  rw [spreads.whole] at hq
  obtain ⟨p, hp, place⟩ := List.mem_flatMap.mp hq
  have here := slot_of_spread (original p hp)
    (fun b isAlias => spreads.copies b (List.mem_filterMap.mpr ⟨p, hp, isAlias⟩)) place
  obtain ⟨b, isAlias, same⟩ := Option.map_eq_some_iff.mp (here.symm.trans slot)
  have hb : b ∈ ps.filterMap Property.alias? := List.mem_filterMap.mpr ⟨p, hp, isAlias⟩
  have one : b = a := by
    rw [slots_eq] at once
    exact List.inj_on_of_nodup_map once hb ha same
  subst one
  rw [spread, isAlias] at place
  dsimp only at place
  rw [none] at place
  cases place

theorem collapseFrom_copies {a : Placeholder} {seen : List Placeholder} {cs : List Property}
    (known : a ∈ seen) (copies : ∀ c ∈ cs, CopyOf a c) (rest : List Property) :
    collapseFrom seen (cs ++ rest) = collapseFrom seen rest := by
  induction cs with
  | nil => rfl
  | cons c cs ih =>
      obtain ⟨first, later⟩ := List.forall_mem_cons.mp copies
      rw [List.cons_append, collapseFrom, first.origin]
      dsimp only
      rw [if_pos (List.contains_iff_mem.mpr known), ih later]

/-- Collapsing puts every alias back in its place that was not replaced by no copy at all. -/
theorem Spreads.collapse_of_some (spreads : Spreads made ps qs)
    (original : ∀ p ∈ ps, p.origin? = none) (onceAliases : (ps.filterMap Property.alias?).Nodup)
    (some : ∀ a ∈ ps.filterMap Property.alias?, made a ≠ some []) : collapse qs = ps := by
  have copies := spreads.copies
  rw [spreads.whole, Resolution.collapse]
  clear spreads
  -- the aliases put back so far are others than those to come
  suffices all : ∀ seen, (∀ a ∈ ps.filterMap Property.alias?, a ∉ seen) →
      collapseFrom seen (ps.flatMap (spread made)) = ps from
    all [] fun _ _ => List.not_mem_nil
  induction ps with
  | nil => exact fun _ _ => rfl
  | cons p ps ih =>
      intro seen new
      obtain ⟨first, rest⟩ := List.forall_mem_cons.mp original
      rw [List.flatMap_cons, spread]
      cases isAlias : p.alias? with
      | none =>
          rw [List.filterMap_cons_none isAlias] at some copies onceAliases new
          dsimp only
          rw [List.singleton_append, collapseFrom, first]
          exact congrArg (p :: ·) (ih rest onceAliases some copies seen new)
      | some a =>
          rw [List.filterMap_cons_some isAlias] at some copies onceAliases new
          obtain ⟨someHere, someLater⟩ := List.forall_mem_cons.mp some
          obtain ⟨copiesHere, copiesLater⟩ := List.forall_mem_cons.mp copies
          obtain ⟨newHere, newLater⟩ := List.forall_mem_cons.mp new
          obtain ⟨alone, onceLater⟩ := List.nodup_cons.mp onceAliases
          have back := ih rest onceLater someLater copiesLater
          dsimp only
          cases known : made a with
          | none =>
              rw [Option.getD_none, List.singleton_append, collapseFrom, first]
              exact congrArg (p :: ·) (back seen newLater)
          | some cs =>
              cases cs with
              | nil => exact absurd known someHere
              | cons c cs =>
                  obtain ⟨copy, others⟩ := List.forall_mem_cons.mp (copiesHere _ known)
                  rw [Option.getD_some, List.cons_append, collapseFrom, copy.origin]
                  dsimp only
                  rw [if_neg (by simpa using newHere), collapseFrom_copies List.mem_cons_self others,
                    eq_alias isAlias]
                  refine congrArg (Property.alias a :: ·) (back (a :: seen) fun b hb later => ?_)
                  rcases List.mem_cons.mp later with rfl | before
                  · exact alone hb
                  · exact newLater b hb before

/-- Collapsing puts every alias that is traced back in its place. -/
theorem Spreads.collapse (spreads : Spreads made ps qs) (original : ∀ p ∈ ps, p.origin? = none)
    (once : (slots ps).Nodup) (traced : Traced ps qs) : collapse qs = ps :=
  spreads.collapse_of_some original (nodup_of_slots once)
    (spreads.made_ne_nil original once traced)

end Lists

section Entities

theorem expandClass_collapsed {k : Key} {c : Class} (once : (slots c.properties).Nodup)
    (original : ∀ p ∈ c.properties, p.origin? = none) :
    Gives (fun _ d => d.bare = c.bare ∧ (Traced c.properties d.properties → d.collapsed = c))
      (expandClass s n k c) := by
  refine (expandList_gives (nodup_of_slots once)).bind fun _ qs expanded => .pure ⟨rfl, ?_⟩
  obtain ⟨made, spreads, -⟩ := expanded
  intro traced
  exact congrArg (fun ps => { c with properties := ps }) (spreads.collapse original once traced)

theorem expandReturn_collapsed {p : Property} (original : p.origin? = none) :
    Gives (fun _ q => collapseReturn q = p) (expandReturn s n p) := by
  unfold expandReturn
  cases isAlias : p.alias? with
  | none => exact .pure (collapseReturn_original original)
  | some a =>
      refine (copies_made a).bind fun _ new made => .pure ?_
      cases new with
      | none => exact collapseReturn_original original
      | some cs =>
          cases cs with
          | nil => exact collapseReturn_original original
          | cons c cs =>
              obtain ⟨copies, -⟩ := made.1 _ rfl
              have origin := (copies c List.mem_cons_self).origin
              show collapseReturn c = p
              rw [collapseReturn, origin, eq_alias isAlias]

theorem expandEndpoint_collapsed {e : Endpoint} (once : (slots e.params).Nodup)
    (original : ∀ p ∈ e.properties, p.origin? = none) :
    Gives (fun _ d => d.bare = e.bare ∧ (Traced e.params d.params → d.collapsed = e))
      (expandEndpoint s n e) := by
  refine (expandList_gives (nodup_of_slots once)).bind fun _ params expanded => ?_
  obtain ⟨made, spreads, -⟩ := expanded
  have back : Traced e.params params → collapse params = e.params :=
    spreads.collapse (fun p hp => original p (List.mem_append_left _ hp)) once
  cases given : e.returns with
  | none =>
      refine .pure ⟨rfl, fun traced => ?_⟩
      rw [Endpoint.collapsed, back traced, Option.map_none, ← given]
  | some p =>
      have returned : p ∈ e.properties := List.mem_append_right _ (given ▸ List.mem_singleton_self p)
      rw [Option.mapM_some, bind_map_left]
      refine (expandReturn_collapsed (original p returned)).bind fun _ q same => .pure ⟨rfl, ?_⟩
      intro traced
      rw [Endpoint.collapsed, back traced, Option.map_some, same, ← given]

end Entities

section Own
variable {v : VersionId} {f : ModelFile}

/-- The own entities of a version, all of which are there, and each of them once. -/
structure Listed (m : Model) (v : VersionId) : Prop extends m.Homed v where
  once : (m.ownClasses v).Nodup
  onceEndpoints : (m.ownEndpoints v).Nodup
  there : ∀ k ∈ m.ownClasses v, (m.class? k).isSome
  thereEndpoints : ∀ k ∈ m.ownEndpoints v, (m.endpoint? k).isSome

/-- The own entities of a file just loaded are there, each of them once. -/
theorem listed_of_fresh (fresh : m.version? v = some (.fresh v f)) : Listed m v where
  toHomed := Model.homed_of_fresh fresh
  once := Model.nodup_ownClasses_of_fresh fresh
  onceEndpoints := Model.nodup_ownEndpoints_of_fresh fresh
  there _ hk := ((Model.mem_ownClasses_of_fresh fresh).mp hk).2
  thereEndpoints _ hk := ((Model.mem_ownEndpoints_of_fresh fresh).mp hk).2

theorem rel_isSome {α : Type} {R : α → α → Prop} {o o' : Option α} (related : Option.Rel R o o') :
    o'.isSome = o.isSome := by
  cases related <;> rfl

/-- Which entities are there does not depend on what they are bound to. -/
theorem Listed.shape (listed : Listed m v) (shape : Model.KeepsShape m n)
    (ownClasses : n.ownClasses v = m.ownClasses v)
    (ownEndpoints : n.ownEndpoints v = m.ownEndpoints v) : Listed n v where
  classes k hk := listed.classes k (ownClasses ▸ hk)
  endpoints k hk := listed.endpoints k (ownEndpoints ▸ hk)
  once := ownClasses ▸ listed.once
  onceEndpoints := ownEndpoints ▸ listed.onceEndpoints
  there k hk := by
    have names := congrArg Option.isSome (shape.className k)
    rw [Option.isSome_map, Option.isSome_map] at names
    exact names.trans (listed.there k (ownClasses ▸ hk))
  thereEndpoints k hk := by
    have names := congrArg Option.isSome (shape.endpointName k)
    rw [Option.isSome_map, Option.isSome_map] at names
    exact names.trans (listed.thereEndpoints k (ownEndpoints ▸ hk))

theorem Undone.rebinding (undone : Undone m v) (step : Rebinding v m n) : Undone n v := by
  have origins : ∀ {ps qs : List Property}, qs.map Property.unbound = ps.map Property.unbound →
      (∀ p ∈ ps, p.origin? = none) → ∀ q ∈ qs, q.origin? = none := by
    intro ps qs same original q hq
    have read := read_of_unbound Property.origin? Property.origin?_unbound same
    have member : q.origin? ∈ ps.map Property.origin? := read ▸ List.mem_map_of_mem hq
    obtain ⟨p, hp, origin⟩ := List.mem_map.mp member
    exact origin.symm.trans (original p hp)
  refine ⟨fun k hk d found => ?_, fun k hk d found => ?_⟩
  · obtain ⟨c, before, same⟩ := step.class_before found
    exact origins (congrArg Class.properties same)
      (undone.classes k (step.ownClasses ▸ hk) c before)
  · obtain ⟨e, before, same⟩ := step.endpoint_before found
    refine origins ?_ (undone.endpoints k (step.ownEndpoints ▸ hk) e before)
    have params : d.params.map Property.unbound = e.params.map Property.unbound :=
      congrArg Endpoint.params same
    have returns : d.returns.map Property.unbound = e.returns.map Property.unbound :=
      congrArg Endpoint.returns same
    rw [Endpoint.properties, Endpoint.properties, List.map_append, List.map_append, params,
      ← Option.toList_map, ← Option.toList_map, returns]

/-- Binding leaves the classes alone that are not own ones. -/
theorem Rebinding.otherClass (fresh : m.version? v = some (.fresh v f)) (step : Rebinding v m n)
    {k : Key} (other : k ∉ m.ownClasses v) : n.class? k = m.class? k := by
  by_cases home : k.version = v
  · rw [Model.mem_ownClasses_of_fresh fresh, and_iff_right home] at other
    have still : ¬ (n.class? k).isSome := by rwa [rel_isSome (step.toRebound.classes k)]
    rw [Option.not_isSome_iff_eq_none.mp other, Option.not_isSome_iff_eq_none.mp still]
  · exact Model.class?_congr (step.others home)

theorem Rebinding.otherEndpoint (fresh : m.version? v = some (.fresh v f)) (step : Rebinding v m n)
    {k : Key} (other : k ∉ m.ownEndpoints v) : n.endpoint? k = m.endpoint? k := by
  by_cases home : k.version = v
  · rw [Model.mem_ownEndpoints_of_fresh fresh, and_iff_right home] at other
    have still : ¬ (n.endpoint? k).isSome := by rwa [rel_isSome (step.toRebound.endpoints k)]
    rw [Option.not_isSome_iff_eq_none.mp other, Option.not_isSome_iff_eq_none.mp still]
  · exact Model.endpoint?_congr (step.others home)

end Own

section Whole

/-- The own entities of a version, expanded: those of which every alias is traced collapse again. -/
structure Unfolds (v : VersionId) (m n : Model) : Prop extends Model.Rebinds v m n where
  classes : ∀ k ∈ m.ownClasses v, ∃ c d, m.class? k = some c ∧ n.class? k = some d ∧
    (Traced c.properties d.properties → d.collapsed = c)
  otherClasses : ∀ k ∉ m.ownClasses v, n.class? k = m.class? k
  endpoints : ∀ k ∈ m.ownEndpoints v, ∃ e d, m.endpoint? k = some e ∧ n.endpoint? k = some d ∧
    (Traced e.params d.params → d.collapsed = e)
  otherEndpoints : ∀ k ∉ m.ownEndpoints v, n.endpoint? k = m.endpoint? k
  domains : ∀ k, n.domain? k = m.domain? k

theorem expandAll_unfolds (listed : Listed m s.self) (undone : Undone m s.self)
    (once : m.AllClasses (m.ownClasses s.self) fun c => (slots c.properties).Nodup)
    (onceParams : m.AllEndpoints (m.ownEndpoints s.self) fun e => (slots e.params).Nodup) :
    Gives (fun _ n => Unfolds s.self m n) (expandAll s m) := by
  rw [expandAll_eq listed.toHomed listed.once listed.onceEndpoints, forOwnClasses_eq]
  refine (Kind.loop_gives (I := ChangesClasses s.self m)
    (P := fun c d => Traced c.properties d.properties → d.collapsed = c) listed.once listed.there
    (.refl _ m) fun n k c within own begun found => ?_).bind ?_
  · refine (expandClass_collapsed (once k own c begun) (undone.classes k own c begun)).mono ?_
    exact fun _ d made => ⟨within.set (listed.classes k own) found made.1, made.2⟩
  · rintro _ m₁ ⟨first, classes, otherClasses⟩
    have own := first.toRebinds.ownEndpoints
    rw [forOwnEndpoints_eq, own]
    refine (Kind.loop_gives (I := ChangesEndpoints s.self m₁)
      (P := fun e d => Traced e.params d.params → d.collapsed = e) listed.onceEndpoints ?_
      (.refl _ m₁) fun n k e within own begun found => ?_).mono ?_
    · intro k hk
      show (m₁.endpoint? k).isSome
      rw [first.endpoints]
      exact listed.thereEndpoints k hk
    · have begun' : m.endpoint? k = some e := (first.endpoints k).symm.trans begun
      refine (expandEndpoint_collapsed (onceParams k own e begun')
        (undone.endpoints k own e begun')).mono ?_
      exact fun _ d made => ⟨within.set (listed.endpoints k own) found made.1, made.2⟩
    · rintro _ n ⟨second, endpoints, otherEndpoints⟩
      refine ⟨first.toRebinds.trans second.toRebinds, fun k hk => ?_, fun k hk => ?_,
        fun k hk => ?_, fun k hk => ?_, fun k => ?_⟩
      · obtain ⟨c, d, begun, result, back⟩ := classes k hk
        exact ⟨c, d, begun, (second.classes k).trans result, back⟩
      · exact (second.classes k).trans (otherClasses k hk)
      · obtain ⟨e, d, begun, result, back⟩ := endpoints k hk
        exact ⟨e, d, (first.endpoints k).symm.trans begun, result, back⟩
      · exact (otherEndpoints k hk).trans (first.endpoints k)
      · rw [second.domains, first.domains]

/-- What collapsing makes of a model. -/
structure Collapses (v : VersionId) (m n : Model) : Prop extends Model.Rebinds v m n where
  classes : ∀ k ∈ m.ownClasses v, n.class? k = (m.class? k).map Class.collapsed
  otherClasses : ∀ k ∉ m.ownClasses v, n.class? k = m.class? k
  endpoints : ∀ k ∈ m.ownEndpoints v, n.endpoint? k = (m.endpoint? k).map Endpoint.collapsed
  otherEndpoints : ∀ k ∉ m.ownEndpoints v, n.endpoint? k = m.endpoint? k
  domains : ∀ k, n.domain? k = m.domain? k

/-- Collapsing gives a result and notes nothing. -/
theorem collapseAll_collapses (listed : Listed m s.self) :
    ∃ n, collapseAll s m = pure n ∧ Collapses s.self m n := by
  obtain ⟨m₁, done₁⟩ := classKind.loop_pure Class.collapsed (m.ownClasses s.self) m
  have first := Kind.loop_gives (K := classKind) (f := fun _ _ c => pure c.collapsed)
    (I := ChangesClasses s.self m) (P := fun c d => d = c.collapsed) listed.once listed.there
    (.refl _ m) fun n k c within own _ found =>
      .pure ⟨within.set (listed.classes k own) found rfl, rfl⟩
  rw [done₁] at first
  obtain ⟨_, -, changes, classes, otherClasses⟩ := first 0 m₁ 0 rfl
  have own := changes.toRebinds.ownEndpoints
  obtain ⟨n, done₂⟩ := endpointKind.loop_pure Endpoint.collapsed (m₁.ownEndpoints s.self) m₁
  have there : ∀ k ∈ m₁.ownEndpoints s.self, (endpointKind.get m₁ k).isSome := by
    intro k hk
    show (m₁.endpoint? k).isSome
    rw [changes.endpoints]
    exact listed.thereEndpoints k (own ▸ hk)
  have second := Kind.loop_gives (K := endpointKind) (f := fun _ _ e => pure e.collapsed)
    (I := ChangesEndpoints s.self m₁) (P := fun e d => d = e.collapsed)
    (own ▸ listed.onceEndpoints) there (.refl _ m₁)
    fun n k e within member _ found =>
      .pure ⟨within.set (listed.endpoints k (own ▸ member)) found rfl, rfl⟩
  rw [done₂] at second
  obtain ⟨_, -, changes', endpoints, otherEndpoints⟩ := second 0 n 0 rfl
  refine ⟨n, ?_, changes.toRebinds.trans changes'.toRebinds, fun k hk => ?_, fun k hk => ?_,
    fun k hk => ?_, fun k hk => ?_, fun k => ?_⟩
  · unfold collapseAll
    rw [forOwnClasses_eq]
    exact (congrArg (· >>= forOwnEndpoints s collapseEndpoint) done₁).trans
      ((forOwnEndpoints_eq s collapseEndpoint m₁).trans done₂)
  · obtain ⟨c, _, begun, result, rfl⟩ := classes k hk
    have before : m.class? k = some c := begun
    rw [before]
    exact (changes'.classes k).trans result
  · exact (changes'.classes k).trans (otherClasses k hk)
  · obtain ⟨e, _, begun, result, rfl⟩ := endpoints k (own.symm ▸ hk)
    have before : m.endpoint? k = some e := (changes.endpoints k).symm.trans begun
    rw [before]
    exact result
  · exact (otherEndpoints k (own.symm ▸ hk)).trans (changes.endpoints k)
  · rw [changes'.domains, changes.domains]

end Whole
end Resolution
end DataModel
