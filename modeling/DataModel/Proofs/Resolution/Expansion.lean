import DataModel.Proofs.Resolution.Binding
import DataModel.Resolution.Expansion

/-!
Expansion up to identity. Placeholders are put back and replaced by the same copies in alike
models, and the copies hold no key that the copied properties and the placeholder do not hold.
-/
namespace DataModel
variable {ρ : VersionId → VersionId} {H : Horizon} {m m' : Model}

theorem Property.Linked.origin {p : Property} (h : p.Linked H) {a : Placeholder}
    (made : p.origin? = some a) : a.Linked H := by
  cases p with
  | regular p => exact Regular.Linked.origin h a made
  | association p => exact Association.Linked.origin h a made
  | composition p => cases made
  | «alias» p => cases made

theorem Property.Linked.alias {p : Property} (h : p.Linked H) {a : Placeholder}
    (isAlias : p.alias? = some a) : a.Linked H := by
  cases p with
  | regular p => cases isAlias
  | association p => cases isAlias
  | composition p => cases isAlias
  | «alias» p =>
      cases isAlias
      exact h

namespace Resolution
variable {s : Scope}

section Collapsing

theorem collapseFrom_rename (inj : ρ.Injective) (seen : List Placeholder) (ps : List Property) :
    collapseFrom (seen.map (Placeholder.rename ρ)) (ps.map (Property.rename ρ)) =
      (collapseFrom seen ps).map (Property.rename ρ) := by
  induction ps generalizing seen with
  | nil => rfl
  | cons p ps ih =>
      rw [List.map_cons, collapseFrom, collapseFrom, Property.origin?_rename]
      cases p.origin? with
      | none =>
          simp only [Option.map_none, List.map_cons]
          rw [ih]
      | some a =>
          simp only [Option.map_some]
          rw [contains_map (Placeholder.rename_injective inj)]
          split
          · exact ih seen
          · rw [List.map_cons, ← ih (a :: seen)]
            rfl

theorem collapseFrom_linked (seen : List Placeholder) {ps : List Property}
    (linked : ∀ p ∈ ps, p.Linked H) : ∀ p ∈ collapseFrom seen ps, p.Linked H := by
  induction ps generalizing seen with
  | nil => exact linked
  | cons p ps ih =>
      obtain ⟨first, rest⟩ := List.forall_mem_cons.mp linked
      rw [collapseFrom]
      cases made : p.origin? with
      | none => exact List.forall_mem_cons.mpr ⟨first, ih seen rest⟩
      | some a =>
          dsimp only
          split
          · exact ih seen rest
          · exact List.forall_mem_cons.mpr ⟨first.origin made, ih (a :: seen) rest⟩

theorem collapseReturn_rename (p : Property) :
    collapseReturn (p.rename ρ) = (collapseReturn p).rename ρ := by
  unfold collapseReturn
  rw [Property.origin?_rename]
  cases p.origin? <;> rfl

theorem collapseReturn_linked {p : Property} (linked : p.Linked H) :
    (collapseReturn p).Linked H := by
  unfold collapseReturn
  cases made : p.origin? with
  | none => exact linked
  | some a => exact linked.origin made

theorem collapseClass_agrees (inj : ρ.Injective) (k : Key) {c : Class} (linked : c.Linked H) :
    Agrees ρ (SameClass ρ H) (collapseClass m k c)
      (collapseClass m' (k.rename ρ) (c.rename ρ)) := by
  refine .pure ⟨?_, linked.parent, linked.decorators, collapseFrom_linked [] linked.properties⟩
  have same : collapse (c.rename ρ).properties = (collapse c.properties).map (Property.rename ρ) :=
    collapseFrom_rename inj [] c.properties
  rw [same]
  rfl

theorem collapseEndpoint_agrees (inj : ρ.Injective) {e : Endpoint} (linked : e.Linked H) :
    Agrees ρ (SameEndpoint ρ H) (collapseEndpoint m e) (collapseEndpoint m' (e.rename ρ)) := by
  refine .pure ⟨?_, collapseFrom_linked [] linked.params, ?_⟩
  · have params : collapse (e.rename ρ).params = (collapse e.params).map (Property.rename ρ) :=
      collapseFrom_rename inj [] e.params
    have returns : (e.rename ρ).returns.map collapseReturn =
        (e.returns.map collapseReturn).map (Property.rename ρ) := by
      show (e.returns.map (Property.rename ρ)).map collapseReturn = _
      rw [Option.map_map, Option.map_map]
      exact congrArg (Option.map · e.returns) (funext collapseReturn_rename)
    rw [params, returns]
    rfl
  · intro p given
    obtain ⟨q, returned, rfl⟩ := Option.map_eq_some_iff.mp given
    exact collapseReturn_linked (linked.returns q returned)

theorem collapseAll_agrees (inj : ρ.Injective) (like : Model.Like ρ H m m')
    (within : s.Within H) :
    Agrees ρ (Model.Like ρ H) (collapseAll s m) (collapseAll (s.rename ρ) m') := by
  unfold collapseAll
  refine (forOwnClasses_agrees inj like within fun k _ _ linked =>
    collapseClass_agrees inj k linked).bind fun _ _ like => ?_
  exact forOwnEndpoints_agrees inj like within fun _ linked => collapseEndpoint_agrees inj linked

end Collapsing

section Copying

theorem copyField_rename (a : Placeholder) (name : String) (location : Reference) (p : Property) :
    copyField (a.rename ρ) name location (p.rename ρ) = (copyField a name location p).rename ρ := by
  cases p with
  | regular p =>
      obtain ⟨_, _, _, _, _, _, _, _, _, _, listDomainReference, listDomain⟩ := a
      cases listDomain <;> cases listDomainReference <;> rfl
  | association p => rfl
  | composition p => rfl
  | «alias» p => rfl

theorem copyField_linked {a : Placeholder} (linked : a.Linked H) (name : String)
    (location : Reference) {p : Property} (h : p.Linked H) :
    (copyField a name location p).Linked H := by
  have origin : ∀ b, some a = some b → b.Linked H := by
    rintro b ⟨⟩
    exact linked
  cases p with
  | regular p =>
      refine ⟨?_, origin⟩
      simp only
      split
      · next k r bound refers =>
          obtain ⟨_, same, allowed⟩ := linked k bound
          rw [refers, Option.some.injEq] at same
          subst same
          rintro _ ⟨⟩
          exact ⟨_, rfl, allowed⟩
      · exact Regular.Linked.domain h
  | association p =>
      have old : Association.Linked H p := h
      exact ⟨old.target, origin⟩
  | composition p => exact h
  | «alias» p => exact h

/-- Properties with their names, up to identity. -/
abbrev renameNamed (ρ : VersionId → VersionId) (ps : List (String × Property)) :
    List (String × Property) := Table.mapValues (Property.rename ρ) ps

theorem lookup_renameNamed (ps : List (String × Property)) (name : String) :
    (renameNamed ρ ps).lookup name = (ps.lookup name).map (Property.rename ρ) :=
  Table.get?_mapValues (Property.rename ρ) ps name

theorem named_agrees (like : Model.Like ρ H m m') {ps : List Property}
    (linked : ∀ p ∈ ps, p.Linked H) :
    Agrees ρ (fun qs qs' => qs' = renameNamed ρ qs ∧ ∀ q ∈ qs, q.2.Linked H) (named m ps)
      (named m' (ps.map (Property.rename ρ))) := by
  unfold named
  refine (Agrees.mapM (w := fun q => (q.1, q.2.rename ρ)) (P := fun _ q => q.2.Linked H)
    fun p hp => ?_).mono ?_
  · refine (nameOf_agrees like (linked p hp)).bind ?_
    rintro name _ rfl
    exact .pure ⟨rfl, linked p hp⟩
  · rintro qs _ ⟨rfl, all⟩
    refine ⟨rfl, fun q hq => ?_⟩
    obtain ⟨i, bound, rfl⟩ := List.getElem_of_mem hq
    exact all.get (all.length_eq ▸ bound) bound

theorem select_agrees {a : Placeholder} (className : String) {ps : List (String × Property)}
    (linked : ∀ p ∈ ps, p.2.Linked H) :
    Agrees ρ (fun qs qs' => qs' = qs.map (renameNamed ρ) ∧
        ∀ named, qs = some named → ∀ q ∈ named, q.2.Linked H)
      (select s a className ps) (select (s.rename ρ) (a.rename ρ) className (renameNamed ρ ps)) := by
  have known : ∀ r : Reference, ((renameNamed ρ ps).lookup r.name).isNone =
      (ps.lookup r.name).isNone := by
    intro r
    rw [lookup_renameNamed, Option.isNone_map]
  unfold select
  rw [show (a.rename ρ).included = a.included from rfl,
    show (a.rename ρ).excluded = a.excluded from rfl]
  simp only [known]
  refine (Agrees.forM_same fun r _ =>
    report_agrees s (.missingProperty className) (.property (.alias a)) (some r)).bind
      fun _ _ _ => ?_
  split
  · exact .pure ⟨rfl, fun _ h => by cases h⟩
  · split
    · refine .pure ⟨?_, ?_⟩
      · simp only [Option.map_some, lookup_renameNamed]
        refine congrArg some ?_
        show a.included.filterMap _ = (a.included.filterMap _).map _
        rw [List.map_filterMap]
        refine List.filterMap_congr fun r _ => ?_
        rw [Option.map_map, Option.map_map]
        rfl
      · rintro named ⟨⟩ q hq
        obtain ⟨r, -, found⟩ := List.mem_filterMap.mp hq
        obtain ⟨p, place, rfl⟩ := Option.map_eq_some_iff.mp found
        exact linked (r.name, p) (Table.mem_of_get? place)
    · refine .pure ⟨?_, ?_⟩
      · simp only [Option.map_some]
        refine congrArg some ?_
        show ((ps.map _).filter _) = (ps.filter _).map _
        rw [List.filter_map]
        rfl
      · rintro named ⟨⟩ q hq
        exact linked q (List.mem_filter.mp hq).1

theorem copies_agrees (like : Model.Like ρ H m m') (within : s.Within H) {a : Placeholder}
    (linked : a.Linked H) :
    Agrees ρ (fun new new' => new' = new.map (List.map (Property.rename ρ)) ∧
        ∀ ps, new = some ps → ∀ p ∈ ps, p.Linked H)
      (copies s m a) (copies (s.rename ρ) m' (a.rename ρ)) := by
  unfold copies
  refine (findClass_agrees within (.property (.alias a)) a.reference).bind ?_
  rintro found _ ⟨rfl, answers⟩
  cases found with
  | none => exact .pure ⟨rfl, fun _ h => by cases h⟩
  | some k =>
      obtain ⟨_, ⟨⟩, allowed⟩ := answers k rfl
      have reach := H.classes_files allowed
      simp only [Option.map_some, Option.bind_some]
      rw [like.class? reach]
      cases target : m.class? k with
      | none => exact .pure ⟨rfl, fun _ h => by cases h⟩
      | some c =>
          refine (named_agrees like (like.class_linked reach target).properties).bind ?_
          rintro ps _ ⟨rfl, all⟩
          refine (select_agrees (s := s) (a := a) c.name all).bind ?_
          rintro chosen _ ⟨rfl, chosen_linked⟩
          refine .pure ⟨?_, ?_⟩
          · cases chosen with
            | none => rfl
            | some qs =>
                simp only [Option.map_some]
                refine congrArg some ?_
                show ((qs.map _).filter _).map _ = ((qs.filter _).map _).map _
                rw [List.filter_map, List.map_map, List.map_map]
                rw [List.filter_congr fun q _ => Property.isField_rename ρ q.2]
                refine List.map_congr_left fun q _ => ?_
                exact copyField_rename a q.1 (copyLocation a q.1) q.2
          · intro new given p hp
            obtain ⟨qs, rfl, rfl⟩ := Option.map_eq_some_iff.mp given
            obtain ⟨q, hq, rfl⟩ := List.mem_map.mp hp
            exact copyField_linked linked _ _ (chosen_linked qs rfl q (List.mem_filter.mp hq).1)

end Copying

section Splicing

theorem alias?_eq_rename (inj : ρ.Injective) (a : Placeholder) (p : Property) :
    ((p.rename ρ).alias? == some (a.rename ρ)) = (p.alias? == some a) := by
  rw [Property.alias?_rename, Bool.eq_iff_iff, beq_iff_eq, beq_iff_eq]
  cases p.alias? with
  | none => simp
  | some b =>
      simp only [Option.map_some, Option.some.injEq]
      exact (Placeholder.rename_injective inj).eq_iff

theorem splice_rename (inj : ρ.Injective) (a : Placeholder) (new ps : List Property) :
    splice (a.rename ρ) (new.map (Property.rename ρ)) (ps.map (Property.rename ρ)) =
      (splice a new ps).map (Property.rename ρ) := by
  induction ps with
  | nil => rfl
  | cons p ps ih =>
      rw [List.map_cons, splice, splice, alias?_eq_rename inj]
      split
      · rw [List.map_append]
      · rw [List.map_cons, ih]

theorem mem_splice {a : Placeholder} {new ps : List Property} {p : Property}
    (h : p ∈ splice a new ps) : p ∈ new ∨ p ∈ ps := by
  induction ps with
  | nil => cases h
  | cons q ps ih =>
      rw [splice] at h
      split at h
      · exact (List.mem_append.mp h).imp_right (List.mem_cons_of_mem q)
      · rcases List.mem_cons.mp h with rfl | later
        · exact .inr List.mem_cons_self
        · exact (ih later).imp_right (List.mem_cons_of_mem q)

theorem splice_linked {a : Placeholder} {new ps : List Property} (hnew : ∀ p ∈ new, p.Linked H)
    (hps : ∀ p ∈ ps, p.Linked H) : ∀ p ∈ splice a new ps, p.Linked H :=
  fun p hp => (mem_splice hp).elim (hnew p) (hps p)

def Site.key : Site → Key
  | .ofClass k => k
  | .ofParams k => k
  | .ofReturn k => k

def Site.rename (ρ : VersionId → VersionId) : Site → Site
  | .ofClass k => .ofClass (k.rename ρ)
  | .ofParams k => .ofParams (k.rename ρ)
  | .ofReturn k => .ofReturn (k.rename ρ)

theorem filterMap_alias_rename (site : Site) (ps : List Property) :
    ((ps.map (Property.rename ρ)).filterMap fun p => p.alias?.map fun a => (site.rename ρ, a)) =
      (ps.filterMap fun p => p.alias?.map fun a => (site, a)).map
        fun p => (p.1.rename ρ, p.2.rename ρ) := by
  rw [List.filterMap_map, List.map_filterMap]
  refine List.filterMap_congr fun p _ => ?_
  simp only [Function.comp_apply, Property.alias?_rename, Option.map_map]
  rfl

theorem placeholders_rename (inj : ρ.Injective) (like : Model.Like ρ H m m') {v : VersionId}
    (reach : H.files v) : placeholders m' (ρ v) =
      (placeholders m v).map fun p => (p.1.rename ρ, p.2.rename ρ) := by
  unfold placeholders
  simp only [List.map_append, List.map_flatMap]
  rw [like.ownClasses inj reach, like.ownEndpoints inj reach, List.flatMap_map, List.flatMap_map]
  congr 1
  · refine List.flatMap_congr fun k hk => ?_
    rw [like.class? (like.classes_within reach (Model.classes_of_own hk))]
    cases m.class? k with
    | none => rfl
    | some c => exact filterMap_alias_rename (.ofClass k) c.properties
  · refine List.flatMap_congr fun k hk => ?_
    rw [like.endpoint? (like.endpoints_within reach (Model.endpoints_of_own hk))]
    cases m.endpoint? k with
    | none => rfl
    | some e =>
        simp only [Option.map_some, List.map_append]
        congr 1
        · exact filterMap_alias_rename (.ofParams k) e.params
        · show (((e.returns.map (Property.rename ρ)).bind _).toList).map _ = _
          cases e.returns with
          | none => rfl
          | some p =>
              simp only [Option.map_some, Option.bind_some, Property.alias?_rename]
              cases p.alias? <;> rfl

/-- A site in an own entity of a version. -/
def Site.Own (m : Model) (v : VersionId) : Site → Prop
  | .ofClass k => k ∈ m.ownClasses v
  | .ofParams k | .ofReturn k => k ∈ m.ownEndpoints v

/-- A placeholder of a version is a property of an own class or an own endpoint. -/
theorem mem_placeholders {v : VersionId} {site : Site} {a : Placeholder}
    (h : (site, a) ∈ placeholders m v) : site.Own m v ∧ ∃ p, p.alias? = some a ∧
      ((∃ c, m.class? site.key = some c ∧ p ∈ c.properties) ∨
        ∃ e, m.endpoint? site.key = some e ∧ (p ∈ e.params ∨ e.returns = some p)) := by
  rcases List.mem_append.mp h with inClass | inEndpoint
  · obtain ⟨k, hk, place⟩ := List.mem_flatMap.mp inClass
    obtain ⟨p, hp, isAlias⟩ := List.mem_filterMap.mp place
    obtain ⟨b, hb, same⟩ := Option.map_eq_some_iff.mp isAlias
    cases same
    refine ⟨hk, p, hb, .inl ?_⟩
    cases found : m.class? k with
    | none =>
        rw [found] at hp
        cases hp
    | some c =>
        rw [found] at hp
        exact ⟨c, found, hp⟩
  · obtain ⟨k, hk, place⟩ := List.mem_flatMap.mp inEndpoint
    cases found : m.endpoint? k with
    | none =>
        rw [found] at place
        cases place
    | some e =>
        rw [found] at place
        rcases List.mem_append.mp place with inParams | inReturn
        · obtain ⟨p, hp, isAlias⟩ := List.mem_filterMap.mp inParams
          obtain ⟨b, hb, same⟩ := Option.map_eq_some_iff.mp isAlias
          cases same
          exact ⟨hk, p, hb, .inr ⟨e, found, .inl hp⟩⟩
        · obtain ⟨b, hb, same⟩ := List.mem_map.mp inReturn
          cases same
          obtain ⟨p, given, isAlias⟩ := Option.bind_eq_some_iff.mp (Option.mem_toList.mp hb)
          exact ⟨hk, p, isAlias, .inr ⟨e, found, .inr given⟩⟩

theorem Site.Own.reach (like : Model.Like ρ H m m') {v : VersionId} (within : H.files v)
    {site : Site} (own : site.Own m v) : H.files site.key.version := by
  cases site with
  | ofClass k => exact like.classes_within within (Model.classes_of_own own)
  | ofParams k => exact like.endpoints_within within (Model.endpoints_of_own own)
  | ofReturn k => exact like.endpoints_within within (Model.endpoints_of_own own)

theorem placeholders_linked (like : Model.Like ρ H m m') {v : VersionId} (within : H.files v)
    {site : Site} {a : Placeholder} (h : (site, a) ∈ placeholders m v) :
    H.files site.key.version ∧ a.Linked H := by
  obtain ⟨own, p, isAlias, held⟩ := mem_placeholders h
  have reach := own.reach like within
  refine ⟨reach, Property.Linked.alias ?_ isAlias⟩
  rcases held with ⟨c, found, hp⟩ | ⟨e, found, hp | given⟩
  · exact (like.class_linked reach found).properties p hp
  · exact (like.endpoint_linked reach found).params p hp
  · exact (like.endpoint_linked reach found).returns p given

theorem put_like (inj : ρ.Injective) (like : Model.Like ρ H m m') {site : Site}
    (reach : H.files site.key.version) {a : Placeholder} {new : List Property}
    (linked : ∀ p ∈ new, p.Linked H) :
    Model.Like ρ H (site.put m a new)
      ((site.rename ρ).put m' (a.rename ρ) (new.map (Property.rename ρ))) := by
  cases site with
  | ofClass k =>
      change H.files k.version at reach
      simp only [Site.put, Site.rename]
      rw [like.class? reach]
      cases found : m.class? k with
      | none => exact like
      | some c =>
          have old := like.class_linked reach found
          have after := like.setClass inj reach (c := { c with properties := splice a new c.properties })
            ⟨old.parent, old.decorators, splice_linked linked old.properties⟩
          simp only [Option.map_some]
          rw [show (c.rename ρ).properties = c.properties.map (Property.rename ρ) from rfl,
            splice_rename inj]
          exact after
  | ofParams k =>
      change H.files k.version at reach
      simp only [Site.put, Site.rename]
      rw [like.endpoint? reach]
      cases found : m.endpoint? k with
      | none => exact like
      | some e =>
          have old := like.endpoint_linked reach found
          have after := like.setEndpoint inj reach (e := { e with params := splice a new e.params })
            ⟨splice_linked linked old.params, old.returns⟩
          simp only [Option.map_some]
          rw [show (e.rename ρ).params = e.params.map (Property.rename ρ) from rfl,
            splice_rename inj]
          exact after
  | ofReturn k =>
      change H.files k.version at reach
      simp only [Site.put, Site.rename]
      rw [like.endpoint? reach]
      cases found : m.endpoint? k with
      | none => exact like
      | some e =>
          cases new with
          | nil => exact like
          | cons p rest =>
              have old := like.endpoint_linked reach found
              refine like.setEndpoint inj reach (e := { e with returns := some p })
                ⟨old.params, ?_⟩
              rintro _ ⟨⟩
              exact linked p List.mem_cons_self

theorem expandAll_agrees (inj : ρ.Injective) (like₀ : Model.Like ρ H m m')
    (within : s.Within H) :
    Agrees ρ (Model.Like ρ H) (expandAll s m) (expandAll (s.rename ρ) m') := by
  unfold expandAll
  rw [show placeholders m' (s.rename ρ).self = _ from placeholders_rename inj like₀ within.self]
  refine .foldlM like₀ ?_
  rintro ⟨site, a⟩ member n n' like
  obtain ⟨reach, linked⟩ := placeholders_linked like₀ within.self member
  refine (copies_agrees like within linked).bind ?_
  rintro new _ ⟨rfl, new_linked⟩
  cases new with
  | none => exact .pure like
  | some ps => exact .pure (put_like inj like reach (new_linked ps rfl))

end Splicing
end Resolution
end DataModel
