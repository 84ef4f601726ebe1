import DataModel.Proofs.Model.Evolution
import DataModel.Proofs.Resolution.Agreement
import DataModel.Proofs.Resolution.Noting
import DataModel.Resolution.Binding

/-!
Binding up to identity. Binding the references of a file binds them to the same entities in alike
models, keeps all bound keys within the horizon, and changes nothing of the file that is bare.
-/
namespace DataModel

theorem Stand.of_answers {allowed : String → Key → Prop} {rs : List Reference}
    {found : List (Option Key)}
    (h : List.Forall₂ (fun r k => Answers allowed k (some r)) rs found) :
    Stand allowed (found.filterMap id) rs := by
  unfold Stand
  induction h with
  | nil => exact .nil
  | cons first rest ih =>
      rename_i r k rs ks
      cases k with
      | none =>
          rw [List.filterMap_cons_none rfl]
          exact .cons_right ih
      | some key =>
          obtain ⟨_, ⟨⟩, allows⟩ := first key rfl
          show List.SublistForall₂ _ (key :: ks.filterMap id) (r :: rs)
          exact .cons allows ih

theorem filterMap_rename (ρ : VersionId → VersionId) (found : List (Option Key)) :
    (found.map (Option.map (Key.rename ρ))).filterMap id =
      (found.filterMap id).map (Key.rename ρ) := by
  rw [List.filterMap_map, List.map_filterMap]
  rfl

namespace Resolution
variable {ρ : VersionId → VersionId} {H : Horizon} {m m' : Model} {s : Scope}

section Agreement

/-- The same entity up to identity, linked within the horizon. -/
abbrev SameClass (ρ : VersionId → VersionId) (H : Horizon) (c c' : Class) : Prop :=
  c' = c.rename ρ ∧ c.Linked H

abbrev SameEndpoint (ρ : VersionId → VersionId) (H : Horizon) (e e' : Endpoint) : Prop :=
  e' = e.rename ρ ∧ e.Linked H

abbrev SameProperty (ρ : VersionId → VersionId) (H : Horizon) (p p' : Property) : Prop :=
  p' = p.rename ρ ∧ p.Linked H

theorem forOwnClasses_agrees (inj : ρ.Injective) (like₀ : Model.Like ρ H m m')
    (within : s.Within H) {f g : Model → Key → Class → Noting Class}
    (each : ∀ {m m' : Model} k {c : Class}, Model.Like ρ H m m' → c.Linked H →
      Agrees ρ (SameClass ρ H) (f m k c) (g m' (k.rename ρ) (c.rename ρ))) :
    Agrees ρ (Model.Like ρ H) (forOwnClasses s f m) (forOwnClasses (s.rename ρ) g m') := by
  unfold forOwnClasses
  rw [show m'.ownClasses (s.rename ρ).self = _ from like₀.ownClasses inj within.self]
  refine .foldlM like₀ fun k hk n n' like => ?_
  have reach : H.files k.version := like₀.classes_within within.self (Model.classes_of_own hk)
  rw [like.class? reach]
  cases found : n.class? k with
  | none => exact .pure like
  | some c =>
      refine (each k like (like.class_linked reach found)).bind ?_
      rintro c₁ _ ⟨rfl, linked⟩
      exact .pure (like.setClass inj reach linked)

theorem forOwnEndpoints_agrees (inj : ρ.Injective) (like₀ : Model.Like ρ H m m')
    (within : s.Within H) {f g : Model → Endpoint → Noting Endpoint}
    (each : ∀ {m m' : Model} {e : Endpoint}, Model.Like ρ H m m' → e.Linked H →
      Agrees ρ (SameEndpoint ρ H) (f m e) (g m' (e.rename ρ))) :
    Agrees ρ (Model.Like ρ H) (forOwnEndpoints s f m) (forOwnEndpoints (s.rename ρ) g m') := by
  unfold forOwnEndpoints
  rw [show m'.ownEndpoints (s.rename ρ).self = _ from like₀.ownEndpoints inj within.self]
  refine .foldlM like₀ fun k hk n n' like => ?_
  have reach : H.files k.version :=
    like₀.endpoints_within within.self (Model.endpoints_of_own hk)
  rw [like.endpoint? reach]
  cases found : n.endpoint? k with
  | none => exact .pure like
  | some e =>
      refine (each like (like.endpoint_linked reach found)).bind ?_
      rintro e₁ _ ⟨rfl, linked⟩
      exact .pure (like.setEndpoint inj reach linked)

theorem bindParent_agrees (within : s.Within H) (k : Key) {c : Class} (linked : c.Linked H) :
    Agrees ρ (SameClass ρ H) (bindParent s m k c)
      (bindParent (s.rename ρ) m' (k.rename ρ) (c.rename ρ)) := by
  unfold bindParent
  rw [show (c.rename ρ).parentReference = c.parentReference from rfl]
  cases given : c.parentReference with
  | none => exact .pure ⟨rfl, linked⟩
  | some r =>
      refine (findClass_agrees within (.class k) r).bind ?_
      rintro parent _ ⟨rfl, answers⟩
      exact .pure ⟨rfl, given ▸ answers, linked.decorators, linked.properties⟩

theorem bindDecorators_agrees (within : s.Within H) (k : Key) {c : Class} (linked : c.Linked H) :
    Agrees ρ (SameClass ρ H) (bindDecorators s m k c)
      (bindDecorators (s.rename ρ) m' (k.rename ρ) (c.rename ρ)) := by
  unfold bindDecorators
  refine (Agrees.mapM_same fun r _ => findDecorator_agrees within (.class k) r).bind ?_
  rintro ks _ ⟨rfl, answers⟩
  rw [filterMap_rename]
  exact .pure ⟨rfl, linked.parent, .of_answers answers, linked.properties⟩

theorem bindTarget_agrees (like : Model.Like ρ H m m') (within : s.Within H) {a : Association}
    (linked : a.Linked H) :
    Agrees ρ (fun b b' => b' = b.rename ρ ∧ b.Linked H) (bindTarget m s a)
      (bindTarget m' (s.rename ρ) (a.rename ρ)) := by
  unfold bindTarget
  have unbound : ({ a with target := none } : Association).Linked H := ⟨.none, linked.origin⟩
  refine (findClass_agrees within (.property (.association { a with target := none }))
    a.reference).bind ?_
  rintro found _ ⟨rfl, answers⟩
  cases found with
  | none => exact .pure ⟨rfl, unbound⟩
  | some k =>
      obtain ⟨_, ⟨⟩, allowed⟩ := answers k rfl
      have keys : (((m'.class? (k.rename ρ)).map (·.primaryKeys)).getD []).length =
          (((m.class? k).map (·.primaryKeys)).getD []).length := by
        rw [like.class? (H.classes_files allowed)]
        cases m.class? k with
        | none => rfl
        | some c =>
            simp only [Option.map_some, Option.getD_some]
            rw [c.primaryKeys_rename, List.length_map]
      simp only [Option.map_some, keys]
      split
      · exact .pure ⟨rfl, answers, linked.origin⟩
      · exact (report_agrees s _ _ _).bind fun _ _ _ => .pure ⟨rfl, unbound⟩

theorem bindProperty_agrees (like : Model.Like ρ H m m') (within : s.Within H) {p : Property}
    (linked : p.Linked H) :
    Agrees ρ (SameProperty ρ H) (bindProperty m s p)
      (bindProperty m' (s.rename ρ) (p.rename ρ)) := by
  cases p with
  | regular p =>
      refine (findDomain_agrees like within (.property (.regular p)) p.domainReference).bind ?_
      rintro domain _ ⟨rfl, answers⟩
      exact .pure ⟨rfl, answers, linked.origin⟩
  | association a =>
      refine (bindTarget_agrees like within linked).bind ?_
      rintro b _ ⟨rfl, linked⟩
      exact .pure ⟨rfl, linked⟩
  | composition c =>
      refine (findClass_agrees within (.property (.composition c)) c.reference).bind ?_
      rintro target _ ⟨rfl, answers⟩
      rw [show (c.rename ρ).domainKindReference = c.domainKindReference from rfl]
      cases given : c.domainKindReference with
      | none => exact .pure ⟨rfl, answers, given ▸ linked.domainKind⟩
      | some r =>
          refine (findDomain_agrees like within (.property (.composition c)) r).bind ?_
          rintro kind _ ⟨rfl, answers'⟩
          exact .pure ⟨rfl, answers, given ▸ answers'⟩
  | «alias» a =>
      simp only [bindProperty, Property.rename]
      rw [show (a.rename ρ).listDomainReference = a.listDomainReference from rfl]
      cases given : a.listDomainReference with
      | none => exact .pure ⟨rfl, linked⟩
      | some r =>
          refine (findDomain_agrees like within (.property (.alias a)) r).bind ?_
          rintro listDomain _ ⟨rfl, answers⟩
          refine .pure ⟨rfl, ?_⟩
          show Answers H.domains listDomain (some r)
          exact answers

theorem bindProperties_agrees (like : Model.Like ρ H m m') (within : s.Within H)
    {ps : List Property} (linked : ∀ p ∈ ps, p.Linked H) :
    Agrees ρ (fun qs qs' => qs' = qs.map (Property.rename ρ) ∧ ∀ q ∈ qs, q.Linked H)
      (ps.mapM (bindProperty m s)) ((ps.map (Property.rename ρ)).mapM
        (bindProperty m' (s.rename ρ))) := by
  refine (Agrees.mapM (P := fun _ q => q.Linked H) fun p hp =>
    bindProperty_agrees like within (linked p hp)).mono ?_
  rintro qs _ ⟨rfl, all⟩
  refine ⟨rfl, fun q hq => ?_⟩
  obtain ⟨i, bound, rfl⟩ := List.getElem_of_mem hq
  exact all.get (all.length_eq ▸ bound) bound

theorem bindClassProperties_agrees (like : Model.Like ρ H m m') (within : s.Within H) (k : Key)
    {c : Class} (linked : c.Linked H) :
    Agrees ρ (SameClass ρ H) (bindClassProperties s m k c)
      (bindClassProperties (s.rename ρ) m' (k.rename ρ) (c.rename ρ)) := by
  refine (bindProperties_agrees like within linked.properties).bind ?_
  rintro ps _ ⟨rfl, all⟩
  exact .pure ⟨rfl, linked.parent, linked.decorators, all⟩

theorem bindEndpointProperties_agrees (like : Model.Like ρ H m m') (within : s.Within H)
    {e : Endpoint} (linked : e.Linked H) :
    Agrees ρ (SameEndpoint ρ H) (bindEndpointProperties s m e)
      (bindEndpointProperties (s.rename ρ) m' (e.rename ρ)) := by
  refine (bindProperties_agrees like within linked.params).bind ?_
  rintro params _ ⟨rfl, all⟩
  refine (Agrees.mapOption (w := Property.rename ρ) fun p given =>
    bindProperty_agrees like within (linked.returns p given)).bind ?_
  rintro returns _ ⟨rfl, returned⟩
  exact .pure ⟨rfl, all, returned⟩

theorem bindConverters_agrees (inj : ρ.Injective) (like : Model.Like ρ H m m')
    (within : s.Within H) :
    Agrees ρ (Model.Like ρ H) (bindConverters s m) (bindConverters (s.rename ρ) m') := by
  unfold bindConverters
  have declared : ((m'.file? (s.rename ρ).self).map (·.domains)).getD [] =
      (((m.file? s.self).map (·.domains)).getD []).map (Domain.rename ρ) := by
    rw [show (m'.file? (s.rename ρ).self).map (·.domains) = _ from
      like.reading within.self fun _ _ => rfl]
    cases m.file? s.self <;> rfl
  dsimp only
  rw [declared, List.zipIdx_map]
  refine (Agrees.mapM (w := Domain.rename ρ) (P := fun _ d => d.Linked H) ?_).bind ?_
  · rintro ⟨d, i⟩ -
    refine (Agrees.mapM (u := Converter.rename ρ) (w := Converter.rename ρ)
      (P := fun _ c => c.Linked H) fun c _ => ?_).bind ?_
    · refine (Agrees.mapM_same fun r _ =>
        findDomain_agrees like within (.domain ⟨s.self, i⟩) r).bind ?_
      rintro ks _ ⟨rfl, answers⟩
      rw [filterMap_rename]
      exact .pure ⟨rfl, Stand.of_answers answers⟩
    · rintro cs _ ⟨rfl, all⟩
      refine .pure ⟨rfl, fun c hc => ?_⟩
      obtain ⟨i, bound, rfl⟩ := List.getElem_of_mem hc
      exact all.get (all.length_eq ▸ bound) bound
  · rintro ds _ ⟨rfl, all⟩
    refine .pure (like.modify inj within.self (fun _ _ _ => rfl) ?_ fun _ _ => rfl)
    intro ver known
    have old := like.linked within.self known
    refine ⟨⟨?_, old.file.classes, old.file.endpoints⟩, old.classes, old.endpoints,
      old.sharedClasses, old.sharedEndpoints⟩
    intro d hd
    obtain ⟨i, bound, rfl⟩ := List.getElem_of_mem hd
    exact all.get (all.length_eq ▸ bound) bound

theorem missingUses_rename (like : Model.Like ρ H m m') (within : s.Within H) :
    missingUses m' (s.rename ρ) = missingUses m s := by
  unfold missingUses
  rw [show m'.uses (s.rename ρ).self = m.uses s.self from like.uses within.self]
  exact List.filter_congr fun use _ =>
    congrArg (! ·) (Table.has_mapValues ρ s.dependencies use.name)

theorem checkUses_agrees (like : Model.Like ρ H m m') (within : s.Within H) :
    Agrees ρ (fun _ _ => True) (checkUses m s) (checkUses m' (s.rename ρ)) := by
  unfold checkUses
  rw [missingUses_rename like within]
  exact .forM_same fun use _ => report_agrees s _ (.file s.self) use

theorem bind_agrees (inj : ρ.Injective) (like : Model.Like ρ H m m') (within : s.Within H) :
    Agrees ρ (Model.Like ρ H) (bind s m) (bind (s.rename ρ) m') := by
  unfold bind
  refine (forOwnClasses_agrees inj like within fun k _ _ linked =>
    bindParent_agrees within k linked).bind fun _ _ like => ?_
  refine (forOwnClasses_agrees inj like within fun k _ _ linked =>
    bindDecorators_agrees within k linked).bind fun _ _ like => ?_
  refine (forOwnClasses_agrees inj like within fun k _ like linked =>
    bindClassProperties_agrees like within k linked).bind fun _ _ like => ?_
  refine (forOwnEndpoints_agrees inj like within fun like linked =>
    bindEndpointProperties_agrees like within linked).bind fun _ _ like => ?_
  exact bindConverters_agrees inj like within

end Agreement
end Resolution
end DataModel
