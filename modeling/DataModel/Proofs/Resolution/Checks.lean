import DataModel.Proofs.Resolution.Expansion
import DataModel.Resolution.Checks

/-!
Checks up to identity. The checks change nothing, and they report the same in alike models. The
classes above a class are as many as the model has at most, so the number of classes is fuel
enough to find them all.
-/
namespace DataModel.Resolution
variable {ρ : VersionId → VersionId} {H : Horizon} {m m' : Model} {s : Scope}
  {missing : List Reference}

section Ancestors

theorem ancestors_succ {fuel : Nat} {seen : List Key} (k : Option Key) (once : seen.Nodup)
    (known : ∀ l ∈ seen, (m.class? l).isSome) (enough : m.classCount < fuel + seen.length) :
    ancestors m seen (fuel + 1) k = ancestors m seen fuel k := by
  induction fuel generalizing seen k with
  | zero =>
      have fits := Model.length_le_classCount once known
      omega
  | succ fuel ih =>
      cases k with
      | none => rfl
      | some k =>
          rw [ancestors, ancestors]
          split
          · rfl
          · next new =>
            cases found : m.class? k with
            | none => rfl
            | some c =>
                have once' : (k :: seen).Nodup :=
                  List.nodup_cons.mpr ⟨fun old => new (List.contains_iff_mem.mpr old), once⟩
                have known' : ∀ l ∈ k :: seen, (m.class? l).isSome :=
                  List.forall_mem_cons.mpr ⟨by rw [found]; rfl, known⟩
                dsimp only
                rw [ih c.parent once' known' (by rw [List.length_cons]; omega)]

theorem ancestors_enough {fuel : Nat} {k : Key} (parent : Option Key)
    (known : (m.class? k).isSome) (enough : m.classCount + 1 ≤ fuel) :
    ancestors m [k] fuel parent = ancestors m [k] (m.classCount + 1) parent := by
  induction enough with
  | refl => rfl
  | step le ih =>
      refine (ancestors_succ parent (List.nodup_singleton k) ?_ ?_).trans ih
      · exact List.forall_mem_singleton.mpr known
      · exact Nat.lt_of_lt_of_le (Nat.lt_of_succ_le le) (Nat.le_add_right _ _)

theorem ancestors_rename (inj : ρ.Injective) (like : Model.Like ρ H m m') (fuel : Nat)
    (seen : List Key) {k : Option Key} (reach : ∀ l, k = some l → H.files l.version) :
    ancestors m' (seen.map (Key.rename ρ)) fuel (k.map (Key.rename ρ)) =
      (ancestors m seen fuel k).map (Class.rename ρ) := by
  induction fuel generalizing seen k with
  | zero => rfl
  | succ fuel ih =>
      cases k with
      | none => rfl
      | some k =>
          rw [Option.map_some, ancestors, ancestors, contains_map (Key.rename_injective inj)]
          split
          · rfl
          · rw [like.class? (reach k rfl)]
            cases found : m.class? k with
            | none => rfl
            | some c =>
                have linked := like.class_linked (reach k rfl) found
                have above := ih (k :: seen) (k := c.parent) fun l bound => by
                  obtain ⟨_, -, allowed⟩ := linked.parent l bound
                  exact H.classes_files allowed
                simp only [Option.map_some, List.map_cons] at above ⊢
                rw [← above]
                rfl

theorem ancestors_linked (like : Model.Like ρ H m m') (fuel : Nat) (seen : List Key)
    {k : Option Key} (reach : ∀ l, k = some l → H.files l.version) :
    ∀ c ∈ ancestors m seen fuel k, c.Linked H := by
  induction fuel generalizing seen k with
  | zero => exact fun c hc => absurd hc List.not_mem_nil
  | succ fuel ih =>
      cases k with
      | none => exact fun c hc => absurd hc List.not_mem_nil
      | some k =>
          rw [ancestors]
          split
          · exact fun c hc => absurd hc List.not_mem_nil
          · cases found : m.class? k with
            | none => exact fun c hc => absurd hc List.not_mem_nil
            | some c =>
                have linked := like.class_linked (reach k rfl) found
                refine List.forall_mem_cons.mpr ⟨linked, ih (k :: seen) ?_⟩
                intro l bound
                obtain ⟨_, -, allowed⟩ := linked.parent l bound
                exact H.classes_files allowed

theorem inheritedNames_agrees (inj : ρ.Injective) (like : Model.Like ρ H m m') {k : Key} {c : Class}
    (reach : H.files k.version) (found : m.class? k = some c) :
    Agrees ρ (fun names names' => names' = names) (inheritedNames m k c)
      (inheritedNames m' (k.rename ρ) (c.rename ρ)) := by
  have linked := like.class_linked reach found
  have above : ∀ l, c.parent = some l → H.files l.version := by
    intro l bound
    obtain ⟨_, -, allowed⟩ := linked.parent l bound
    exact H.classes_files allowed
  have same : ancestors m' [k.rename ρ] (m'.classCount + 1) (c.rename ρ).parent =
      (ancestors m [k] (m.classCount + 1) c.parent).map (Class.rename ρ) := by
    have known : (m.class? k).isSome := by rw [found]; rfl
    have known' : (m'.class? (k.rename ρ)).isSome := by rw [like.class? reach, found]; rfl
    have both := ancestors_rename inj like (max m.classCount m'.classCount + 1) [k] above
    rw [ancestors_enough c.parent known (by omega)] at both
    rw [← both]
    exact (ancestors_enough (c.parent.map (Key.rename ρ)) known' (by omega)).symm
  unfold inheritedNames
  rw [same, List.flatMap_map]
  have fields : ∀ c : Class, (c.rename ρ).properties.filter (!·.isAlias) =
      (c.properties.filter (!·.isAlias)).map (Property.rename ρ) := by
    intro c
    show (c.properties.map _).filter _ = _
    rw [List.filter_map]
    exact congrArg _ (List.filter_congr fun p _ => congrArg (!·) (Property.isAlias_rename ρ p))
  simp only [fields]
  rw [← List.map_flatMap]
  refine (Agrees.mapM (w := id) (P := fun _ _ => True) fun p hp => ?_).mono ?_
  · obtain ⟨a, ha, member⟩ := List.mem_flatMap.mp hp
    have inherited := ancestors_linked like _ _ above a ha
    refine (nameOf_agrees like (inherited.properties p (List.mem_filter.mp member).1)).mono ?_
    exact fun _ _ same => ⟨same, trivial⟩
  · rintro names _ ⟨rfl, -⟩
    exact List.map_id names

end Ancestors

section Checks

theorem checkKeys_agrees (inj : ρ.Injective) (like : Model.Like ρ H m m') (within : s.Within H) :
    Agrees ρ (fun _ _ => True) (checkKeys s m) (checkKeys (s.rename ρ) m') := by
  unfold checkKeys
  rw [show m'.ownClasses (s.rename ρ).self = _ from like.ownClasses inj within.self]
  refine .forM fun k hk => ?_
  have reach := like.classes_within within.self (Model.classes_of_own hk)
  rw [like.class? reach]
  cases found : m.class? k with
  | none => exact .pure trivial
  | some c =>
      have linked := like.class_linked reach found
      simp only [Option.map_some]
      rw [c.primaryKeys_rename, List.length_map]
      split
      · refine (Agrees.mapM (w := id) (P := fun _ _ => True) fun p hp => ?_).bind ?_
        · refine (nameOf_agrees like (linked.properties p (List.mem_filter.mp hp).1)).mono ?_
          exact fun _ _ same => ⟨same, trivial⟩
        · rintro names _ ⟨rfl, -⟩
          rw [List.map_id]
          exact report_agrees s _ (.class k) c.location
      · exact .pure trivial

theorem checkNames_agrees (like : Model.Like ρ H m m') (className : String) (seen : List String)
    {ps : List Property} (linked : ∀ p ∈ ps, p.Linked H) :
    Agrees ρ (fun _ _ => True) (checkNames s m className seen ps)
      (checkNames (s.rename ρ) m' className seen (ps.map (Property.rename ρ))) := by
  induction ps generalizing seen with
  | nil => exact .pure trivial
  | cons p ps ih =>
      obtain ⟨first, rest⟩ := List.forall_mem_cons.mp linked
      rw [List.map_cons, checkNames, checkNames, Property.isAlias_rename]
      split
      · exact ih seen rest
      · refine (nameOf_agrees like first).bind ?_
        rintro name _ rfl
        rw [Property.location_rename]
        split
        · exact (report_agrees s _ (.property p) p.location).bind fun _ _ _ => ih _ rest
        · exact ih _ rest

theorem checkDuplicates_agrees (inj : ρ.Injective) (like : Model.Like ρ H m m')
    (within : s.Within H) :
    Agrees ρ (fun _ _ => True) (checkDuplicates s m) (checkDuplicates (s.rename ρ) m') := by
  unfold checkDuplicates
  rw [show m'.ownClasses (s.rename ρ).self = _ from like.ownClasses inj within.self]
  refine .forM fun k hk => ?_
  have reach := like.classes_within within.self (Model.classes_of_own hk)
  rw [like.class? reach]
  cases found : m.class? k with
  | none => exact .pure trivial
  | some c =>
      refine (inheritedNames_agrees inj like reach found).bind ?_
      rintro names _ rfl
      exact checkNames_agrees like c.name _ (like.class_linked reach found).properties

theorem existingUses_rename (like : Model.Like ρ H m m') (within : s.Within H) :
    existingUses (s.rename ρ) missing m' = existingUses s missing m := by
  unfold existingUses
  rw [show m'.uses (s.rename ρ).self = m.uses s.self from like.uses within.self]

theorem checkUnusedUses_agrees (like : Model.Like ρ H m m') (within : s.Within H) :
    Agrees ρ (fun _ _ => True) (checkUnusedUses s missing m)
      (checkUnusedUses (s.rename ρ) missing m') := by
  unfold checkUnusedUses
  refine Agrees.usedFiles.bind fun n n' same => ?_
  rw [existingUses_rename like within, same]
  refine .forM_same fun use _ => ?_
  split
  · exact report_agrees s _ (.file s.self) use
  · exact .pure trivial

theorem checkUsesOrder_agrees (like : Model.Like ρ H m m') (within : s.Within H) :
    Agrees ρ (fun _ _ => True) (checkUsesOrder s missing m)
      (checkUsesOrder (s.rename ρ) missing m') := by
  unfold checkUsesOrder
  rw [existingUses_rename like within]
  refine .forM_same ?_
  rintro ⟨use, wanted⟩ -
  dsimp only
  split
  · exact report_agrees s _ (.file s.self) use
  · exact .pure trivial

end Checks
end DataModel.Resolution
