import DataModel.Proofs.Resolution.Checks
import DataModel.Proofs.Resolution.MirroredExpansion

/-!
Checks in two runs. What they report of a class depends on the class, on those above it and on the
names of properties, and all of these are the same under other keys.
-/
namespace DataModel.Resolution
variable {μ : Mirror} {s s' : Scope} {missing : List Reference} {n n' : Model}

section Ancestors
variable (same : ∀ k, n'.class? (μ.key k) = (n.class? k).map (Class.relink μ.key))
include same

theorem ancestors_relink (fuel : Nat) (seen : List Key) (k : Option Key) :
    ancestors n' (seen.map μ.key) fuel (k.map μ.key) =
      (ancestors n seen fuel k).map (Class.relink μ.key) := by
  induction fuel generalizing seen k with
  | zero => rfl
  | succ fuel ih =>
      cases k with
      | none => rfl
      | some k =>
          rw [Option.map_some, ancestors, ancestors, contains_map μ.injective]
          split
          · rfl
          · rw [same]
            cases n.class? k with
            | none => rfl
            | some c =>
                have above := ih (k :: seen) c.parent
                simp only [Option.map_some, List.map_cons] at above ⊢
                rw [← above]
                rfl

theorem inheritedNames_reflects {k : Key} {c : Class} (found : n.class? k = some c) :
    μ.Reflects (fun names names' => names' = names) (inheritedNames n k c)
      (inheritedNames n' (μ.key k) (c.relink μ.key)) := by
  have heads := headsAlike_of same
  have above : ancestors n' [μ.key k] (n'.classCount + 1) (c.relink μ.key).parent =
      (ancestors n [k] (n.classCount + 1) c.parent).map (Class.relink μ.key) := by
    have known : (n.class? k).isSome := by rw [found]; rfl
    have known' : (n'.class? (μ.key k)).isSome := by rw [same, found]; rfl
    have both := ancestors_relink same (max n.classCount n'.classCount + 1) [k] c.parent
    rw [ancestors_enough c.parent known (by omega)] at both
    rw [← both]
    exact (ancestors_enough (c.parent.map μ.key) known' (by omega)).symm
  have fields : ∀ c : Class, (c.relink μ.key).properties.filter (!·.isAlias) =
      (c.properties.filter (!·.isAlias)).map (Property.relink μ.key) := by
    intro c
    rw [Class.relink, List.filter_map]
    exact congrArg _ (List.filter_congr fun p _ => congrArg (!·) (Property.isAlias_relink μ.key p))
  unfold inheritedNames
  rw [above, List.flatMap_map]
  simp only [fields]
  rw [← List.map_flatMap]
  exact names_reflects heads _

end Ancestors

section Checks
variable (scopes : μ.Scopes s s')
  (same : ∀ k, n'.class? (μ.key k) = (n.class? k).map (Class.relink μ.key))
include scopes same

theorem checkKeys_reflects (once : (n.ownClasses s.self).Nodup)
    (order : μ.order (n.ownClasses s.self) (n'.ownClasses s'.self)) :
    μ.Reflects (fun _ _ => True) (checkKeys s n) (checkKeys s' n') := by
  unfold checkKeys
  refine forM_reflects once (μ.takes order) fun k _ => ?_
  rw [same]
  cases n.class? k with
  | none => exact .pure trivial
  | some c =>
      simp only [Option.map_some, Class.primaryKeys_relink, List.length_map]
      split
      · refine (names_reflects (headsAlike_of same) c.primaryKeys).bind ?_
        rintro _ names rfl
        exact report_reflects scopes _ (μ.relinked (.class k)) c.location
      · exact .pure trivial

theorem checkNames_reflects (className : String) (seen : List String) (ps : List Property) :
    μ.Reflects (fun _ _ => True) (checkNames s n className seen ps)
      (checkNames s' n' className seen (ps.map (Property.relink μ.key))) := by
  induction ps generalizing seen with
  | nil => exact .pure trivial
  | cons p ps ih =>
      rw [List.map_cons, checkNames, checkNames, Property.isAlias_relink]
      split
      · exact ih seen
      · refine (nameOf_reflects (headsAlike_of same) p).bind ?_
        rintro _ name rfl
        rw [Property.location_relink]
        split
        · refine (report_reflects scopes _ (μ.relinked (.property p)) p.location).bind ?_
          exact fun _ _ _ => ih _
        · exact ih _

theorem checkDuplicates_reflects (once : (n.ownClasses s.self).Nodup)
    (order : μ.order (n.ownClasses s.self) (n'.ownClasses s'.self)) :
    μ.Reflects (fun _ _ => True) (checkDuplicates s n) (checkDuplicates s' n') := by
  unfold checkDuplicates
  refine forM_reflects once (μ.takes order) fun k _ => ?_
  cases found : n.class? k with
  | none =>
      rw [same, found]
      exact .pure trivial
  | some c =>
      rw [same, found]
      refine (inheritedNames_reflects same found).bind ?_
      rintro _ names rfl
      exact checkNames_reflects scopes same c.name _ c.properties

end Checks

section Uses

/-- What is not missing of the used files is there. -/
theorem existingUses_missingUses (s : Scope) (n : Model) :
    existingUses s (missingUses n s) n =
      (n.uses s.self).filter fun use => s.dependencies.has use.name := by
  refine List.filter_congr fun use listed => ?_
  have absent : (missingUses n s).contains use = !s.dependencies.has use.name := by
    rw [List.contains_eq_mem, missingUses]
    simp [List.mem_filter, listed]
  rw [absent, Bool.not_not]

theorem missingUses_congr (uses : n'.uses s.self = n.uses s.self) :
    missingUses n' s = missingUses n s := by
  rw [missingUses, missingUses, uses]

/-- What is reported of the used files in which nothing was found. -/
def unusedReports (s : Scope) (missing : List Reference) (n : Model) (found : List String) : List Diagnostic :=
  (existingUses s missing n).flatMap fun (use : Reference) =>
    if found.contains use.name then []
    else [Finding.unusedUse.diagnostic s.self (.file s.self) use]

/-- What a loop that only reports adds. -/
theorem Adds.forM {γ : Type} {g : γ → Noting Unit} {ds : γ → List Diagnostic} {xs : List γ}
    (each : ∀ c ∈ xs, Adds (g c) () ⟨ds c, []⟩) : Adds (xs.forM g) () ⟨xs.flatMap ds, []⟩ := by
  induction xs with
  | nil => exact .pure ()
  | cons c xs ih =>
      obtain ⟨first, rest⟩ := List.forall_mem_cons.mp each
      have both := first.bind (f := fun _ => xs.forM g) (ih rest)
      exact both

theorem checkUnusedUses_run (s : Scope) (missing : List Reference) (n : Model) (notes : Notes) :
    (checkUnusedUses s missing n).run notes =
      .ok ((), notes + ⟨unusedReports s missing n notes.usedFiles, []⟩) := by
  have visit : Adds ((existingUses s missing n).forM fun use => do
      if !notes.usedFiles.contains use.name then report s .unusedUse (.file s.self) use) ()
      ⟨unusedReports s missing n notes.usedFiles, []⟩ := by
    refine .forM fun use _ => ?_
    cases notes.usedFiles.contains use.name with
    | false => exact report_adds s _ _ _
    | true => exact .pure ()
  exact visit notes

/-- What is reported of the used files that do not stand in order. -/
def orderReports (s : Scope) (missing : List Reference) (n : Model) : List Diagnostic :=
  let existing := existingUses s missing n
  (existing.zip (existing.mergeSort fun a b => a.name ≤ b.name)).flatMap
    fun (use, wanted) => if use.name != wanted.name then
      [Finding.unsortedUse.diagnostic s.self (.file s.self) use] else []

theorem checkUsesOrder_adds (s : Scope) (missing : List Reference) (n : Model) :
    Adds (checkUsesOrder s missing n) () ⟨orderReports s missing n, []⟩ := by
  refine .forM fun pair _ => ?_
  obtain ⟨use, wanted⟩ := pair
  dsimp only
  split
  · exact report_adds s _ _ _
  · exact .pure ()

theorem existingUses_mirrored (scopes : μ.Scopes s s') (uses : n'.uses s.self = n.uses s.self) :
    existingUses s' missing n' = existingUses s missing n := by
  rw [existingUses, existingUses, scopes.self, uses]

theorem checkUsesOrder_reflects (scopes : μ.Scopes s s') (uses : n'.uses s.self = n.uses s.self) :
    μ.Reflects (fun _ _ => True) (checkUsesOrder s missing n) (checkUsesOrder s' missing n') := by
  unfold checkUsesOrder
  rw [existingUses_mirrored scopes uses]
  refine .forM ?_
  rintro ⟨use, wanted⟩ -
  dsimp only
  split
  · rw [scopes.self]
    exact report_reflects scopes _ (μ.relinked (.file s.self)) _
  · exact .pure trivial

end Uses
end DataModel.Resolution
