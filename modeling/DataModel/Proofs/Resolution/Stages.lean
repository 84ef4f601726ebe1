import DataModel.Proofs.Resolution.MirroredChecks
import DataModel.Proofs.Resolution.Sharing

/-!
The stages of resolving a file. First its own entities are linked, then it takes what it
re-exports, and at last the result is checked. A second run of a stage can begin where the second
run of the stage before it ended, which may be known only after the first run is through; hence
the stages are put together run by run.
-/
namespace DataModel.Resolution
variable {μ : Mirror} {s s' : Scope} {missing : List Reference} {m n n' : Model}

section Stages

/-- What names of files mean are the files given. -/
theorem source_of {v : VersionId} {dependencies : List VersionId} {domains : Table Key}
    {name : String} {d : VersionId}
    (found : (Scope.of m v dependencies domains).dependencies.get? name = some d) :
    d ∈ dependencies := by
  obtain ⟨w, member, source⟩ := List.mem_map.mp (Table.mem_of_get?_ofList found)
  cases source
  exact member

/-- The steps that change own entities. -/
def linking (s : Scope) (m : Model) : Noting Model := do
  checkUses m s
  let m ← collapseAll s m
  let m ← bind s m
  expandAll s m

/-- The steps that change nothing. -/
def checking (s : Scope) (missing : List Reference) (allowCompositeKeys : Bool) (m : Model) :
    Noting Unit := do
  if !allowCompositeKeys then checkKeys s m
  checkDuplicates s m
  checkUnusedUses s missing m
  checkUsesOrder s missing m

theorem steps_eq (s : Scope) (allowCompositeKeys : Bool) (m : Model) :
    steps s allowCompositeKeys m = linking s m >>= fun m₁ => shareAliases s m₁ >>= fun n =>
      checking s (missingUses m s) allowCompositeKeys n >>= fun _ => pure n := by
  unfold steps linking checking
  cases allowCompositeKeys <;> simp

/-- The checks of what classes hold. -/
def checkingClasses (s : Scope) (allowCompositeKeys : Bool) (m : Model) : Noting Unit := do
  if !allowCompositeKeys then checkKeys s m
  checkDuplicates s m

theorem checking_eq (s : Scope) (missing : List Reference) (allowCompositeKeys : Bool)
    (m : Model) :
    checking s missing allowCompositeKeys m = checkingClasses s allowCompositeKeys m >>= fun _ =>
      checkUnusedUses s missing m >>= fun _ => checkUsesOrder s missing m := by
  unfold checking checkingClasses
  cases allowCompositeKeys <;> simp

theorem linking_rebinds (home : m.Homed s.self) :
    Gives (fun _ n => Model.Rebinds s.self m n) (linking s m) := by
  refine (checkUses_gives m s).bind fun _ _ _ => ?_
  refine (collapseAll_gives home).bind fun _ m₁ first => ?_
  refine (bind_gives (first.homed home)).bind fun _ m₂ second => ?_
  have toSecond := first.trans second.1
  exact (expandAll_gives (toSecond.homed home)).mono fun _ n third => toSecond.trans third.1

end Stages

section Checking

theorem unusedReports_compare (scopes : μ.Scopes s s') (uses : n'.uses s.self = n.uses s.self)
    (missing : List Reference) {found found' : List String} (same : ∀ file, found'.contains file = found.contains file) :
    μ.notes ⟨unusedReports s missing n found, []⟩ ⟨unusedReports s' missing n' found', []⟩ := by
  rw [unusedReports, unusedReports, existingUses_mirrored scopes uses, scopes.self]
  simp only [same]
  generalize existingUses s missing n = existing
  induction existing with
  | nil => exact μ.zero
  | cons use existing ih =>
      have reported := μ.report .unusedUse s.self use (μ.relinked (.file s.self))
      rw [List.flatMap_cons]
      cases found.contains use.name with
      | false => exact μ.add reported ih
      | true => exact ih

/-- Checking two models with the same classes, linked in the same way. -/
theorem checking_run (scopes : μ.Scopes s s')
    (same : ∀ k, n'.class? (μ.key k) = (n.class? k).map (Class.relink μ.key))
    (once : (n.ownClasses s.self).Nodup)
    (order : μ.order (n.ownClasses s.self) (n'.ownClasses s'.self))
    (uses : n'.uses s.self = n.uses s.self) {allowCompositeKeys : Bool}
    {first first' last : Notes} (compare : μ.notes first first')
    (done : (checking s missing allowCompositeKeys n).run first = .ok ((), last)) :
    ∃ last', (checking s' missing allowCompositeKeys n').run first' = .ok ((), last') ∧
      μ.notes last last' := by
  have classes : μ.Reflects (fun _ _ => True) (checkingClasses s allowCompositeKeys n)
      (checkingClasses s' allowCompositeKeys n') := by
    have duplicates := checkDuplicates_reflects scopes same once order
    cases allowCompositeKeys with
    | true => exact duplicates
    | false => exact (checkKeys_reflects scopes same once order).bind fun _ _ _ => duplicates
  rw [checking_eq] at done ⊢
  obtain ⟨_, last₁, run₁, done⟩ := run_bind done
  obtain ⟨_, last₁', run₁', -, compare₁⟩ := classes.run compare run₁
  obtain ⟨_, last₂, run₂, done⟩ := run_bind done
  rw [checkUnusedUses_run] at run₂
  cases run₂
  have compare₂ := μ.add compare₁ (unusedReports_compare scopes uses missing (μ.files compare₁))
  obtain ⟨_, last', run₃', -, compare₃⟩ := (checkUsesOrder_reflects scopes uses).run compare₂ done
  refine ⟨last', ?_, compare₃⟩
  rw [run_then run₁', run_then (checkUnusedUses_run s' _ n' last₁'), run₃']

end Checking
end DataModel.Resolution
