import DataModel.Proofs.Resolution.Resolve

/-!
The known domains while a file is resolved. They are only looked up by their names, so resolving
does the same with any two tables that answer alike, in whatever order their domains stand.
-/
namespace DataModel
namespace Resolution
variable {s : Scope} {table : Table Key} {m : Model}

/-- The scope with other domains. -/
def Scope.knowing (s : Scope) (table : Table Key) : Scope := { s with domains := table }

/-- Domains play no part in the names of properties. -/
theorem checkNames_knowing (className : String) (seen : List String) (ps : List Property) :
    checkNames (s.knowing table) m className seen ps = checkNames s m className seen ps := by
  induction ps generalizing seen with
  | nil => rfl
  | cons p rest ih =>
      simp only [checkNames, ih]
      rfl

section Looking
variable (same : ∀ name, table.get? name = s.domains.get? name)
include same

theorem findDomain_knowing (subject : Subject) (r : Reference) :
    findDomain m (s.knowing table) subject r = findDomain m s subject r := by
  rw [findDomain, findDomain, ← same]
  rfl

theorem bindProperty_knowing (p : Property) :
    bindProperty m (s.knowing table) p = bindProperty m s p := by
  cases p <;> simp only [bindProperty, findDomain_knowing same] <;> rfl

theorem bindConverters_knowing : bindConverters (s.knowing table) m = bindConverters s m := by
  have found : ∀ subject, findDomain m (s.knowing table) subject = findDomain m s subject :=
    fun subject => funext fun r => findDomain_knowing same subject r
  simp only [bindConverters, found]
  rfl

theorem bind_knowing : bind (s.knowing table) m = bind s m := by
  have property : ∀ m, bindProperty m (s.knowing table) = bindProperty m s :=
    fun m => funext fun p => bindProperty_knowing same p
  have classes : bindClassProperties (s.knowing table) = bindClassProperties s := by
    funext m k c
    rw [bindClassProperties, property]
    rfl
  have endpoints : bindEndpointProperties (s.knowing table) = bindEndpointProperties s := by
    funext m e
    rw [bindEndpointProperties, property]
    rfl
  have converters : bindConverters (s.knowing table) = bindConverters s :=
    funext fun m => bindConverters_knowing same
  rw [bind, classes, endpoints, converters]
  rfl

theorem steps_knowing (allowCompositeKeys : Bool) :
    steps (s.knowing table) allowCompositeKeys m = steps s allowCompositeKeys m := by
  have bound : bind (s.knowing table) = bind s := funext fun m => bind_knowing same
  have uses : checkUses m (s.knowing table) = checkUses m s := rfl
  have collapsed : collapseAll (s.knowing table) = collapseAll s := rfl
  have expanded : expandAll (s.knowing table) = expandAll s := rfl
  have shared : shareAliases (s.knowing table) = shareAliases s := rfl
  have keys : checkKeys (s.knowing table) = checkKeys s := rfl
  have duplicates : checkDuplicates (s.knowing table) = checkDuplicates s := by
    funext m
    simp only [checkDuplicates, checkNames_knowing]
    rfl
  have unused : checkUnusedUses (s.knowing table) = checkUnusedUses s := rfl
  have order : checkUsesOrder (s.knowing table) = checkUsesOrder s := rfl
  rw [steps, uses, collapsed, bound, expanded, shared, keys, duplicates, unused, order]
  rfl

end Looking

end Resolution

/-- Resolving looks domains up by name only. -/
theorem Model.resolve_knowing {m : Model} {table domains : Table Key}
    (same : ∀ name, table.get? name = domains.get? name) (v : VersionId) (uses : List VersionId)
    (allowCompositeKeys : Bool) :
    m.resolve v uses table allowCompositeKeys = m.resolve v uses domains allowCompositeKeys := by
  have steps := Resolution.steps_knowing (s := .of m v uses domains) (m := m) same allowCompositeKeys
  rw [Model.resolve, Model.resolve, ← steps]
  rfl

end DataModel
