import DataModel.Proofs.Resolution.Stages
import DataModel.Proofs.Resolution.Targets

/-!
What a file offers once it is resolved: its own classes, unless one of its aliases lists their
names, and classes that the files it uses offer.
-/
namespace DataModel.Resolution
variable {s : Scope} {missing : List Reference} {m n n' : Model} {k l : Key}

section Loops

/-- What each re-export keeps, all of them keep. -/
theorem shareListed_invariant {I : Model → Prop} (a : FileAlias) (missing : Finding)
    {offered : Model → List Key} {name? : Model → Key → Option String}
    {share : Model → VersionId → Key → Model} (listed : List Reference) (start : I m)
    (each : ∀ n k r, I n → r ∈ listed → k ∈ offered n → name? n k = some r.name →
      I (share n s.self k)) :
    Gives (fun _ n => I n) (shareListed s a missing offered name? share listed m) := by
  unfold shareListed
  refine Gives.foldlM (I := fun _ _ n => I n) start fun before r after ds n whole holds => ?_
  cases found : (offered n).find? fun k => name? n k == some r.name with
  | none => exact (report_gives s _ _ _).bind fun _ _ _ => .pure holds
  | some k =>
      have named : name? n k = some r.name := by simpa using List.find?_some found
      have member : r ∈ listed := whole ▸ List.mem_append_right _ List.mem_cons_self
      exact .pure (each n k r holds member (List.mem_of_find?_eq_some found) named)

/-- A class that a file offers to the resolved one, which uses it. -/
def Provided (s : Scope) (m : Model) (k : Key) : Prop :=
  ∃ name d, s.dependencies.get? name = some d ∧ k ∈ m.classes d

/-- A class that is re-exported: a used file offers it, and an alias lists its name. -/
structure Reexports (s : Scope) (m n : Model) (k : Key) : Prop where
  listed : ∃ f, m.file? s.self = some f ∧ ∃ a ∈ f.aliases, ∃ r ∈ a.classes,
    className? n k = some r.name
  provided : Provided s n k

theorem shareAliases_invariant {I : Model → Prop} (start : I m)
    (classes : ∀ n k, I n → Reexports s m n k → I (shareClass n s.self k))
    (endpoints : ∀ n k, I n → I (shareEndpoint n s.self k)) :
    Gives (fun _ n => I n) (shareAliases s m) := by
  unfold shareAliases
  refine Gives.foldlM (I := fun _ _ n => I n) start fun before a after ds n whole holds => ?_
  unfold shareAlias
  cases source : s.dependencies.get? a.file.name with
  | none => exact (report_gives s _ _ _).bind fun _ _ _ => .pure holds
  | some d =>
      refine (markUsed_gives _).bind fun _ _ _ => ?_
      refine (shareListed_invariant a _ a.classes holds ?_).bind fun _ n₁ holds₁ => ?_
      · intro n k r holds member offered named
        refine classes n k holds ⟨?_, a.file.name, d, source, offered⟩
        cases file : m.file? s.self with
        | none =>
            rw [file] at whole
            cases before <;> cases whole
        | some f =>
            rw [file] at whole
            have inside : a ∈ f.aliases := by
              have here : a ∈ before ++ a :: after := List.mem_append_right _ List.mem_cons_self
              rwa [← whole] at here
            exact ⟨f, rfl, a, inside, r, member, named⟩
      · exact shareListed_invariant a _ a.endpoints holds₁ fun n k _ holds _ _ _ =>
          endpoints n k holds

end Loops

section Classes

/-- No alias of the resolved file lists the name of a class. -/
def Unlisted (s : Scope) (m : Model) (k : Key) : Prop :=
  ∀ f, m.file? s.self = some f → ∀ a ∈ f.aliases, ∀ r ∈ a.classes, className? m k ≠ some r.name

/-- A model on its way from another one while a file takes what it re-exports. -/
structure Takes (s : Scope) (m n : Model) : Prop where
  files : ∀ w, n.file? w = m.file? w
  others : ∀ w, w ≠ s.self → n.version? w = m.version? w
  own : ∀ k ∈ n.ownClasses s.self, k ∈ m.classes s.self
  offered : ∀ k ∈ n.classes s.self, k ∈ n.ownClasses s.self ∨ Provided s m k
  kept : ∀ k ∈ m.ownClasses s.self, Unlisted s m k → k ∈ n.ownClasses s.self

theorem classes_shareClass {v : VersionId} {ver : Version} (known : n.version? v = some ver) :
    (shareClass n v l).classes v = replaceOrAppend (className? n) l ver.classes := by
  rw [Model.classes, shareClass, Model.version?_modify_self, known]
  rfl

theorem mem_ownClasses_shareClass {v : VersionId} {ver : Version}
    (known : n.version? v = some ver) : k ∈ (shareClass n v l).ownClasses v ↔
      k ∈ replaceOrAppend (className? n) l ver.classes ∧ k ≠ l ∧ k ∉ ver.sharedClasses := by
  have own : (shareClass n v l).ownClasses v =
      (replaceOrAppend (className? n) l ver.classes).filter
        fun k => !(addIfNew l ver.sharedClasses).contains k := by
    rw [Model.ownClasses, shareClass, Model.version?_modify_self, known]
    rfl
  rw [own, List.mem_filter, Bool.not_eq_true', ← Bool.not_eq_true, List.contains_iff_mem,
    mem_addIfNew, not_or]

theorem mem_ownClasses {v : VersionId} {ver : Version} (known : n.version? v = some ver) :
    k ∈ n.ownClasses v ↔ k ∈ ver.classes ∧ k ∉ ver.sharedClasses := by
  have own : n.ownClasses v = ver.classes.filter fun k => !ver.sharedClasses.contains k := by
    rw [Model.ownClasses, known]
    rfl
  rw [own, List.mem_filter, Bool.not_eq_true', ← Bool.not_eq_true, List.contains_iff_mem]

theorem file?_shareClass (n : Model) {v : VersionId} (w : VersionId) (l : Key) :
    (shareClass n v l).file? w = n.file? w := file?_modify_of_same (fun _ => by rfl) w

theorem file?_shareEndpoint (n : Model) {v : VersionId} (w : VersionId) (l : Key) :
    (shareEndpoint n v l).file? w = n.file? w := file?_modify_of_same (fun _ => by rfl) w

/-- A class keeps its place unless one of its name takes it. -/
theorem mem_replaceOrAppend_other {name? : Key → Option String} (apart : name? k ≠ name? l)
    {cs : List Key} (there : k ∈ cs) : k ∈ replaceOrAppend name? l cs := by
  induction cs with
  | nil => cases there
  | cons e cs ih =>
      rw [replaceOrAppend]
      split
      · next same =>
        rcases List.mem_cons.mp there with rfl | later
        · exact absurd (beq_iff_eq.mp same) apart
        · exact List.mem_cons_of_mem _ later
      · rcases List.mem_cons.mp there with rfl | later
        · exact List.mem_cons_self
        · exact List.mem_cons_of_mem _ (ih later)

theorem Takes.start (offered : ∀ k ∈ m.classes s.self, k ∈ m.ownClasses s.self) :
    Takes s m m :=
  ⟨fun _ => rfl, fun _ _ => rfl, fun _ => Model.classes_of_own, fun k hk => .inl (offered k hk),
    fun _ own _ => own⟩

/-- While a file takes what it re-exports, the files it uses offer it nothing new. -/
theorem Takes.provided (takes : Takes s m n) (provided : Provided s n k) : Provided s m k := by
  obtain ⟨name, d, source, offered⟩ := provided
  by_cases here : d = s.self
  · rw [here] at offered source
    rcases takes.offered k offered with own | given
    · exact ⟨name, s.self, source, takes.own k own⟩
    · exact given
  · rw [Model.classes, takes.others d here] at offered
    exact ⟨name, d, source, offered⟩

theorem Takes.shareClass (takes : Takes s m n) (reexports : Reexports s m n l) :
    Takes s m (shareClass n s.self l) := by
  have provided := takes.provided reexports.provided
  refine ⟨fun w => ?_, fun w other => ?_, fun k own => ?_, fun k hk => ?_, fun k own unlisted => ?_⟩
  · exact (file?_shareClass n w l).trans (takes.files w)
  · exact (Model.version?_modify_other other).trans (takes.others w other)
  · cases known : n.version? s.self with
    | none =>
        rw [Model.ownClasses, Resolution.shareClass, Model.version?_modify_self, known] at own
        cases own
    | some ver =>
        obtain ⟨listed, apart, unshared⟩ := (mem_ownClasses_shareClass known).mp own
        refine takes.own k ((mem_ownClasses known).mpr ⟨?_, unshared⟩)
        exact (mem_replaceOrAppend listed).resolve_left apart
  · cases known : n.version? s.self with
    | none =>
        rw [Model.classes, Resolution.shareClass, Model.version?_modify_self, known] at hk
        cases hk
    | some ver =>
        rw [classes_shareClass known] at hk
        rw [mem_ownClasses_shareClass known]
        by_cases here : k = l
        · exact .inr (here ▸ provided)
        · have old := (mem_replaceOrAppend hk).resolve_left here
          rcases takes.offered k (by rw [Model.classes, known]; exact old) with own | given
          · exact .inl ⟨hk, here, ((mem_ownClasses known).mp own).2⟩
          · exact .inr given
  · have own' := takes.kept k own unlisted
    have names : className? n k = className? m k := by
      rw [className?, className?, class?_of_files takes.files]
    have other : className? n k ≠ className? n l := by
      obtain ⟨f, file, a, ha, r, hr, named⟩ := reexports.listed
      rw [named, names]
      exact unlisted f file a ha r hr
    cases known : n.version? s.self with
    | none =>
        rw [Model.ownClasses, known] at own'
        cases own'
    | some ver =>
        obtain ⟨listed, unshared⟩ := (mem_ownClasses known).mp own'
        refine (mem_ownClasses_shareClass known).mpr ⟨?_, ?_, unshared⟩
        · exact mem_replaceOrAppend_other other listed
        · rintro rfl
          exact other rfl

theorem Takes.shareEndpoint (takes : Takes s m n) (l : Key) :
    Takes s m (shareEndpoint n s.self l) := by
  have classes : (Resolution.shareEndpoint n s.self l).classes s.self = n.classes s.self := by
    rw [Model.classes, Resolution.shareEndpoint, Model.version?_modify_self, Option.map_map,
      Model.classes]
    rfl
  have own : (Resolution.shareEndpoint n s.self l).ownClasses s.self = n.ownClasses s.self := by
    rw [Model.ownClasses, Resolution.shareEndpoint, Model.version?_modify_self, Option.map_map,
      Model.ownClasses]
    rfl
  refine ⟨fun w => ?_, fun w other => ?_, ?_, ?_, ?_⟩
  · exact (file?_shareEndpoint n w l).trans (takes.files w)
  · exact (Model.version?_modify_other other).trans (takes.others w other)
  · rw [own]
    exact takes.own
  · rw [classes, own]
    exact takes.offered
  · rw [own]
    exact takes.kept

/-- Taking over entities changes no file. -/
theorem shareAliases_files (s : Scope) (m : Model) :
    Gives (fun _ n => ∀ w, n.file? w = m.file? w) (shareAliases s m) := by
  apply shareAliases_invariant (I := fun n => ∀ w, n.file? w = m.file? w) fun _ => rfl
  · exact fun n k files _ w => (file?_shareClass n w k).trans (files w)
  · exact fun n k files w => (file?_shareEndpoint n w k).trans (files w)

theorem shareAliases_takes (offered : ∀ k ∈ m.classes s.self, k ∈ m.ownClasses s.self) :
    Gives (fun _ n => Takes s m n) (shareAliases s m) :=
  shareAliases_invariant (.start offered) (fun _ _ takes => takes.shareClass)
    fun _ _ takes => takes.shareEndpoint _

end Classes

section Stages

theorem linking_aims {f : ModelFile} (fresh : m.version? s.self = some (.fresh s.self f))
    (declared : f.Declared) : Gives (fun _ n => Aims s m n) (linking s m) := by
  unfold linking
  rw [collapseAll_undone (undone_of_declared fresh declared), pure_bind]
  refine (checkUses_gives m s).bind fun _ _ _ => ?_
  refine (bind_aims (.start fresh declared.unlinked)).bind fun _ n bound => ?_
  exact expandAll_aims bound

/-- The own classes of a model have a single primary key, or none. -/
def HasPlainKeys (s : Scope) (m : Model) : Prop :=
  ∀ k ∈ m.ownClasses s.self, ∀ c, m.class? k = some c → c.primaryKeys.length ≤ 1

theorem checkKeys_plain : Gives (fun ds _ => Clean ds → HasPlainKeys s m) (checkKeys s m) := by
  unfold checkKeys
  refine Gives.forM fun k _ => ?_
  cases m.class? k with
  | none => exact .pure fun _ c found => by cases found
  | some c =>
      dsimp only
      split
      · refine (Gives.mapM (P := fun _ _ => True) (Q := fun _ _ => True) fun p _ =>
          (nameOf_gives m p).mono fun _ _ _ => ⟨trivial, fun _ => trivial⟩).bind fun _ _ _ => ?_
        refine (report_error rfl).mono fun ds _ reported clean => ?_
        exact absurd (clean_append.mp clean).2 reported
      · next few =>
        refine .pure fun _ c' found => ?_
        cases found
        exact Nat.le_of_not_lt few

theorem checking_plain (allowCompositeKeys : Bool) :
    Gives (fun ds _ => Clean ds → allowCompositeKeys = false → HasPlainKeys s m)
      (checking s missing allowCompositeKeys m) := by
  have rest : Gives (fun _ _ => True)
      (do checkDuplicates s m; checkUnusedUses s missing m; checkUsesOrder s missing m) := by
    refine (checkDuplicates_gives s m).bind fun _ _ _ => ?_
    exact (checkUnusedUses_gives s _ m).bind fun _ _ _ => checkUsesOrder_gives s _ m
  unfold checking
  cases allowCompositeKeys with
  | true => exact rest.mono fun _ _ _ _ no => nomatch no
  | false =>
      refine checkKeys_plain.bind fun _ _ plain => rest.mono fun _ _ _ clean _ => ?_
      exact plain (clean_append.mp clean).1

/-- What resolving a file that was just loaded makes of a model. -/
structure Outcome (s : Scope) (allowCompositeKeys : Bool) (m n : Model) (ds : List Diagnostic) :
    Prop where
  aims : Aims s m n
  offered : ∀ k ∈ n.classes s.self, k ∈ n.ownClasses s.self ∨ Provided s m k
  kept : ∀ k ∈ m.ownClasses s.self, Unlisted s m k → k ∈ n.ownClasses s.self
  plain : Clean ds → allowCompositeKeys = false → HasPlainKeys s n

theorem steps_outcome {f : ModelFile} (fresh : m.version? s.self = some (.fresh s.self f))
    (declared : f.Declared) (allowCompositeKeys : Bool) :
    Gives (fun ds n => Outcome s allowCompositeKeys m n ds) (steps s allowCompositeKeys m) := by
  have home := Model.homed_of_fresh fresh
  rw [steps_eq]
  refine ((linking_aims fresh declared).and (linking_rebinds home)).bind fun _ n linked => ?_
  obtain ⟨aims, rebinds⟩ := linked
  have offered : ∀ k ∈ n.classes s.self, k ∈ n.ownClasses s.self := by
    rw [rebinds.classes, rebinds.ownClasses, Model.ownClasses_of_fresh fresh]
    exact fun k hk => hk
  refine (shareAliases_takes offered).bind fun _ n' takes => ?_
  refine (checking_plain allowCompositeKeys).bind fun _ _ plain => .pure ⟨?_, ?_, ?_, ?_⟩
  · exact aims.same (class?_of_files takes.files) (endpoint?_of_files takes.files)
  · intro k hk
    refine (takes.offered k hk).imp_right ?_
    rintro ⟨name, d, source, listed⟩
    by_cases here : d = s.self
    · rw [here, rebinds.classes, ← here] at listed
      exact ⟨name, d, source, listed⟩
    · rw [Model.classes, rebinds.others here] at listed
      exact ⟨name, d, source, listed⟩
  · intro k own unlisted
    refine takes.kept k (rebinds.ownClasses ▸ own) fun f' known a ha r hr => ?_
    obtain ⟨f₀, known₀, same⟩ := rebinds.evolves.keepsShape.symm.aliases known
    rw [className?, rebinds.evolves.keepsShape.className]
    exact unlisted f₀ known₀ a (same ▸ ha) r hr
  · intro clean
    simp only [clean_append] at clean
    exact plain clean.2.2.1

end Stages
end DataModel.Resolution

namespace DataModel.Model
open Resolution
variable {m n : Model} {v : VersionId} {f : ModelFile} {dependencies : List VersionId}
  {domains : Table Key} {allowCompositeKeys : Bool} {ds : List Diagnostic}

theorem resolve_outcome (fresh : m.version? v = some (.fresh v f)) (declared : f.Declared)
    (done : m.resolve v dependencies domains allowCompositeKeys = .ok (ds, n)) :
    Resolution.Outcome (.of m v dependencies domains) allowCompositeKeys m n ds :=
  resolve_gives (steps_outcome fresh declared allowCompositeKeys) done

end DataModel.Model
