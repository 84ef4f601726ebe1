import DataModel.Proofs.Resolution.Stages

/-!
What each step of resolving can report, and under which codes. Binding reports what is not there and
targets without a single key, sharing what a file alias does not find, and the checks what is
ambiguous or untidy; only expanding misses a property.
-/
namespace DataModel.Resolution
variable {s : Scope} {missing : List Reference} {m n : Model}

/-- An action that adds only diagnostics with a property. -/
def Only {α : Type} (P : Diagnostic → Prop) (x : Noting α) : Prop :=
  Gives (fun ds _ => ∀ d ∈ ds, P d) x

namespace Only
variable {α β γ : Type} {P : Diagnostic → Prop} {x : Noting α} {f : α → Noting β}

theorem pure (a : α) : Only P (Pure.pure a) :=
  Gives.pure fun _ none => absurd none List.not_mem_nil

theorem of_quiet {Q : List Diagnostic → α → Prop} (h : Gives Q x)
    (quiet : ∀ ds a, Q ds a → ds = []) : Only P x := by
  refine Gives.mono h fun ds a holds => ?_
  rw [quiet ds a holds]
  exact fun _ none => absurd none List.not_mem_nil

theorem mono {Q : Diagnostic → Prop} (h : Only P x) (weaker : ∀ d, P d → Q d) : Only Q x :=
  Gives.mono h fun _ _ all d hd => weaker d (all d hd)

/-- What follows has to keep to it for the results that can be given. -/
theorem bind {Q : List Diagnostic → α → Prop} (h : Only P x) (gives : Gives Q x)
    (next : ∀ ds a, Q ds a → Only P (f a)) : Only P (x >>= f) := by
  refine Gives.bind (Gives.and h gives) fun ds a holds => ?_
  refine Gives.mono (next ds a holds.2) fun ds' b all => ?_
  exact List.forall_mem_append.mpr ⟨holds.1, all⟩

theorem andThen (h : Only P x) (next : ∀ a, Only P (f a)) : Only P (x >>= f) :=
  h.bind h fun _ a _ => next a

theorem mapM {g : γ → Noting β} {xs : List γ} (each : ∀ c ∈ xs, Only P (g c)) :
    Only P (xs.mapM g) := by
  induction xs with
  | nil => exact pure []
  | cons c xs ih =>
      rw [List.mapM_cons]
      refine (each c List.mem_cons_self).andThen fun b => ?_
      exact (ih fun c' hc' => each c' (List.mem_cons_of_mem c hc')).andThen fun bs => pure (b :: bs)

theorem option {g : γ → Noting β} (each : ∀ c, Only P (g c)) (o : Option γ) :
    Only P (o.mapM g) := by
  cases o with
  | none => exact pure none
  | some c =>
      rw [Option.mapM_some, map_eq_pure_bind]
      exact (each c).andThen fun b => pure (some b)

theorem forM {g : γ → Noting Unit} {xs : List γ} (each : ∀ c ∈ xs, Only P (g c)) :
    Only P (xs.forM g) := by
  induction xs with
  | nil => exact pure ()
  | cons c xs ih =>
      exact (each c List.mem_cons_self).andThen fun _ =>
        ih fun c' hc' => each c' (List.mem_cons_of_mem c hc')

/-- A loop keeps to it if its steps do, as long as they keep what lets them. -/
theorem foldlM {I : α → Prop} {g : α → γ → Noting α} {xs : List γ} {a : α} (start : I a)
    (each : ∀ b, I b → ∀ c ∈ xs, Only P (g b c))
    (keeps : ∀ b, I b → ∀ c ∈ xs, Gives (fun _ b' => I b') (g b c)) : Only P (xs.foldlM g a) := by
  induction xs generalizing a with
  | nil => exact pure a
  | cons c xs ih =>
      rw [List.foldlM_cons]
      have first := List.mem_cons_self (a := c) (l := xs)
      refine (each a start c first).bind (keeps a start c first) fun _ b holds => ?_
      exact ih holds (fun b' held c' hc' => each b' held c' (List.mem_cons_of_mem c hc'))
        fun b' held c' hc' => keeps b' held c' (List.mem_cons_of_mem c hc')

theorem loop {g : α → γ → Noting α} {xs : List γ} {a : α} (each : ∀ b, ∀ c ∈ xs, Only P (g b c)) :
    Only P (xs.foldlM g a) :=
  foldlM (I := fun _ => True) trivial (fun b _ => each b) fun b _ c hc =>
    Gives.mono (each b c hc) fun _ _ _ => trivial

end Only

/-- An action that adds no diagnostic but those of some codes. -/
def Reports {α : Type} (codes : List Code) (x : Noting α) : Prop :=
  Gives (fun ds _ => ∀ d ∈ ds, d.code ∈ codes) x

namespace Reports
variable {α β : Type} {codes : List Code} {x : Noting α} {f : α → Noting β}

theorem pure (a : α) : Reports codes (Pure.pure a) := Only.pure a

theorem mono {more : List Code} (h : Reports codes x) (wider : codes ⊆ more) : Reports more x :=
  Only.mono h fun _ listed => wider listed

theorem andThen (h : Reports codes x) (next : ∀ a, Reports codes (f a)) :
    Reports codes (x >>= f) := Only.andThen h next

end Reports

section Lookups
variable {P : Diagnostic → Prop} {codes : List Code}

theorem report_only {f : Finding} {t : Subject} {r : Option Reference}
    (tells : P (f.diagnostic s.self t r)) : Only P (report s f t r) := by
  refine (report_gives s f t r).mono ?_
  rintro _ _ rfl
  exact List.forall_mem_singleton.mpr tells

theorem markUsed_only (file : String) : Only P (markUsed file) :=
  .of_quiet (markUsed_gives file) fun _ _ => id

theorem nameOf_only (m : Model) (p : Property) : Only P (nameOf m p) :=
  .of_quiet (nameOf_gives m p) fun _ _ found => found.1

theorem findOffer_only {offers : Table Offer} {missing : Finding} {t : Subject} {r : Reference}
    (tells : offers.get? r.name = none → P (missing.diagnostic s.self t (some r))) :
    Only P (findOffer s offers missing t r) := by
  unfold findOffer
  cases found : offers.get? r.name with
  | none => exact (report_only (tells found)).andThen fun _ => .pure none
  | some o => exact (markUsed_only o.file).andThen fun _ => .pure (some o.key)

theorem findDomain_only {t : Subject} {r : Reference}
    (tells : s.domains.get? r.name = none →
      P (Finding.missingDomain.diagnostic s.self t (some r))) : Only P (findDomain m s t r) := by
  unfold findDomain
  cases found : s.domains.get? r.name with
  | none => exact (report_only (tells found)).andThen fun _ => .pure none
  | some k => exact (markUsed_only (m.fileName k.version)).andThen fun _ => .pure (some k)

end Lookups

section Binding
variable {P : Diagnostic → Prop}

theorem forOwnClasses_only {f : Model → Key → Class → Noting Class}
    (each : ∀ n k c, Only P (f n k c)) (m : Model) : Only P (forOwnClasses s f m) := by
  unfold forOwnClasses
  refine .loop fun n k _ => ?_
  cases n.class? k with
  | none => exact .pure n
  | some c => exact (each n k c).andThen fun _ => .pure _

theorem forOwnEndpoints_only {f : Model → Endpoint → Noting Endpoint}
    (each : ∀ n e, Only P (f n e)) (m : Model) : Only P (forOwnEndpoints s f m) := by
  unfold forOwnEndpoints
  refine .loop fun n k _ => ?_
  cases n.endpoint? k with
  | none => exact .pure n
  | some e => exact (each n e).andThen fun _ => .pure _

theorem checkUses_only (tells : ∀ r ∈ m.uses s.self, s.dependencies.has r.name = false →
      P (Finding.missingFile.diagnostic s.self (.file s.self) (some r))) :
    Only P (checkUses m s) := by
  refine .forM fun use member => ?_
  obtain ⟨listed, absent⟩ := List.mem_filter.mp member
  exact report_only (tells use listed (by simpa using absent))

theorem collapseAll_only (m : Model) : Only P (collapseAll s m) :=
  (forOwnClasses_only (fun _ _ _ => .pure _) m).andThen
    fun n => forOwnEndpoints_only (fun _ _ => .pure _) n

/-- What binding tells has a property: what is not there, and what has no single key. -/
structure BindingTells (s : Scope) (P : Diagnostic → Prop) : Prop where
  classes : ∀ t r, s.classes.get? r.name = none →
    P (Finding.missingClass.diagnostic s.self t (some r))
  decorators : ∀ t r, s.decorators.get? r.name = none →
    P (Finding.missingDecorator.diagnostic s.self t (some r))
  domains : ∀ t r, s.domains.get? r.name = none →
    P (Finding.missingDomain.diagnostic s.self t (some r))
  keys : ∀ a : Association,
    P (Finding.associationKey.diagnostic s.self (.property (.association a)) (some a.reference))

theorem bindTarget_only (tells : BindingTells s P) (n : Model) (a : Association) :
    Only P (bindTarget n s a) := by
  unfold bindTarget
  refine (findOffer_only (tells.classes _ a.reference)).andThen fun found => ?_
  cases found with
  | none => exact .pure _
  | some k =>
      dsimp only
      split
      · exact .pure _
      · exact (report_only (tells.keys { a with target := none })).andThen fun _ => .pure _

theorem bindProperty_only (tells : BindingTells s P) (n : Model) (p : Property) :
    Only P (bindProperty n s p) := by
  have domain : ∀ t r, Only P (findDomain n s t r) := fun t r =>
    findDomain_only (tells.domains t r)
  cases p with
  | regular p => exact (domain _ _).andThen fun _ => .pure _
  | association a => exact (bindTarget_only tells n a).andThen fun _ => .pure _
  | composition c =>
      refine (findOffer_only (tells.classes _ c.reference)).andThen fun target => ?_
      cases c.domainKindReference with
      | none => exact .pure _
      | some r => exact (domain _ r).andThen fun _ => .pure _
  | «alias» a =>
      simp only [bindProperty]
      cases a.listDomainReference with
      | none => exact .pure _
      | some r => exact (domain _ r).andThen fun _ => .pure _

theorem bindParent_only (tells : BindingTells s P) (n : Model) (k : Key) (c : Class) :
    Only P (bindParent s n k c) := by
  unfold bindParent
  cases c.parentReference with
  | none => exact .pure c
  | some r => exact (findOffer_only (tells.classes _ r)).andThen fun _ => .pure _

theorem bindDecorators_only (tells : BindingTells s P) (n : Model) (k : Key) (c : Class) :
    Only P (bindDecorators s n k c) :=
  (Only.mapM fun r _ => findOffer_only (tells.decorators _ r)).andThen fun _ => .pure _

theorem bindClassProperties_only (tells : BindingTells s P) (n : Model) (k : Key) (c : Class) :
    Only P (bindClassProperties s n k c) :=
  (Only.mapM fun p _ => bindProperty_only tells n p).andThen fun _ => .pure _

theorem bindEndpointProperties_only (tells : BindingTells s P) (n : Model) (e : Endpoint) :
    Only P (bindEndpointProperties s n e) :=
  (Only.mapM fun p _ => bindProperty_only tells n p).andThen fun _ =>
    (Only.option (bindProperty_only tells n) e.returns).andThen fun _ => .pure _

theorem bindConverters_only (tells : BindingTells s P) (n : Model) :
    Only P (bindConverters s n) := by
  unfold bindConverters
  refine (Only.mapM fun _ _ => (Only.mapM fun _ _ => ?_).andThen fun _ => .pure _).andThen
    fun _ => .pure _
  exact (Only.mapM fun r _ => findDomain_only (tells.domains _ r)).andThen fun _ => .pure _

theorem bind_only (tells : BindingTells s P) (m : Model) : Only P (bind s m) := by
  unfold bind
  refine (forOwnClasses_only (bindParent_only tells) m).andThen fun m₁ => ?_
  refine (forOwnClasses_only (bindDecorators_only tells) m₁).andThen fun m₂ => ?_
  refine (forOwnClasses_only (bindClassProperties_only tells) m₂).andThen fun m₃ => ?_
  refine (forOwnEndpoints_only (bindEndpointProperties_only tells) m₃).andThen fun m₄ => ?_
  exact bindConverters_only tells m₄

theorem checkUses_reports (m : Model) (s : Scope) : Reports [.missingFile] (checkUses m s) :=
  checkUses_only fun _ _ _ => List.mem_singleton_self _

/-- What binding can find. -/
def bindingCodes : List Code := [.missingClass, .missingDecorator, .missingDomain, .associationKey]

theorem bind_reports (s : Scope) (m : Model) : Reports bindingCodes (bind s m) := by
  refine bind_only ⟨fun _ _ _ => ?_, fun _ _ _ => ?_, fun _ _ _ => ?_, fun _ => ?_⟩ m
  all_goals simp [bindingCodes, Finding.diagnostic, Finding.code]

end Binding

section Expansion
variable {P : Diagnostic → Prop}

theorem select_only {a : Placeholder} {className : String} {ps : List (String × Property)}
    (tells : ∀ r ∈ a.included ++ a.excluded,
      P ((Finding.missingProperty className).diagnostic s.self (.property (.alias a)) (some r))) :
    Only P (select s a className ps) := by
  unfold select
  extract_lets missing
  have told : Only P (missing.forM fun r =>
      report s (.missingProperty className) (.property (.alias a)) (some r)) :=
    .forM fun r member => report_only (tells r (List.mem_of_mem_filter member))
  refine told.andThen fun _ => ?_
  split
  · exact .pure none
  · split
    · exact .pure _
    · exact .pure _

/-- What expanding an alias tells has a property: that its class is not there, or that the class
does not have a name that is listed. -/
structure CopyingTells (s : Scope) (m : Model) (a : Placeholder) (P : Diagnostic → Prop) :
    Prop where
  classes : s.classes.get? a.reference.name = none →
    P (Finding.missingClass.diagnostic s.self (.property (.alias a)) (some a.reference))
  properties : ∀ o c, s.classes.get? a.reference.name = some o → m.class? o.key = some c →
    ∀ r ∈ a.included ++ a.excluded,
      P ((Finding.missingProperty c.name).diagnostic s.self (.property (.alias a)) (some r))

theorem copies_only {a : Placeholder} (tells : CopyingTells s m a P) : Only P (copies s m a) := by
  unfold copies
  refine (findOffer_only tells.classes).bind (findClass_gives s _ a.reference) ?_
  rintro _ _ ⟨rfl, -⟩
  cases found : s.classes.get? a.reference.name with
  | none => exact .pure none
  | some o =>
      rw [Option.map_some, Option.bind_some]
      cases there : m.class? o.key with
      | none => exact .pure none
      | some c =>
          refine (Only.mapM fun p _ => (nameOf_only m p).andThen fun _ => .pure _).andThen
            fun qs => ?_
          exact (select_only (tells.properties o c found there)).andThen fun _ => .pure _

theorem expandAll_only {I : Model → Prop} (start : I m)
    (tells : ∀ n, I n → ∀ a, CopyingTells s n a P)
    (keeps : ∀ n, I n → ∀ site a new, I (Site.put n a new site)) : Only P (expandAll s m) := by
  unfold expandAll
  refine .foldlM (I := I) start (fun n held x _ => ?_) fun n held x _ => ?_
  · refine (copies_only (tells n held x.2)).andThen fun new => ?_
    cases new <;> exact .pure _
  · refine Gives.bind (copies_only (tells n held x.2)) fun _ new _ => ?_
    cases new with
    | none => exact .pure held
    | some new => exact .pure (keeps n held x.1 x.2 new)

/-- What expanding can find. -/
def expandingCodes : List Code := [.missingClass, .missingProperty]

theorem select_reports (s : Scope) (a : Placeholder) (className : String)
    (ps : List (String × Property)) : Reports [.missingProperty] (select s a className ps) :=
  select_only fun _ _ => List.mem_singleton_self _

theorem expandAll_reports (s : Scope) (m : Model) : Reports expandingCodes (expandAll s m) :=
  expandAll_only (I := fun _ => True) trivial
    (fun _ _ _ => ⟨fun _ => .head _, fun _ _ _ _ _ _ => .tail _ (.head _)⟩) fun _ _ _ _ _ => trivial

end Expansion

section Sharing
variable {P : Diagnostic → Prop}

theorem shareListed_only {a : FileAlias} {missing : Finding} {rs : List Reference}
    (tells : ∀ r ∈ rs, P (missing.diagnostic s.self (.fileAlias a) (some r)))
    (offered : Model → List Key) (name? : Model → Key → Option String)
    (share : Model → VersionId → Key → Model) (m : Model) :
    Only P (shareListed s a missing offered name? share rs m) := by
  refine .loop fun n r listed => ?_
  split
  · exact .pure _
  · exact (report_only (tells r listed)).andThen fun _ => .pure _

/-- What taking over the entities of other files tells has a property: that the file is not there,
or that it does not have what is listed. -/
structure SharingTells (s : Scope) (m : Model) (a : FileAlias) (P : Diagnostic → Prop) : Prop where
  files : s.dependencies.get? a.file.name = none →
    P (Finding.missingAliasFile.diagnostic s.self (.fileAlias a) (some a.file))
  classes : ∀ d, s.dependencies.get? a.file.name = some d → ∀ r ∈ a.classes,
    P ((Finding.classNotInFile (m.fileName d)).diagnostic s.self (.fileAlias a) (some r))
  endpoints : ∀ d, s.dependencies.get? a.file.name = some d → ∀ r ∈ a.endpoints,
    P ((Finding.endpointNotInFile (m.fileName d)).diagnostic s.self (.fileAlias a) (some r))

theorem shareAlias_only {a : FileAlias} (tells : SharingTells s m a P) :
    Only P (shareAlias s m a) := by
  unfold shareAlias
  cases found : s.dependencies.get? a.file.name with
  | none => exact (report_only (tells.files found)).andThen fun _ => .pure _
  | some d =>
      refine (markUsed_only (m.fileName d)).andThen fun _ => ?_
      refine (shareListed_only (tells.classes d found) _ _ _ m).andThen fun n => ?_
      exact shareListed_only (tells.endpoints d found) _ _ _ n

/-- What taking over the entities of other files can find. -/
def sharingCodes : List Code := [.missingFile, .missingClass, .missingEndpoint]

theorem shareAliases_reports (s : Scope) (m : Model) : Reports sharingCodes (shareAliases s m) :=
  Only.loop fun _ _ _ => shareAlias_only
    ⟨fun _ => .head _, fun _ _ _ _ => .tail _ (.head _), fun _ _ _ _ => .tail _ (.tail _ (.head _))⟩

end Sharing

section Checking
variable {P : Diagnostic → Prop}

theorem checkKeys_only (tells : ∀ k ∈ m.ownClasses s.self, ∀ c, m.class? k = some c →
      1 < c.primaryKeys.length → ∀ names, c.primaryKeys.map m.propertyName? = names.map some →
        P ((Finding.compositeKey c.name names).diagnostic s.self (.class k) c.location)) :
    Only P (checkKeys s m) := by
  refine .forM fun k own => ?_
  cases found : m.class? k with
  | none => exact .pure ()
  | some c =>
      dsimp only
      split
      · next many =>
        have names : Gives (fun _ names => c.primaryKeys.map m.propertyName? = names.map some)
            (c.primaryKeys.mapM (nameOf m)) := by
          refine (Gives.mapM (P := fun p name => some name = m.propertyName? p)
            (Q := fun _ _ => True) fun p _ => (nameOf_gives m p).mono fun _ _ known => ?_).mono ?_
          · exact ⟨known.2.symm, fun _ => trivial⟩
          · exact fun _ _ all => (map_of_forall₂ all.1).symm
        refine (Only.mapM fun p _ => nameOf_only m p).bind names fun _ names named => ?_
        exact report_only (tells k own c found many names named)
      · exact .pure ()

theorem checkNames_only {className : String} {ps : List Property}
    (tells : ∀ p ∈ ps, ∀ name, m.propertyName? p = some name →
      P ((Finding.duplicateProperty name className).diagnostic s.self (.property p) p.location))
    (seen : List String) : Only P (checkNames s m className seen ps) := by
  induction ps generalizing seen with
  | nil => exact .pure ()
  | cons p ps ih =>
      obtain ⟨here, later⟩ := List.forall_mem_cons.mp tells
      unfold checkNames
      split
      · exact ih later seen
      · refine (nameOf_only m p).bind (nameOf_gives m p) fun _ name named => ?_
        dsimp only
        split
        · exact (report_only (here name named.2)).andThen fun _ => ih later _
        · exact ih later _

theorem checkDuplicates_only (tells : ∀ k ∈ m.ownClasses s.self, ∀ c, m.class? k = some c →
      ∀ p ∈ c.properties, ∀ name, m.propertyName? p = some name →
        P ((Finding.duplicateProperty name c.name).diagnostic s.self (.property p) p.location)) :
    Only P (checkDuplicates s m) := by
  refine .forM fun k own => ?_
  cases found : m.class? k with
  | none => exact .pure ()
  | some c =>
      exact (Only.mapM fun p _ => nameOf_only m p).andThen fun names =>
        checkNames_only (tells k own c found) names

theorem checkUnusedUses_only (tells : ∀ r ∈ existingUses s missing m,
      P (Finding.unusedUse.diagnostic s.self (.file s.self) (some r))) :
    Only P (checkUnusedUses s missing m) := by
  refine (Only.of_quiet get_gives fun _ _ => id).andThen fun notes => .forM fun use member => ?_
  split
  · exact report_only (tells use member)
  · exact .pure ()

theorem checkUsesOrder_only (tells : ∀ r ∈ existingUses s missing m,
      P (Finding.unsortedUse.diagnostic s.self (.file s.self) (some r))) :
    Only P (checkUsesOrder s missing m) := by
  refine .forM fun pair member => ?_
  dsimp only
  split
  · exact report_only (tells pair.1 (List.of_mem_zip member).1)
  · exact .pure ()

/-- What the checks can find. -/
def checkingCodes : List Code := [.compositeKey, .duplicateProperty, .unusedUse, .unsortedUse]

theorem checkKeys_reports (s : Scope) (m : Model) : Reports [.compositeKey] (checkKeys s m) :=
  checkKeys_only fun _ _ _ _ _ _ _ => List.mem_singleton_self _

theorem checkDuplicates_reports (s : Scope) (m : Model) :
    Reports [.duplicateProperty] (checkDuplicates s m) :=
  checkDuplicates_only fun _ _ _ _ _ _ _ _ => List.mem_singleton_self _

theorem checkUnusedUses_reports (s : Scope) (missing : List Reference) (m : Model) :
    Reports [.unusedUse] (checkUnusedUses s missing m) :=
  checkUnusedUses_only fun _ _ => List.mem_singleton_self _

theorem checkUsesOrder_reports (s : Scope) (missing : List Reference) (m : Model) :
    Reports [.unsortedUse] (checkUsesOrder s missing m) :=
  checkUsesOrder_only fun _ _ => List.mem_singleton_self _

theorem checkingClasses_reports (s : Scope) (allowCompositeKeys : Bool) (m : Model) :
    Reports [.compositeKey, .duplicateProperty] (checkingClasses s allowCompositeKeys m) := by
  have duplicates := (checkDuplicates_reports s m).mono (List.subset_cons_self .compositeKey _)
  cases allowCompositeKeys with
  | true => exact duplicates
  | false => exact ((checkKeys_reports s m).mono (by simp)).andThen fun _ => duplicates

theorem checking_reports (s : Scope) (allowCompositeKeys : Bool) (m : Model) :
    Reports checkingCodes (checking s missing allowCompositeKeys m) := by
  rw [checking_eq]
  refine ((checkingClasses_reports s allowCompositeKeys m).mono (by decide)).andThen fun _ => ?_
  refine ((checkUnusedUses_reports s _ m).mono (by decide)).andThen fun _ => ?_
  exact (checkUsesOrder_reports s _ m).mono (by decide)

end Checking
end DataModel.Resolution
