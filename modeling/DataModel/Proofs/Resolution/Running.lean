import DataModel.Proofs.Resolution.Offering

/-!
Resolving runs through. Nothing but an endless name can stop it, so where every name is known all
steps come to their end and leave their diagnostics.
-/
namespace DataModel.Resolution
variable {s : Scope} {m n : Model}

/-- An action that comes to its end, wherever it begins. -/
def Runs {α : Type} (x : Noting α) : Prop := ∀ first, ∃ r, x.run first = .ok r

namespace Runs
variable {α β γ : Type} {x : Noting α} {f : α → Noting β}

theorem pure (a : α) : Runs (Pure.pure a) := fun first => ⟨(a, first), rfl⟩

/-- What follows has to run through for the results that can be given. -/
theorem bind {P : List Diagnostic → α → Prop} (h : Runs x) (gives : Gives P x)
    (next : ∀ ds a, P ds a → Runs (f a)) : Runs (x >>= f) := by
  intro first
  obtain ⟨⟨a, last⟩, begun⟩ := h first
  obtain ⟨ds, -, holds⟩ := gives first a last begun
  rw [run_then begun]
  exact next ds a holds last

theorem andThen (h : Runs x) (next : ∀ a, Runs (f a)) : Runs (x >>= f) := by
  intro first
  obtain ⟨⟨a, last⟩, begun⟩ := h first
  rw [run_then begun]
  exact next a last

theorem mapM {g : γ → Noting β} {xs : List γ} (each : ∀ c ∈ xs, Runs (g c)) :
    Runs (xs.mapM g) := by
  induction xs with
  | nil => exact pure []
  | cons c xs ih =>
      rw [List.mapM_cons]
      refine (each c List.mem_cons_self).andThen fun b => ?_
      exact (ih fun c' hc' => each c' (List.mem_cons_of_mem c hc')).andThen fun bs => pure (b :: bs)

theorem forM {g : γ → Noting Unit} {xs : List γ} (each : ∀ c ∈ xs, Runs (g c)) :
    Runs (xs.forM g) := by
  induction xs with
  | nil => exact pure ()
  | cons c xs ih =>
      exact (each c List.mem_cons_self).andThen fun _ =>
        ih fun c' hc' => each c' (List.mem_cons_of_mem c hc')

theorem loop {g : α → γ → Noting α} {xs : List γ} {a : α} (each : ∀ b c, Runs (g b c)) :
    Runs (xs.foldlM g a) := by
  induction xs generalizing a with
  | nil => exact pure a
  | cons c xs ih =>
      rw [List.foldlM_cons]
      exact (each a c).andThen fun _ => ih

/-- A loop runs through if its steps do, as long as they keep what lets them. -/
theorem foldlM {I : α → Prop} {g : α → γ → Noting α} {xs : List γ} {a : α} (start : I a)
    (each : ∀ b c, I b → Runs (g b c)) (keeps : ∀ b c, I b → Gives (fun _ b => I b) (g b c)) :
    Runs (xs.foldlM g a) := by
  induction xs generalizing a with
  | nil => exact pure a
  | cons c xs ih =>
      rw [List.foldlM_cons]
      exact (each a c start).bind (keeps a c start) fun _ b holds => ih holds

end Runs

section Lookups

theorem report_runs (s : Scope) (f : Finding) (subject : Subject) (r : Option Reference) :
    Runs (report s f subject r) := fun _ => ⟨_, rfl⟩

theorem markUsed_runs (file : String) : Runs (markUsed file) := fun _ => ⟨_, rfl⟩

theorem get_runs : Runs (get : Noting Notes) := fun first => ⟨(first, first), rfl⟩

theorem findOffer_runs (s : Scope) (offers : Table Offer) (missing : Finding) (subject : Subject)
    (r : Reference) : Runs (findOffer s offers missing subject r) := by
  unfold findOffer
  cases offers.get? r.name with
  | none => exact (report_runs s _ _ _).andThen fun _ => .pure _
  | some o => exact (markUsed_runs _).andThen fun _ => .pure _

theorem findDomain_runs (m : Model) (s : Scope) (subject : Subject) (r : Reference) :
    Runs (findDomain m s subject r) := by
  unfold findDomain
  cases s.domains.get? r.name with
  | none => exact (report_runs s _ _ _).andThen fun _ => .pure _
  | some k => exact (markUsed_runs _).andThen fun _ => .pure _

theorem nameOf_runs {p : Property} (named : (n.propertyName? p).isSome) : Runs (nameOf n p) := by
  obtain ⟨name, known⟩ := Option.isSome_iff_exists.mp named
  unfold nameOf
  rw [known]
  exact .pure name

end Lookups

section Binding

theorem forOwnClasses_runs {f : Model → Key → Class → Noting Class}
    (each : ∀ n k c, Runs (f n k c)) (m : Model) : Runs (forOwnClasses s f m) := by
  unfold forOwnClasses
  refine .loop fun n k => ?_
  cases n.class? k with
  | none => exact .pure n
  | some c => exact (each n k c).andThen fun _ => .pure _

theorem forOwnEndpoints_runs {f : Model → Endpoint → Noting Endpoint}
    (each : ∀ n e, Runs (f n e)) (m : Model) : Runs (forOwnEndpoints s f m) := by
  unfold forOwnEndpoints
  refine .loop fun n k => ?_
  cases n.endpoint? k with
  | none => exact .pure n
  | some e => exact (each n e).andThen fun _ => .pure _

theorem checkUses_runs (m : Model) (s : Scope) : Runs (checkUses m s) :=
  .forM fun _ _ => report_runs s _ _ _

theorem bindParent_runs (s : Scope) (n : Model) (k : Key) (c : Class) :
    Runs (bindParent s n k c) := by
  unfold bindParent
  cases c.parentReference with
  | none => exact .pure c
  | some r => exact (findOffer_runs s _ _ _ r).andThen fun _ => .pure _

theorem bindDecorators_runs (s : Scope) (n : Model) (k : Key) (c : Class) :
    Runs (bindDecorators s n k c) :=
  (Runs.mapM fun r _ => findOffer_runs s _ _ _ r).andThen fun _ => .pure _

theorem bindTarget_runs (n : Model) (s : Scope) (a : Association) : Runs (bindTarget n s a) := by
  unfold bindTarget
  refine (findOffer_runs s _ _ _ a.reference).andThen fun found => ?_
  cases found with
  | none => exact .pure _
  | some k =>
      dsimp only
      split
      · exact .pure _
      · exact (report_runs s _ _ _).andThen fun _ => .pure _

theorem bindProperty_runs (n : Model) (s : Scope) (p : Property) : Runs (bindProperty n s p) := by
  cases p with
  | regular p => exact (findDomain_runs n s _ _).andThen fun _ => .pure _
  | association a => exact (bindTarget_runs n s a).andThen fun _ => .pure _
  | composition c =>
      refine (findOffer_runs s _ _ _ c.reference).andThen fun _ => ?_
      cases c.domainKindReference with
      | none => exact .pure _
      | some r => exact (findDomain_runs n s _ r).andThen fun _ => .pure _
  | «alias» a =>
      simp only [bindProperty]
      cases a.listDomainReference with
      | none => exact .pure _
      | some r => exact (findDomain_runs n s _ r).andThen fun _ => .pure _

theorem bindClassProperties_runs (s : Scope) (n : Model) (k : Key) (c : Class) :
    Runs (bindClassProperties s n k c) :=
  (Runs.mapM fun p _ => bindProperty_runs n s p).andThen fun _ => .pure _

theorem bindEndpointProperties_runs (s : Scope) (n : Model) (e : Endpoint) :
    Runs (bindEndpointProperties s n e) := by
  refine (Runs.mapM fun p _ => bindProperty_runs n s p).andThen fun _ => ?_
  cases e.returns with
  | none => exact .pure _
  | some p =>
      rw [Option.mapM_some, bind_map_left]
      exact (bindProperty_runs n s p).andThen fun _ => .pure _

theorem bindConverters_runs (s : Scope) (n : Model) : Runs (bindConverters s n) := by
  refine (Runs.mapM fun d _ => ?_).andThen fun _ => .pure _
  refine (Runs.mapM fun c _ => ?_).andThen fun _ => .pure _
  exact (Runs.mapM fun r _ => findDomain_runs n s _ r).andThen fun _ => .pure _

theorem bind_runs (s : Scope) (m : Model) : Runs (bind s m) := by
  refine (forOwnClasses_runs (bindParent_runs s) m).andThen fun m => ?_
  refine (forOwnClasses_runs (bindDecorators_runs s) m).andThen fun m => ?_
  refine (forOwnClasses_runs (bindClassProperties_runs s) m).andThen fun m => ?_
  refine (forOwnEndpoints_runs (bindEndpointProperties_runs s) m).andThen fun m => ?_
  exact bindConverters_runs s m

end Binding

section Naming

theorem select_runs (s : Scope) (a : Placeholder) (className : String)
    (ps : List (String × Property)) : Runs (select s a className ps) := by
  unfold select
  extract_lets missing
  have told : Runs (missing.forM fun r =>
      report s (.missingProperty className) (.property (.alias a)) (some r)) :=
    .forM fun r _ => report_runs s _ _ _
  refine told.andThen fun _ => ?_
  split
  · exact .pure none
  · split
    · exact .pure _
    · exact .pure _

theorem copies_runs (acyclic : n.Acyclic) (a : Placeholder) : Runs (copies s n a) := by
  unfold copies
  refine (findOffer_runs s _ _ _ a.reference).andThen fun found => ?_
  cases found.bind n.class? with
  | none => exact .pure none
  | some c =>
      refine Runs.andThen (.mapM fun p _ => ?_) fun qs => ?_
      · exact (nameOf_runs (acyclic.propertyName p)).andThen fun _ => .pure _
      · exact (select_runs s a c.name qs).andThen fun _ => .pure _

/-- Expanding runs through, since it changes no keys and so no way to the end of a name. -/
theorem expandAll_runs (acyclic : m.Acyclic) : Runs (expandAll s m) := by
  unfold expandAll
  refine Runs.foldlM (I := Model.Acyclic) acyclic ?_ ?_
  · rintro n ⟨site, a⟩ acyclic
    refine (copies_runs acyclic a).andThen fun new => ?_
    cases new with
    | none => exact .pure n
    | some ps => exact .pure _
  · rintro n ⟨site, a⟩ acyclic
    refine (copies_aims a).bind fun _ new made => ?_
    cases new with
    | none => exact .pure acyclic
    | some ps =>
        exact .pure (acyclic.keep (put_primaryKeys (fun p hp => (made ps rfl p hp).1) site))

theorem checkKeys_runs (named : ∀ k ∈ m.ownClasses s.self, ∀ c, m.class? k = some c →
    ∀ p ∈ c.properties, (m.propertyName? p).isSome) : Runs (checkKeys s m) := by
  refine .forM fun k own => ?_
  cases found : m.class? k with
  | none => exact .pure ()
  | some c =>
      dsimp only
      split
      · refine Runs.andThen (.mapM fun p key => ?_) fun _ => report_runs s _ _ _
        exact nameOf_runs (named k own c found p (List.mem_of_mem_filter key))
      · exact .pure ()

theorem checkNames_runs (acyclic : m.Acyclic) (className : String) (seen : List String)
    (ps : List Property) : Runs (checkNames s m className seen ps) := by
  induction ps generalizing seen with
  | nil => exact .pure ()
  | cons p ps ih =>
      rw [checkNames]
      split
      · exact ih seen
      · refine (nameOf_runs (acyclic.propertyName p)).andThen fun name => ?_
        split
        · exact (report_runs s _ _ _).andThen fun _ => ih _
        · exact ih _

theorem checkDuplicates_runs (acyclic : m.Acyclic) : Runs (checkDuplicates s m) := by
  refine .forM fun k _ => ?_
  cases m.class? k with
  | none => exact .pure ()
  | some c =>
      refine Runs.andThen (.mapM fun p _ => nameOf_runs (acyclic.propertyName p)) fun names => ?_
      exact checkNames_runs acyclic c.name names c.properties

theorem checkUnusedUses_runs (s : Scope) (missing : List Reference) (m : Model) :
    Runs (checkUnusedUses s missing m) := by
  refine get_runs.andThen fun notes => .forM fun use _ => ?_
  split
  · exact report_runs s _ _ _
  · exact .pure ()

theorem checkUsesOrder_runs (s : Scope) (missing : List Reference) (m : Model) :
    Runs (checkUsesOrder s missing m) := by
  refine .forM fun p _ => ?_
  obtain ⟨use, wanted⟩ := p
  dsimp only
  split
  · exact report_runs s _ _ _
  · exact .pure ()

theorem checking_runs (keys : Runs (checkKeys s m)) (duplicates : Runs (checkDuplicates s m))
    (missing : List Reference) (allowCompositeKeys : Bool) :
    Runs (checking s missing allowCompositeKeys m) := by
  have rest : Runs (do
      checkDuplicates s m; checkUnusedUses s missing m; checkUsesOrder s missing m) := by
    refine duplicates.andThen fun _ => ?_
    exact (checkUnusedUses_runs s _ m).andThen fun _ => checkUsesOrder_runs s _ m
  unfold checking
  cases allowCompositeKeys with
  | true => exact rest
  | false => exact keys.andThen fun _ => rest

end Naming

section Sharing

theorem shareListed_runs (s : Scope) (a : FileAlias) (missing : Finding)
    (offered : Model → List Key) (name? : Model → Key → Option String)
    (share : Model → VersionId → Key → Model) (listed : List Reference) (m : Model) :
    Runs (shareListed s a missing offered name? share listed m) := by
  unfold shareListed
  refine .loop fun n r => ?_
  cases (offered n).find? fun k => name? n k == some r.name with
  | none => exact (report_runs s _ _ _).andThen fun _ => .pure n
  | some k => exact .pure _

theorem shareAliases_runs (s : Scope) (m : Model) : Runs (shareAliases s m) := by
  refine .loop fun n a => ?_
  unfold shareAlias
  cases s.dependencies.get? a.file.name with
  | none => exact (report_runs s _ _ _).andThen fun _ => .pure n
  | some d =>
      refine (markUsed_runs _).andThen fun _ => ?_
      exact (shareListed_runs s a _ _ _ _ _ n).andThen fun n => shareListed_runs s a _ _ _ _ _ n

end Sharing
end DataModel.Resolution
