import DataModel.Proofs.Resolution.Codes
import DataModel.Proofs.Resolution.Naming

/-!
Giving up a used file. Where nothing was found in a file that is used, the uses of it can go, and
the file with them: each name means the same without it, since the file never was the one that
counted, and nothing that was missed is found.
-/
namespace DataModel

/-- A file without its uses of another one. -/
def ModelFile.without (f : ModelFile) (file : String) : ModelFile :=
  { f with uses := f.uses.filter (·.name != file) }

namespace Model
variable {m : Model} {v : VersionId} {f : ModelFile} {file : String}

/-- A model in which a version was loaded without its uses of a file. -/
def without (m : Model) (v : VersionId) (file : String) : Model :=
  m.modifyFile v (·.without file)

section Reading

theorem version?_without (fresh : m.version? v = some (.fresh v f)) :
    (m.without v file).version? v = some (.fresh v (f.without file)) := by
  rw [without, modifyFile, version?_modify_self, fresh]
  rfl

/-- Nothing but the uses of a file is read differently. -/
theorem read_without {α : Type} {read : ModelFile → α} (same : ∀ f, read (f.without file) = read f)
    (w : VersionId) : ((m.without v file).file? w).map read = (m.file? w).map read :=
  read_modifyFile m v same w

@[simp] theorem class?_without (k : Key) : (m.without v file).class? k = m.class? k :=
  class?_modifyFile m v (fun _ => by rfl) k

@[simp] theorem endpoint?_without (k : Key) : (m.without v file).endpoint? k = m.endpoint? k :=
  endpoint?_modifyFile m v (fun _ => by rfl) k

@[simp] theorem fileName_without (w : VersionId) :
    (m.without v file).fileName w = m.fileName w := by
  rw [fileName, fileName, read_without fun _ => rfl]

theorem uses_without : (m.without v file).uses v = (m.uses v).filter (·.name != file) := by
  rw [uses, uses, without, file?_modifyFile, if_pos rfl]
  cases m.file? v <;> rfl

/-- What a version lists does not depend on its uses. -/
theorem list_without {α : Type} {read : Version → α}
    (same : ∀ ver f, read { ver with file := f } = read ver) (w : VersionId) :
    ((m.without v file).version? w).map read = (m.version? w).map read := by
  rw [without, modifyFile, version?_modify]
  split
  · rw [Option.map_map]
    exact congrArg (Option.map · _) (funext fun ver => same ver _)
  · rfl

@[simp] theorem classes_without (w : VersionId) :
    (m.without v file).classes w = m.classes w := by
  rw [classes, classes, list_without fun _ _ => rfl]

@[simp] theorem endpoints_without (w : VersionId) :
    (m.without v file).endpoints w = m.endpoints w := by
  rw [endpoints, endpoints, list_without fun _ _ => rfl]

@[simp] theorem ownClasses_without (w : VersionId) :
    (m.without v file).ownClasses w = m.ownClasses w := by
  rw [ownClasses, ownClasses, list_without fun _ _ => rfl]

@[simp] theorem ownEndpoints_without (w : VersionId) :
    (m.without v file).ownEndpoints w = m.ownEndpoints w := by
  rw [ownEndpoints, ownEndpoints, list_without fun _ _ => rfl]

@[simp] theorem propertyName?_without (p : Property) :
    (m.without v file).propertyName? p = m.propertyName? p :=
  propertyName?_congr (fun k => by rw [class?_without]) p

@[simp] theorem classCount_without : (m.without v file).classCount = m.classCount := by
  have counts : (m.versions.modify v fun ver => { ver with file := ver.file.without file }).toList.map
      (·.file.classes.length) = m.versions.toList.map (·.file.classes.length) := by
    refine List.ext_getElem? fun i => ?_
    rw [List.getElem?_map, List.getElem?_map, Array.getElem?_toList, Array.getElem?_toList,
      Array.getElem?_modify]
    split
    · rw [Option.map_map]
      rfl
    · rfl
  exact congrArg (List.foldl (· + ·) 0) counts

end Reading

section Changing

theorem modify_comm {w : VersionId} {g h : Version → Version} (comm : ∀ ver, h (g ver) = g (h ver)) :
    (m.modify w g).modify v h = (m.modify v h).modify w g := by
  refine Model.ext fun u => ?_
  simp only [version?_modify]
  split <;> split <;> simp only [Option.map_map]
  exact congrArg (Option.map · _) (funext comm)

theorem setClass_without (k : Key) (c : Class) :
    (m.setClass k c).without v file = (m.without v file).setClass k c :=
  modify_comm fun _ => rfl

theorem setEndpoint_without (k : Key) (e : Endpoint) :
    (m.setEndpoint k e).without v file = (m.without v file).setEndpoint k e :=
  modify_comm fun _ => rfl

end Changing
end Model

namespace Resolution
variable {s s' : Scope} {missing : List Reference} {m n : Model} {file : String}

/-- Where the first action finds nothing in the file, the second one notes the same, and its
result is that of the first one, changed by `w`. -/
def Spares {α β : Type} (file : String) (w : α → β) (x : Noting α) (y : Noting β) : Prop :=
  ∀ first a last, x.run first = .ok (a, last) → file ∉ last.usedFiles →
    file ∉ first.usedFiles ∧ y.run first = .ok (w a, last)

namespace Spares
variable {α α' β β' γ : Type} {w : α → α'} {u : β → β'} {x : Noting α} {x' : Noting α'}

theorem pure (a : α) : Spares file w (Pure.pure a) (Pure.pure (w a)) := by
  intro first b last done unused
  cases done
  exact ⟨unused, rfl⟩

/-- What follows spares the file for the results that can be given. -/
theorem bind_gives {P : List Diagnostic → α → Prop} {f : α → Noting β} {g : α' → Noting β'}
    (h : Spares file w x x') (gives : Gives P x)
    (next : ∀ ds a, P ds a → Spares file u (f a) (g (w a))) :
    Spares file u (x >>= f) (x' >>= g) := by
  intro first b last done unused
  obtain ⟨a, between, begun, rest⟩ := run_bind done
  obtain ⟨ds, -, holds⟩ := gives first a between begun
  obtain ⟨unused', rest'⟩ := next ds a holds between b last rest unused
  obtain ⟨unused'', begun'⟩ := h first a between begun unused'
  exact ⟨unused'', (run_then begun').trans rest'⟩

theorem bind {f : α → Noting β} {g : α' → Noting β'} (h : Spares file w x x')
    (next : ∀ a, Spares file u (f a) (g (w a))) : Spares file u (x >>= f) (x' >>= g) := by
  intro first b last done unused
  obtain ⟨a, between, begun, rest⟩ := run_bind done
  obtain ⟨unused', rest'⟩ := next a between b last rest unused
  obtain ⟨unused'', begun'⟩ := h first a between begun unused'
  exact ⟨unused'', (run_then begun').trans rest'⟩

theorem mapM {f g : γ → Noting β} {xs : List γ} (each : ∀ c, Spares file id (f c) (g c)) :
    Spares file id (xs.mapM f) (xs.mapM g) := by
  induction xs with
  | nil => exact pure []
  | cons c xs ih =>
      rw [List.mapM_cons, List.mapM_cons]
      exact (each c).bind fun b => ih.bind fun bs => pure (b :: bs)

theorem option {f g : γ → Noting β} (each : ∀ c, Spares file id (f c) (g c)) (o : Option γ) :
    Spares file id (o.mapM f) (o.mapM g) := by
  cases o with
  | none => exact pure none
  | some c =>
      rw [Option.mapM_some, Option.mapM_some, map_eq_pure_bind, map_eq_pure_bind]
      exact (each c).bind fun b => pure (some b)

theorem forM {f g : γ → Noting Unit} {xs : List γ} (each : ∀ c, Spares file id (f c) (g c)) :
    Spares file id (xs.forM f) (xs.forM g) := by
  induction xs with
  | nil => exact pure ()
  | cons c xs ih => exact (each c).bind fun _ => ih

/-- The second loop may leave out what the first one passes by. -/
theorem forM_filter {f g : γ → Noting Unit} {keep : γ → Bool} {xs : List γ}
    (each : ∀ c, keep c = true → Spares file id (f c) (g c))
    (idle : ∀ c, keep c = false → f c = Pure.pure ()) :
    Spares file id (xs.forM f) ((xs.filter keep).forM g) := by
  induction xs with
  | nil => exact pure ()
  | cons c xs ih =>
      rw [List.filter_cons]
      show Spares file id (f c >>= fun _ => xs.forM f) _
      cases kept : keep c with
      | false =>
          rw [idle c kept, pure_bind]
          exact ih
      | true => exact (each c kept).bind fun _ => ih

/-- A loop spares the file if its steps do, as long as they keep what lets them. -/
theorem foldlM {I : α → Prop} {f : α → γ → Noting α} {g : α' → γ → Noting α'} {xs : List γ} {a : α}
    (start : I a) (each : ∀ b c, I b → Spares file w (f b c) (g (w b) c))
    (keeps : ∀ b c, I b → Gives (fun _ b => I b) (f b c)) :
    Spares file w (xs.foldlM f a) (xs.foldlM g (w a)) := by
  induction xs generalizing a with
  | nil => exact pure a
  | cons c xs ih =>
      rw [List.foldlM_cons, List.foldlM_cons]
      exact (each a c start).bind_gives (keeps a c start) fun _ b holds => ih holds

theorem loop {f : α → γ → Noting α} {g : α' → γ → Noting α'} {xs : List γ} {a : α}
    (each : ∀ b c, Spares file w (f b c) (g (w b) c)) :
    Spares file w (xs.foldlM f a) (xs.foldlM g (w a)) := by
  induction xs generalizing a with
  | nil => exact pure a
  | cons c xs ih =>
      rw [List.foldlM_cons, List.foldlM_cons]
      exact (each a c).bind fun b => ih

/-- An action that finds something in the file does not have to be followed. -/
theorem found {f : Noting β} {g : Noting β'} {y : Noting α'} {k : β → α'} (rest : Spares file u f g) :
    Spares file k (markUsed file >>= fun _ => f) y := by
  intro first b last done unused
  obtain ⟨_, between, begun, done⟩ := run_bind done
  cases begun
  exact absurd List.mem_cons_self (rest _ b last done unused).1

end Spares

/-- A scope in which a file is not there any more: what it was not the one to offer means what it
meant. -/
structure Scope.Lacks (file : String) (s s' : Scope) : Prop where
  self : s'.self = s.self
  present : s.dependencies.has file
  dependencies : ∀ name, name ≠ file → s'.dependencies.get? name = s.dependencies.get? name
  classes : ∀ name, (∀ o, s.classes.get? name = some o → o.file ≠ file) →
    s'.classes.get? name = s.classes.get? name
  decorators : ∀ name, (∀ o, s.decorators.get? name = some o → o.file ≠ file) →
    s'.decorators.get? name = s.decorators.get? name
  domains : s'.domains = s.domains

section Lookups
variable {v : VersionId}

theorem report_spares (self : s'.self = s.self) (f : Finding) (t : Subject)
    (r : Option Reference) : Spares file id (report s f t r) (report s' f t r) := by
  intro first b last done unused
  cases done
  refine ⟨unused, ?_⟩
  rw [report, self]
  rfl

theorem markUsed_spares (other : String) :
    Spares file id (markUsed other) (markUsed other) := by
  intro first b last done unused
  cases done
  exact ⟨fun old => unused (List.mem_cons_of_mem _ old), rfl⟩

theorem findOffer_spares (self : s'.self = s.self) {offers offers' : Table Offer} {r : Reference}
    (same : (∀ o, offers.get? r.name = some o → o.file ≠ file) →
      offers'.get? r.name = offers.get? r.name) (missing : Finding) (t : Subject) :
    Spares file id (findOffer s offers missing t r) (findOffer s' offers' missing t r) := by
  unfold findOffer
  cases winner : offers.get? r.name with
  | none =>
      have still : offers'.get? r.name = none := by
        rw [same fun o found => absurd (found.symm.trans winner) (Option.some_ne_none o), winner]
      rw [still]
      exact (report_spares self missing t r).bind fun _ => .pure (w := id) none
  | some o =>
      by_cases lost : o.file = file
      · dsimp only
        rw [lost]
        exact .found (.pure (w := id) (some o.key))
      · have still : offers'.get? r.name = some o := by
          rw [same fun o' found => Option.some.inj (winner.symm.trans found) ▸ lost, winner]
        rw [still]
        exact (markUsed_spares o.file).bind fun _ => .pure (w := id) (some o.key)

theorem findClass_spares (lacks : s.Lacks file s') (t : Subject) (r : Reference) :
    Spares file id (findClass s t r) (findClass s' t r) :=
  findOffer_spares lacks.self (lacks.classes r.name) .missingClass t

theorem findDecorator_spares (lacks : s.Lacks file s') (t : Subject) (r : Reference) :
    Spares file id (findDecorator s t r) (findDecorator s' t r) :=
  findOffer_spares lacks.self (lacks.decorators r.name) .missingDecorator t

theorem findDomain_spares (lacks : s.Lacks file s') (n : Model) (t : Subject) (r : Reference) :
    Spares file id (findDomain n s t r) (findDomain (n.without v file) s' t r) := by
  unfold findDomain
  rw [lacks.domains]
  cases s.domains.get? r.name with
  | none => exact (report_spares lacks.self _ t r).bind fun _ => .pure (w := id) none
  | some k =>
      dsimp only
      rw [Model.fileName_without]
      exact (markUsed_spares _).bind fun _ => .pure (w := id) (some k)

theorem nameOf_spares (n : Model) (p : Property) :
    Spares file id (nameOf n p) (nameOf (n.without v file) p) := by
  unfold nameOf
  rw [Model.propertyName?_without]
  cases n.propertyName? p with
  | none =>
      intro first b last done
      cases done
  | some name => exact .pure name

end Lookups

section Binding
variable (lacks : s.Lacks file s')
include lacks

theorem forOwnClasses_spares {f f' : Model → Key → Class → Noting Class}
    (each : ∀ n k c, Spares file id (f n k c) (f' (n.without s.self file) k c)) (m : Model) :
    Spares file (·.without s.self file) (forOwnClasses s f m)
      (forOwnClasses s' f' (m.without s.self file)) := by
  unfold forOwnClasses
  rw [lacks.self, Model.ownClasses_without]
  refine .loop fun n k => ?_
  rw [Model.class?_without]
  cases n.class? k with
  | none => exact .pure n
  | some c =>
      refine (each n k c).bind fun d => ?_
      rw [id, ← Model.setClass_without]
      exact .pure _

theorem forOwnEndpoints_spares {f f' : Model → Endpoint → Noting Endpoint}
    (each : ∀ n e, Spares file id (f n e) (f' (n.without s.self file) e)) (m : Model) :
    Spares file (·.without s.self file) (forOwnEndpoints s f m)
      (forOwnEndpoints s' f' (m.without s.self file)) := by
  unfold forOwnEndpoints
  rw [lacks.self, Model.ownEndpoints_without]
  refine .loop fun n k => ?_
  rw [Model.endpoint?_without]
  cases n.endpoint? k with
  | none => exact .pure n
  | some e =>
      refine (each n e).bind fun d => ?_
      rw [id, ← Model.setEndpoint_without]
      exact .pure _

/-- A use that goes named a file that is there, so it was not reported. -/
theorem checkUses_spares (m : Model) :
    Spares file id (checkUses m s) (checkUses (m.without s.self file) s') := by
  rw [checkUses, checkUses, missingUses, missingUses, filter_forM, filter_forM, lacks.self,
    Model.uses_without]
  refine .forM_filter (fun use kept => ?_) fun use gone => ?_
  · have known : s'.dependencies.has use.name = s.dependencies.has use.name := by
      rw [Table.has, Table.has, lacks.dependencies _ (by simpa using kept)]
    rw [known]
    split
    · exact report_spares lacks.self _ _ _
    · exact .pure ()
  · rw [show use.name = file by simpa using gone, lacks.present]
    rfl

theorem bindTarget_spares (n : Model) (a : Association) :
    Spares file id (bindTarget n s a) (bindTarget (n.without s.self file) s' a) := by
  unfold bindTarget
  refine (findClass_spares lacks _ a.reference).bind fun found => ?_
  cases found with
  | none => exact .pure _
  | some k =>
      simp only [id, Model.class?_without]
      split
      · exact .pure _
      · exact (report_spares lacks.self _ _ _).bind fun _ => .pure _

theorem bindProperty_spares (n : Model) (p : Property) :
    Spares file id (bindProperty n s p) (bindProperty (n.without s.self file) s' p) := by
  cases p with
  | regular p => exact (findDomain_spares lacks n _ _).bind fun _ => .pure _
  | association a => exact (bindTarget_spares lacks n a).bind fun _ => .pure _
  | composition c =>
      refine (findClass_spares lacks _ c.reference).bind fun target => ?_
      cases c.domainKindReference with
      | none => exact .pure _
      | some r => exact (findDomain_spares lacks n _ r).bind fun _ => .pure _
  | «alias» a =>
      simp only [bindProperty]
      cases a.listDomainReference with
      | none => exact .pure _
      | some r => exact (findDomain_spares lacks n _ r).bind fun _ => .pure _

theorem bindParent_spares (n : Model) (k : Key) (c : Class) :
    Spares file id (bindParent s n k c) (bindParent s' (n.without s.self file) k c) := by
  unfold bindParent
  cases c.parentReference with
  | none => exact .pure c
  | some r => exact (findClass_spares lacks _ r).bind fun _ => .pure _

theorem bindDecorators_spares (n : Model) (k : Key) (c : Class) :
    Spares file id (bindDecorators s n k c) (bindDecorators s' (n.without s.self file) k c) :=
  (Spares.mapM (findDecorator_spares lacks _)).bind fun _ => .pure _

theorem bindClassProperties_spares (n : Model) (k : Key) (c : Class) :
    Spares file id (bindClassProperties s n k c)
      (bindClassProperties s' (n.without s.self file) k c) :=
  (Spares.mapM (bindProperty_spares lacks n)).bind fun _ => .pure _

theorem bindEndpointProperties_spares (n : Model) (e : Endpoint) :
    Spares file id (bindEndpointProperties s n e)
      (bindEndpointProperties s' (n.without s.self file) e) :=
  (Spares.mapM (bindProperty_spares lacks n)).bind fun _ =>
    (Spares.option (bindProperty_spares lacks n) e.returns).bind fun _ => .pure _

theorem bindConverters_spares (m : Model) :
    Spares file (·.without s.self file) (bindConverters s m)
      (bindConverters s' (m.without s.self file)) := by
  have domains : ((m.without s.self file).file? s.self).map (·.domains) =
      (m.file? s.self).map (·.domains) := Model.read_without (fun _ => rfl) _
  unfold bindConverters
  simp only [lacks.self, domains]
  refine (Spares.mapM fun _ => ?_).bind fun bound => ?_
  · refine (Spares.mapM fun _ => ?_).bind fun _ => .pure _
    exact (Spares.mapM (findDomain_spares lacks m _)).bind fun _ => .pure _
  · have comm : (m.modifyFile s.self fun f => { f with domains := bound }).without s.self file =
        (m.without s.self file).modifyFile s.self fun f => { f with domains := bound } :=
      Model.modify_comm fun _ => rfl
    rw [id, ← comm]
    exact .pure _

theorem bind_spares (m : Model) :
    Spares file (·.without s.self file) (bind s m) (bind s' (m.without s.self file)) := by
  unfold bind
  refine (forOwnClasses_spares lacks (bindParent_spares lacks) m).bind fun m₁ => ?_
  refine (forOwnClasses_spares lacks (bindDecorators_spares lacks) m₁).bind fun m₂ => ?_
  refine (forOwnClasses_spares lacks (bindClassProperties_spares lacks) m₂).bind fun m₃ => ?_
  refine (forOwnEndpoints_spares lacks (bindEndpointProperties_spares lacks) m₃).bind fun m₄ => ?_
  exact bindConverters_spares lacks m₄

end Binding
section Expansion

theorem placeholders_without (v w : VersionId) :
    placeholders (m.without v file) w = placeholders m w := by
  simp only [placeholders, Model.ownClasses_without, Model.ownEndpoints_without,
    Model.class?_without, Model.endpoint?_without]

theorem put_without (v : VersionId) (site : Site) (a : Placeholder) (new : List Property)
    (n : Model) : site.put (n.without v file) a new = (site.put n a new).without v file := by
  cases site with
  | ofClass k =>
      simp only [Site.put, Model.class?_without]
      cases n.class? k <;> simp only [Model.setClass_without]
  | ofParams k =>
      simp only [Site.put, Model.endpoint?_without]
      cases n.endpoint? k <;> simp only [Model.setEndpoint_without]
  | ofReturn k =>
      simp only [Site.put, Model.endpoint?_without]
      cases n.endpoint? k <;> cases new.head? <;> simp only [Model.setEndpoint_without]

variable (lacks : s.Lacks file s')
include lacks

theorem collapseAll_spares (m : Model) :
    Spares file (·.without s.self file) (collapseAll s m)
      (collapseAll s' (m.without s.self file)) := by
  unfold collapseAll
  refine (forOwnClasses_spares lacks (fun _ _ _ => .pure (w := id) _) m).bind fun m₁ => ?_
  exact forOwnEndpoints_spares lacks (fun _ _ => .pure (w := id) _) m₁

theorem select_spares (a : Placeholder) (className : String) (ps : List (String × Property)) :
    Spares file id (select s a className ps) (select s' a className ps) := by
  unfold select
  extract_lets missing
  have told : Spares file id
      (missing.forM fun r => report s (.missingProperty className) (.property (.alias a)) (some r))
      (missing.forM fun r => report s' (.missingProperty className) (.property (.alias a)) (some r)) :=
    .forM fun r => report_spares lacks.self _ _ r
  refine told.bind fun _ => ?_
  split
  · exact .pure (w := id) none
  · split
    · exact .pure (w := id) _
    · exact .pure (w := id) _

theorem copies_spares (n : Model) (a : Placeholder) :
    Spares file id (copies s n a) (copies s' (n.without s.self file) a) := by
  have read : (n.without s.self file).class? = n.class? := funext fun k => n.class?_without k
  unfold copies
  refine (findClass_spares lacks _ a.reference).bind fun found => ?_
  rw [read, id]
  cases found.bind n.class? with
  | none => exact .pure (w := id) none
  | some c =>
      refine Spares.bind (w := id) (.mapM fun p => ?_) fun qs => ?_
      · exact (nameOf_spares n p).bind fun name => .pure (w := id) (name, p)
      · exact (select_spares lacks a c.name qs).bind fun _ => .pure (w := id) _

theorem expandAll_spares (m : Model) :
    Spares file (·.without s.self file) (expandAll s m)
      (expandAll s' (m.without s.self file)) := by
  unfold expandAll
  rw [lacks.self, placeholders_without]
  refine .loop fun n x => ?_
  obtain ⟨site, a⟩ := x
  refine (copies_spares lacks n a).bind fun new => ?_
  cases new with
  | none => exact .pure n
  | some ps =>
      simp only [id, put_without]
      exact .pure _

end Expansion

section Sharing

theorem shareListed_spares (self : s'.self = s.self) {a : FileAlias} {missing : Finding}
    {offered offered' : Model → List Key} {name? : Model → Key → Option String}
    {share : Model → VersionId → Key → Model} (w : Model → Model)
    (same : ∀ n, offered' (w n) = offered n) (names : ∀ n, name? (w n) = name? n)
    (comm : ∀ n k, share (w n) s.self k = w (share n s.self k)) (rs : List Reference) (m : Model) :
    Spares file w (shareListed s a missing offered name? share rs m)
      (shareListed s' a missing offered' name? share rs (w m)) := by
  unfold shareListed
  refine .loop fun n r => ?_
  rw [same, names]
  cases (offered n).find? fun k => name? n k == some r.name with
  | none => exact (report_spares self _ _ _).bind fun _ => .pure n
  | some k =>
      simp only [self, comm]
      exact .pure _

theorem className?_without (v : VersionId) (n : Model) :
    className? (n.without v file) = className? n := by
  funext k
  rw [className?, className?, Model.class?_without]

theorem endpointName?_without (v : VersionId) (n : Model) :
    endpointName? (n.without v file) = endpointName? n := by
  funext k
  rw [endpointName?, endpointName?, Model.endpoint?_without]

theorem shareClass_without (v w : VersionId) (n : Model) (k : Key) :
    shareClass (n.without v file) w k = (shareClass n w k).without v file := by
  rw [shareClass, className?_without, shareClass, Model.without, Model.modifyFile, Model.without,
    Model.modifyFile, Model.modify_comm fun _ => by rfl]

theorem shareEndpoint_without (v w : VersionId) (n : Model) (k : Key) :
    shareEndpoint (n.without v file) w k = (shareEndpoint n w k).without v file := by
  rw [shareEndpoint, endpointName?_without, shareEndpoint, Model.without, Model.modifyFile,
    Model.without, Model.modifyFile, Model.modify_comm fun _ => by rfl]

/-- A file is looked up by its name. -/
def Scope.Titled (s : Scope) (m : Model) : Prop :=
  ∀ name d, s.dependencies.get? name = some d → m.fileName d = name

theorem Scope.Titled.shape (titled : s.Titled m) (shape : m.KeepsShape n) : s.Titled n := by
  intro name d found
  rw [shape.fileName]
  exact titled name d found

/-- What an alias takes from a file that is there. -/
theorem taking_spares (self : s'.self = s.self) (a : FileAlias) (title : String) (d : VersionId) :
    Spares file (·.without s.self file)
      (shareListed s a (.classNotInFile title) (·.classes d) className? shareClass a.classes n >>=
        shareListed s a (.endpointNotInFile title) (·.endpoints d) endpointName? shareEndpoint
          a.endpoints)
      (shareListed s' a (.classNotInFile title) (·.classes d) className? shareClass a.classes
          (n.without s.self file) >>=
        shareListed s' a (.endpointNotInFile title) (·.endpoints d) endpointName? shareEndpoint
          a.endpoints) := by
  refine (shareListed_spares self (·.without s.self file) (fun n => n.classes_without d)
    (className?_without _) (shareClass_without _ _) a.classes n).bind fun n => ?_
  exact shareListed_spares self (·.without s.self file) (fun n => n.endpoints_without d)
    (endpointName?_without _) (shareEndpoint_without _ _) a.endpoints n

/-- An alias of the file finds it, and any other alias finds its own file still. -/
theorem shareAlias_spares (lacks : s.Lacks file s') (titled : s.Titled n) (a : FileAlias) :
    Spares file (·.without s.self file) (shareAlias s n a)
      (shareAlias s' (n.without s.self file) a) := by
  unfold shareAlias
  by_cases lost : a.file.name = file
  · obtain ⟨d, known⟩ := Option.isSome_iff_exists.mp lacks.present
    rw [lost, known]
    dsimp only
    rw [titled _ d known]
    exact .found (taking_spares lacks.self a file d)
  · rw [lacks.dependencies _ lost]
    cases s.dependencies.get? a.file.name with
    | none => exact (report_spares lacks.self _ _ _).bind fun _ => .pure n
    | some d =>
        simp only [Model.fileName_without]
        exact (markUsed_spares _).bind fun _ => taking_spares lacks.self a _ d

/-- Taking over entities changes no file. -/
theorem shareAlias_files (s : Scope) (n : Model) (a : FileAlias) :
    Gives (fun _ n' => ∀ w, n'.file? w = n.file? w) (shareAlias s n a) := by
  unfold shareAlias
  cases s.dependencies.get? a.file.name with
  | none => exact (report_gives s _ _ _).bind fun _ _ _ => .pure fun _ => rfl
  | some d =>
      refine (markUsed_gives _).bind fun _ _ _ => ?_
      refine (shareListed_invariant (I := fun n' => ∀ w, n'.file? w = n.file? w) a _ a.classes
        (fun _ => rfl) fun n' k _ same _ _ _ w => ?_).bind fun _ n₁ same₁ => ?_
      · exact (file?_shareClass n' w k).trans (same w)
      · refine shareListed_invariant a _ a.endpoints same₁ fun n' k _ same _ _ _ w => ?_
        exact (file?_shareEndpoint n' w k).trans (same w)

theorem shareAliases_spares (lacks : s.Lacks file s') (titled : s.Titled m) :
    Spares file (·.without s.self file) (shareAliases s m)
      (shareAliases s' (m.without s.self file)) := by
  have aliases : ((m.without s.self file).file? s.self).map (·.aliases) =
      (m.file? s.self).map (·.aliases) := Model.read_without (fun _ => rfl) _
  unfold shareAliases
  rw [lacks.self, aliases]
  refine .foldlM (I := s.Titled) titled (fun n a titled => shareAlias_spares lacks titled a)
    fun n a titled => (shareAlias_files s n a).mono fun _ n' same => ?_
  exact titled.shape fun w => congrArg _ (same w)

end Sharing

section Checking

theorem inheritedNames_spares (n : Model) (k : Key) (c : Class) (v : VersionId) :
    Spares file id (inheritedNames n k c) (inheritedNames (n.without v file) k c) := by
  have read : (n.without v file).class? = n.class? := funext fun k => n.class?_without k
  have above : ∀ seen fuel above,
      ancestors (n.without v file) seen fuel above = ancestors n seen fuel above := by
    intro seen fuel
    induction fuel generalizing seen with
    | zero => exact fun _ => rfl
    | succ fuel ih =>
        intro above
        cases above with
        | none => rfl
        | some l => simp only [ancestors, read, ih]
  unfold inheritedNames
  rw [above, Model.classCount_without]
  exact .mapM (nameOf_spares n)

variable (lacks : s.Lacks file s')
include lacks

theorem checkKeys_spares (n : Model) :
    Spares file id (checkKeys s n) (checkKeys s' (n.without s.self file)) := by
  unfold checkKeys
  rw [lacks.self, Model.ownClasses_without]
  refine .forM fun k => ?_
  rw [Model.class?_without]
  cases n.class? k with
  | none => exact .pure (w := id) ()
  | some c =>
      dsimp only
      split
      · exact (Spares.mapM (nameOf_spares n)).bind fun _ => report_spares lacks.self _ _ _
      · exact .pure (w := id) ()

theorem checkNames_spares (n : Model) (className : String) (seen : List String)
    (ps : List Property) :
    Spares file id (checkNames s n className seen ps)
      (checkNames s' (n.without s.self file) className seen ps) := by
  induction ps generalizing seen with
  | nil => exact .pure (w := id) ()
  | cons p rest ih =>
      unfold checkNames
      split
      · exact ih seen
      · refine (nameOf_spares n p).bind fun name => ?_
        rw [id]
        split
        · exact (report_spares lacks.self _ _ _).bind fun _ => ih _
        · exact ih _

theorem checkDuplicates_spares (n : Model) :
    Spares file id (checkDuplicates s n) (checkDuplicates s' (n.without s.self file)) := by
  unfold checkDuplicates
  rw [lacks.self, Model.ownClasses_without]
  refine .forM fun k => ?_
  rw [Model.class?_without]
  cases n.class? k with
  | none => exact .pure (w := id) ()
  | some c =>
      exact (inheritedNames_spares n k c _).bind fun names =>
        checkNames_spares lacks n c.name names c.properties

theorem checkingClasses_spares (allowCompositeKeys : Bool) (n : Model) :
    Spares file id (checkingClasses s allowCompositeKeys n)
      (checkingClasses s' allowCompositeKeys (n.without s.self file)) := by
  cases allowCompositeKeys with
  | true => exact checkDuplicates_spares lacks n
  | false => exact (checkKeys_spares lacks n).bind fun _ => checkDuplicates_spares lacks n

end Checking

section Stages

/-- The steps that come before the uses themselves are looked at. -/
def settling (s : Scope) (allowCompositeKeys : Bool) (m : Model) : Noting Model := do
  let n ← linking s m
  let n ← shareAliases s n
  checkingClasses s allowCompositeKeys n
  return n

/-- What the uses themselves are blamed for. -/
def blaming (s : Scope) (missing : List Reference) (m : Model) : Noting Unit := do
  checkUnusedUses s missing m
  checkUsesOrder s missing m

theorem steps_settling (s : Scope) (allowCompositeKeys : Bool) (m : Model) :
    steps s allowCompositeKeys m = settling s allowCompositeKeys m >>= fun n =>
      blaming s (missingUses m s) n >>= fun _ => pure n := by
  simp only [steps_eq, settling, blaming, checking_eq, bind_assoc, pure_bind]

theorem linking_spares (lacks : s.Lacks file s') (m : Model) :
    Spares file (·.without s.self file) (linking s m) (linking s' (m.without s.self file)) := by
  unfold linking
  refine (checkUses_spares lacks m).bind fun _ => ?_
  refine (collapseAll_spares lacks m).bind fun m₁ => ?_
  exact (bind_spares lacks m₁).bind fun m₂ => expandAll_spares lacks m₂

theorem settling_spares (lacks : s.Lacks file s') (home : m.Homed s.self) (titled : s.Titled m)
    (allowCompositeKeys : Bool) :
    Spares file (·.without s.self file) (settling s allowCompositeKeys m)
      (settling s' allowCompositeKeys (m.without s.self file)) := by
  unfold settling
  refine (linking_spares lacks m).bind_gives (linking_rebinds home) fun _ m₁ rebinds => ?_
  refine (shareAliases_spares lacks (titled.shape rebinds.evolves.keepsShape)).bind fun m₂ => ?_
  exact (checkingClasses_spares lacks allowCompositeKeys m₂).bind fun _ => .pure m₂

theorem settling_reports (s : Scope) (allowCompositeKeys : Bool) (m : Model) :
    Gives (fun ds _ => ∀ d ∈ ds, d.code ≠ .unusedUse) (settling s allowCompositeKeys m) := by
  have all : Reports (Code.all.erase .unusedUse) (settling s allowCompositeKeys m) := by
    unfold settling linking
    refine Reports.andThen (.andThen ((checkUses_reports m s).mono (by decide)) fun _ =>
      .andThen ?_ fun m₁ => ?_) fun m₂ => ?_
    · exact collapseAll_only m
    · exact ((bind_reports s m₁).mono (by decide)).andThen fun _ =>
        (expandAll_reports s _).mono (by decide)
    · refine ((shareAliases_reports s m₂).mono (by decide)).andThen fun _ => ?_
      exact ((checkingClasses_reports s _ _).mono (by decide)).andThen fun _ => .pure _
  refine Gives.mono all fun ds _ listed d hd => ?_
  rintro same
  exact absurd (same ▸ listed d hd) (by decide)

theorem mem_unusedReports {found : List String} {d : Diagnostic} :
    d ∈ unusedReports s missing n found ↔ ∃ use ∈ existingUses s missing n, use.name ∉ found ∧
      d = Finding.unusedUse.diagnostic s.self (.file s.self) use := by
  simp only [unusedReports, List.mem_flatMap]
  refine exists_congr fun use => and_congr_right fun _ => ?_
  by_cases used : use.name ∈ found
  · simp [used]
  · simp [used]

theorem mem_orderReports {d : Diagnostic} (h : d ∈ orderReports s missing n) :
    ∃ use, d = Finding.unsortedUse.diagnostic s.self (.file s.self) use := by
  obtain ⟨⟨use, wanted⟩, -, reported⟩ := List.mem_flatMap.mp h
  dsimp only at reported
  split at reported
  · exact ⟨use, List.mem_singleton.mp reported⟩
  · cases reported

/-- What the uses of a file are blamed for, when something was found in some files. -/
def blames (s : Scope) (missing : List Reference) (n : Model) (found : List String) :
    List Diagnostic :=
  unusedReports s missing n found ++ orderReports s missing n

theorem blaming_run (s : Scope) (missing : List Reference) (n : Model) (notes : Notes) :
    (blaming s missing n).run notes =
      .ok ((), notes + ⟨blames s missing n notes.usedFiles, []⟩) := by
  rw [blaming, run_then (checkUnusedUses_run s _ n notes), checkUsesOrder_adds s _ n, add_assoc]
  rfl

/-- All steps end where the first ones do, and the uses are blamed at last. -/
theorem steps_of_settling {allowCompositeKeys : Bool} {first settled : Notes}
    (begun : (settling s allowCompositeKeys m).run first = .ok (n, settled)) :
    (steps s allowCompositeKeys m).run first = .ok (n, settled +
      ⟨blames s (missingUses m s) n settled.usedFiles, []⟩) := by
  rw [steps_settling, run_then begun, run_then (blaming_run s _ n settled)]
  rfl

theorem settling_of_steps {allowCompositeKeys : Bool} {first last : Notes}
    (done : (steps s allowCompositeKeys m).run first = .ok (n, last)) :
    ∃ settled, (settling s allowCompositeKeys m).run first = .ok (n, settled) ∧
      last = settled + ⟨blames s (missingUses m s) n settled.usedFiles, []⟩ := by
  have split := done
  rw [steps_settling] at split
  obtain ⟨n', settled, begun, -⟩ := run_bind split
  rw [steps_of_settling begun] at done
  cases done
  exact ⟨settled, begun, rfl⟩

/-- Uses are never in error. -/
theorem blamed_warnings {found : List String} :
    Clean (blames s missing n found) := by
  refine clean_append.mpr ⟨fun d hd => ?_, fun d hd => ?_⟩
  · obtain ⟨use, -, -, rfl⟩ := mem_unusedReports.mp hd
    rfl
  · obtain ⟨use, rfl⟩ := mem_orderReports hd
    rfl

theorem filter_isError {ds blamed : List Diagnostic} (clean : Clean blamed) :
    (ds ++ blamed).filter (·.isError) = ds.filter (·.isError) := by
  have none : blamed.filter (·.isError) = [] :=
    List.filter_eq_nil_iff.mpr fun d hd => Bool.eq_false_iff.mp (clean d hd)
  rw [List.filter_append, none, List.append_nil]

end Stages

section Scopes
variable {v : VersionId} {dependencies : List VersionId} {domains : Table Key}

theorem scope_titled : (Scope.of m v dependencies domains).Titled m := by
  intro name d found
  obtain ⟨w, -, same⟩ := List.mem_map.mp (Table.mem_of_get?_ofList found)
  cases same
  rfl

theorem scope_without (w : VersionId) :
    Scope.of (m.without w file) v dependencies domains = .of m v dependencies domains := by
  have decorators : offeredDecorators (m.without w file) = offeredDecorators m := by
    funext d
    rw [offeredDecorators, offeredDecorators, Model.fileName_without,
      Model.read_without fun _ => rfl]
  simp only [Scope.of, offeredClasses, decorators, Model.fileName_without,
    Model.classes_without, Model.ownClasses_without, Model.class?_without]

theorem file_of_offeredClasses {keys : List Key} {other : String} {p : String × Offer}
    (h : p ∈ offeredClasses m keys other) : p.2.file = other := by
  obtain ⟨k, -, offered⟩ := List.mem_filterMap.mp h
  obtain ⟨c, -, rfl⟩ := Option.map_eq_some_iff.mp offered
  rfl

theorem file_of_offeredDecorators {p : String × Offer} (h : p ∈ offeredDecorators m v) :
    p.2.file = m.fileName v := by
  obtain ⟨_, -, rfl⟩ := List.mem_map.mp h
  rfl

/-- Without a file in the dependencies, what other files offer means what it meant. -/
theorem scope_lacks (present : (Scope.of m v dependencies domains).dependencies.has file) :
    (Scope.of m v dependencies domains).Lacks file
      (.of m v (dependencies.filter (m.fileName · != file)) domains) := by
  have named : (Scope.of m v dependencies domains).Titled m := scope_titled
  have titled : ∀ d, (m.fileName d != file) = false → m.fileName d = file := fun d h => by
    simpa using h
  refine ⟨rfl, present, fun name other => ?_, fun name counts => ?_, fun name counts => ?_, rfl⟩
  · have gone : ∀ d, (m.fileName d != file) = false → ∀ p ∈ [(m.fileName d, d)],
        m.fileName p.2 = file := by
      intro d gone p hp
      rw [List.mem_singleton.mp hp]
      exact titled d gone
    show (Table.ofList (List.map _ _)).get? name = (Table.ofList (List.map _ _)).get? name
    rw [List.map_eq_flatMap, List.map_eq_flatMap, ← List.append_nil (List.flatMap ..),
      ← List.append_nil (dependencies.flatMap _)]
    refine Table.get?_ofList_filter (m.fileName · = file) gone fun d known gone => other ?_
    rw [List.append_nil, ← List.map_eq_flatMap] at known
    exact (named name d known).symm.trans gone
  · exact Table.get?_ofList_filter (fun o : Offer => o.file = file) (fun d gone p hp =>
      (file_of_offeredClasses hp).trans (titled d gone)) counts
  · exact Table.get?_ofList_filter (fun o : Offer => o.file = file) (fun d gone p hp =>
      (file_of_offeredDecorators hp).trans (titled d gone)) counts

end Scopes
end Resolution

namespace Model
open Resolution
variable {m n : Model} {v : VersionId} {f : ModelFile} {dependencies : List VersionId}
  {domains : Table Key} {allowCompositeKeys : Bool} {ds : List Diagnostic}

theorem resolve_of_run {notes : Notes}
    (run : (steps (.of m v dependencies domains) allowCompositeKeys m).run ⟨[], []⟩ =
      .ok (n, notes)) :
    m.resolve v dependencies domains allowCompositeKeys = .ok (notes.diagnostics, n) := by
  rw [resolve]
  dsimp only
  rw [run]
  rfl

/-- A use that is reported as not needed can go. If a file that was just loaded is loaded without
its uses of that name instead and resolved without the files of that name, it resolves to the same
model but for these uses, so that every name is bound to the same entity and the same entities
are copied and re-exported, and the errors are the same. -/
theorem resolve_without_unused (fresh : m.version? v = some (.fresh v f))
    (done : m.resolve v dependencies domains allowCompositeKeys = .ok (ds, n))
    {d : Diagnostic} (told : d ∈ ds) (unused : d.code = .unusedUse) {use : Reference}
    (about : d.reference = some use) :
    (m.without v use.name).version? v = some (.fresh v (f.without use.name)) ∧
      ∃ ds', (m.without v use.name).resolve v
          (dependencies.filter (m.fileName · != use.name)) domains allowCompositeKeys =
          .ok (ds', n.without v use.name) ∧
        ds'.filter (·.isError) = ds.filter (·.isError) := by
  obtain ⟨n', notes, run, same⟩ := resolve_run done
  cases same
  obtain ⟨settled, begun, rfl⟩ := settling_of_steps run
  -- the diagnostic is among those of the last steps, so nothing was found in the file before
  obtain ⟨before, added, others⟩ := settling_reports _ allowCompositeKeys m _ _ _ begun
  rw [List.nil_append] at added
  have late : d ∈ unusedReports (.of m v dependencies domains)
      (missingUses m (.of m v dependencies domains)) n settled.usedFiles := by
    rcases List.mem_append.mp told with early | late
    · exact absurd unused (others d (added ▸ early))
    · refine (List.mem_append.mp late).resolve_right fun sorted => ?_
      obtain ⟨_, rfl⟩ := mem_orderReports sorted
      cases unused
  obtain ⟨use', existing, unfound, rfl⟩ := mem_unusedReports.mp late
  cases about
  have shape := (resolve_evolves fresh done).keepsShape
  rw [← missingUses_congr (shape.uses v), existingUses_missingUses] at existing
  have present := (List.mem_filter.mp existing).2
  have lacks : (Scope.of m v dependencies domains).Lacks use.name _ := scope_lacks present
  obtain ⟨-, begun'⟩ := settling_spares lacks (Model.homed_of_fresh fresh) scope_titled
    allowCompositeKeys _ _ _ begun unfound
  have run' := steps_of_settling begun'
  rw [← scope_without v] at run'
  refine ⟨version?_without fresh, _, resolve_of_run run', ?_⟩
  exact (filter_isError blamed_warnings).trans (filter_isError blamed_warnings).symm

namespace Shadowing
open Chaining

/-- A file that declares a class of its own under the name of a class that it could use. -/
def user : ModelFile := file "F" [⟨"G", 2, 7⟩] [single "A" plainKey, single "B" (keyTo "A")]

def shadowing : Model := ⟨#[.fresh 0 source, .fresh 1 user]⟩

def error : Diagnostic :=
  Finding.missingDomain.diagnostic 1 (.property plainKey) (some ⟨"D", 3, 61⟩)

def warning : Diagnostic := Finding.unusedUse.diagnostic 1 (.file 1) (some ⟨"G", 2, 7⟩)

theorem resolve_shadowing :
    (shadowing.resolve 1 [0] [] false).map (·.1) = .ok [error, warning] := by
  with_unfolding_all rfl

end Shadowing
open Shadowing

theorem resolve_without_unused_shadowed :
    ∃ ds n, shadowing.resolve 1 [0] [] false = .ok (ds, n) ∧ warning ∈ ds ∧
      ∃ ds', (shadowing.without 1 "G").resolve 1 ([0].filter (shadowing.fileName · != "G")) []
          false = .ok (ds', n.without 1 "G") ∧
        ds'.filter (·.isError) = ds.filter (·.isError) := by
  have whole := resolve_shadowing
  cases done : shadowing.resolve 1 [0] [] false with
  | error e =>
      rw [done] at whole
      cases whole
  | ok r =>
      obtain ⟨ds, n⟩ := r
      rw [done] at whole
      cases whole
      have told : warning ∈ [error, warning] := .tail _ (.head _)
      exact ⟨_, n, rfl, told, (resolve_without_unused (f := user) rfl done told rfl rfl).2⟩

end Model
end DataModel
