import DataModel.Proofs.Resolution.LookingUp
import DataModel.Proofs.Resolution.Sharing

/-!
Taking. Each alias of a file names another file, and lists classes and endpoints that are looked up
among those that this file offers; the first one of a name is taken. What is not found is reported,
and so is the file, in which case nothing is looked up in it.
-/
namespace DataModel.Resolution
variable {s : Scope} {m n : Model} {v : VersionId} {ver : Version}

section Intake

/-- What a file has taken from others, and what it looked up for that. -/
structure Intake where
  classes : List Key
  endpoints : List Key
  lookups : List Lookup

def Intake.nothing : Intake := ⟨[], [], []⟩

/-- The first entity of a name that a file offers, among those of the resolved version `v` once it
has taken some. -/
def offered? (name? : Key → Option String) (keys : VersionId → List Key) (v : VersionId)
    (taken : List Key) (source : VersionId) (name : String) : Option Key :=
  (if source = v then replaceAll name? taken (keys v) else keys source).find?
    (name? · == some name)

/-- Looks a listed entity up, and takes it if it is found. -/
def Intake.take (find : Intake → String → Option Key) (add : Intake → List Key → Intake)
    (missing : Code) (t : Intake) (r : Reference) : Intake :=
  let found := find t r.name
  { add t found.toList with lookups := t.lookups ++ [.of missing found r] }

def Intake.takeClass (m : Model) (v source : VersionId) : Intake → Reference → Intake :=
  take (fun t => offered? (className? m) m.classes v t.classes source)
    (fun t ks => { t with classes := t.classes ++ ks }) .missingClass

def Intake.takeEndpoint (m : Model) (v source : VersionId) : Intake → Reference → Intake :=
  take (fun t => offered? (endpointName? m) m.endpoints v t.endpoints source)
    (fun t es => { t with endpoints := t.endpoints ++ es }) .missingEndpoint

/-- What an alias of a file takes: the classes that it lists, and then the endpoints. -/
def Intake.takeAlias (s : Scope) (m : Model) (t : Intake) (a : FileAlias) : Intake :=
  let source := s.file? a.file.name
  let looked := { t with lookups := t.lookups ++ [.of .missingFile source a.file] }
  match source with
  | none => looked
  | some source => a.endpoints.foldl (takeEndpoint m s.self source)
      (a.classes.foldl (takeClass m s.self source) looked)

/-- What a file takes by all of its aliases. -/
def Intake.whole (s : Scope) (m : Model) (as : List FileAlias) : Intake :=
  as.foldl (takeAlias s m) .nothing

/-- What a file takes depends only on what is on offer under which name. -/
theorem Intake.whole_congr (classNames : className? n = className? m)
    (endpointNames : endpointName? n = endpointName? m) (classes : n.classes = m.classes)
    (endpoints : n.endpoints = m.endpoints) (as : List FileAlias) :
    Intake.whole s n as = Intake.whole s m as := by
  have alike : takeAlias s n = takeAlias s m := by
    funext t a
    unfold takeAlias takeClass takeEndpoint
    rw [classNames, endpointNames, classes, endpoints]
  rw [Intake.whole, Intake.whole, alike]

theorem references_taken {find : Intake → String → Option Key} {add : Intake → List Key → Intake}
    {missing : Code} (rs : List Reference) (t : Intake) :
    (rs.foldl (.take find add missing) t).lookups.map (·.reference) =
      t.lookups.map (·.reference) ++ rs := by
  induction rs generalizing t with
  | nil => exact (List.append_nil _).symm
  | cons r rs ih =>
      rw [List.foldl_cons, ih, Intake.take, List.map_append, List.append_assoc]
      rfl

theorem references_intake (as : List FileAlias) :
    (Intake.whole s m as).lookups.map (·.reference) = as.flatMap fun a =>
      a.file :: if (s.file? a.file.name).isSome then a.classes ++ a.endpoints else [] := by
  suffices all : ∀ t : Intake, (as.foldl (Intake.takeAlias s m) t).lookups.map (·.reference) =
      t.lookups.map (·.reference) ++ as.flatMap fun a =>
        a.file :: if (s.file? a.file.name).isSome then a.classes ++ a.endpoints else [] from
    all .nothing
  induction as with
  | nil => exact fun t => (List.append_nil _).symm
  | cons a as ih =>
      intro t
      rw [List.foldl_cons, ih, List.flatMap_cons, ← List.append_assoc]
      congr 1
      unfold Intake.takeAlias
      cases s.file? a.file.name with
      | none =>
          rw [List.map_append]
          rfl
      | some source =>
          unfold Intake.takeEndpoint Intake.takeClass
          rw [references_taken, references_taken]
          simp [Lookup.of]

end Intake

section Shared
variable {ks es : List Key}

theorem classes_shared (known : m.version? v = some ver) (w : VersionId) :
    (shared m v ks es).classes w =
      if w = v then replaceAll (className? m) ks (m.classes v) else m.classes w := by
  split
  · next here =>
    rw [here, Model.classes, Model.classes, shared, Model.version?_modify_self, known]
    rfl
  · next other => rw [Model.classes, version?_shared other, ← Model.classes]

theorem endpoints_shared (known : m.version? v = some ver) (w : VersionId) :
    (shared m v ks es).endpoints w =
      if w = v then replaceAll (endpointName? m) es (m.endpoints v) else m.endpoints w := by
  split
  · next here =>
    rw [here, Model.endpoints, Model.endpoints, shared, Model.version?_modify_self, known]
    rfl
  · next other => rw [Model.endpoints, version?_shared other, ← Model.endpoints]

end Shared

section Taking

/-- The model in which a version has taken something. -/
def Intake.model (m : Model) (v : VersionId) (t : Intake) : Model := shared m v t.classes t.endpoints

/-- An action that gathers more from other files, and tells of what it looks up in vain. -/
def Gathers (m : Model) (v : VersionId) (t t' : Intake) (x : Noting Model) : Prop :=
  Gives (fun ds n => n = t'.model m v ∧
    failures t'.lookups = failures t.lookups ++ told lookupCodes ds) x

namespace Gathers
variable {t t' t'' : Intake} {x : Noting Model} {f : Model → Noting Model}

theorem pure (t : Intake) : Gathers m v t t (Pure.pure (t.model m v)) :=
  Gives.pure ⟨rfl, (List.append_nil _).symm⟩

theorem bind (h : Gathers m v t t' x) (next : Gathers m v t' t'' (f (t'.model m v))) :
    Gathers m v t t'' (x >>= f) := by
  refine Gives.bind h ?_
  rintro ds _ ⟨rfl, first⟩
  refine Gives.mono next ?_
  rintro ds' n ⟨taken, second⟩
  exact ⟨taken, by rw [second, first, told_append, List.append_assoc]⟩

/-- Looking something up takes nothing yet. -/
theorem look {α : Type} {a : α} {ls : List Lookup} {y : Noting α} (h : LooksUp a ls y)
    (result : α → Model) (same : result a = t'.model m v)
    (lookups : t'.lookups = t.lookups ++ ls) :
    Gathers m v t t' (y >>= fun a => Pure.pure (result a)) := by
  refine Gives.bind h ?_
  rintro ds _ ⟨rfl, reported⟩
  refine .pure ⟨same, ?_⟩
  rw [List.append_nil, lookups, failures_append, reported]

theorem foldl {γ : Type} {take : Intake → γ → Intake} {f : Model → γ → Noting Model}
    (each : ∀ t c, Gathers m v t (take t c) (f (t.model m v) c)) (cs : List γ) (t : Intake) :
    Gathers m v t (cs.foldl take t) (cs.foldlM f (t.model m v)) := by
  induction cs generalizing t with
  | nil => exact pure t
  | cons c cs ih =>
      rw [List.foldl_cons, List.foldlM_cons]
      exact (each t c).bind (ih (take t c))

end Gathers

theorem shareListed_intake (a : FileAlias) {missing : Finding} (error : missing.isError = true)
    (listed : missing.code ∈ lookupCodes) {offered : Model → List Key}
    {name? : Model → Key → Option String} {share : Model → VersionId → Key → Model}
    {find : Intake → String → Option Key} {add : Intake → List Key → Intake}
    (finds : ∀ (t : Intake) (name : String), ((offered (t.model m s.self)).find? fun k =>
      name? (t.model m s.self) k == some name) = find t name)
    (shares : ∀ (t : Intake) k, share (t.model m s.self) s.self k = (add t [k]).model m s.self)
    (idle : ∀ t, (add t []).model m s.self = t.model m s.self) (rs : List Reference) (t : Intake) :
    Gathers m s.self t (rs.foldl (.take find add missing.code) t)
      (shareListed s a missing offered name? share rs (t.model m s.self)) := by
  refine Gathers.foldl (fun t r => ?_) rs t
  rw [finds, Intake.take]
  cases found : find t r.name with
  | none =>
      refine Gathers.look (report_looksUp error listed s _ r) (fun _ => t.model m s.self) ?_ rfl
      exact (idle t).symm
  | some k =>
      refine Gives.pure ⟨shares t k, ?_⟩
      rw [failures_append]
      rfl

theorem shareClasses_intake (known : m.version? s.self = some ver) (a : FileAlias) (file : String)
    (source : VersionId) (rs : List Reference) (t : Intake) :
    Gathers m s.self t (rs.foldl (.takeClass m s.self source) t)
      (shareListed s a (.classNotInFile file) (·.classes source) className? shareClass rs
        (t.model m s.self)) := by
  refine shareListed_intake a rfl (List.mem_of_elem_eq_true rfl) (fun t name => ?_)
    (fun t k => ?_) (fun t => ?_) rs t
  · rw [Intake.model, classes_shared known, className?_shared]
    rfl
  · exact shareClass_shared k
  · rw [Intake.model, List.append_nil, Intake.model]

theorem shareEndpoints_intake (known : m.version? s.self = some ver) (a : FileAlias)
    (file : String) (source : VersionId) (rs : List Reference) (t : Intake) :
    Gathers m s.self t (rs.foldl (.takeEndpoint m s.self source) t)
      (shareListed s a (.endpointNotInFile file) (·.endpoints source) endpointName? shareEndpoint rs
        (t.model m s.self)) := by
  refine shareListed_intake a rfl (List.mem_of_elem_eq_true rfl) (fun t name => ?_)
    (fun t k => ?_) (fun t => ?_) rs t
  · rw [Intake.model, endpoints_shared known, endpointName?_shared]
    rfl
  · exact shareEndpoint_shared k
  · rw [Intake.model, List.append_nil, Intake.model]

theorem shareAlias_intake (known : m.version? s.self = some ver) (t : Intake) (a : FileAlias) :
    Gathers m s.self t (t.takeAlias s m a) (shareAlias s (t.model m s.self) a) := by
  unfold shareAlias Intake.takeAlias
  have looked : s.dependencies.get? a.file.name = s.file? a.file.name := rfl
  rw [looked]
  cases s.file? a.file.name with
  | none =>
      exact Gathers.look (report_looksUp (f := .missingAliasFile) rfl (by decide) s _ a.file)
        (fun _ => t.model m s.self) rfl rfl
  | some source =>
      have found : failures (t.lookups ++ [.of .missingFile (some source) a.file]) =
          failures t.lookups := by
        rw [failures_append]
        exact List.append_nil _
      dsimp only
      generalize (t.model m s.self).fileName source = file
      refine Gives.bind (markUsed_looksUp file) ?_
      rintro ds _ ⟨-, quiet⟩
      have taken := (shareClasses_intake known a file source a.classes
        { t with lookups := t.lookups ++ [.of .missingFile (some source) a.file] }).bind
        (shareEndpoints_intake known a file source a.endpoints _)
      refine Gives.mono taken ?_
      rintro ds' n ⟨same, told⟩
      refine ⟨same, told.trans ?_⟩
      rw [found, told_append, quiet]
      rfl

/-- The aliases of a file take what they list, as far as it is found. -/
theorem shareAliases_intake (known : m.version? s.self = some ver) :
    Gathers m s.self .nothing (Intake.whole s m ver.file.aliases) (shareAliases s m) := by
  unfold shareAliases
  have file : m.file? s.self = some ver.file := by rw [Model.file?, known, Option.map_some]
  have none : m = Intake.nothing.model m s.self := shared_nil.symm
  rw [file, Option.map_some, Option.getD_some]
  conv in (List.foldlM _ m _) => rw [none]
  exact Gathers.foldl (shareAlias_intake known) _ _

end Taking
end DataModel.Resolution
