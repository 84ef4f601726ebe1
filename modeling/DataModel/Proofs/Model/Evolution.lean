import DataModel.Model.Diagnostic
import DataModel.Proofs.Model.Version

/-!
What resolving a file can change. Only the version of that file changes, and in it only what is
bound: what the file declares besides its properties and its targets stays. An own class may give
its place to a re-exported one, but no class becomes an own one.
-/
namespace DataModel

/-- A class without what it is bound to and what it holds. -/
def Class.bare (c : Class) : Class := { c with parent := none, decorators := [], properties := [] }

def Endpoint.bare (e : Endpoint) : Endpoint := { e with params := [], returns := none }

def Converter.bare (c : Converter) : Converter := { c with targets := [] }

def Domain.bare (d : Domain) : Domain := { d with converters := d.converters.map Converter.bare }

/-- A file with bare entities. -/
def ModelFile.bare (f : ModelFile) : ModelFile :=
  { f with
    domains := f.domains.map Domain.bare
    classes := f.classes.map Class.bare
    endpoints := f.endpoints.map Endpoint.bare }

theorem ModelFile.domainNames_of_bare {f f' : ModelFile} (h : f'.bare = f.bare) :
    f'.domains.map (·.name) = f.domains.map (·.name) := by
  have names := congrArg (fun f : ModelFile => f.domains.map (·.name)) h
  simp only [ModelFile.bare, List.map_map] at names
  exact names

/-- A version with a bare file. -/
def Version.bare (v : Version) : Version := { v with file := v.file.bare }

namespace Model

/-- The own classes and endpoints of a version stand in the version itself. -/
structure Homed (m : Model) (v : VersionId) : Prop where
  classes : ∀ k ∈ m.ownClasses v, k.version = v
  endpoints : ∀ k ∈ m.ownEndpoints v, k.version = v

/-- Files that are the same when bare read the same wherever binding does not matter. -/
theorem reading_of_bare {α : Type} {read : ModelFile → α} (fromBare : ∀ f, read f = read f.bare)
    {o o' : Option ModelFile} (h : o'.map ModelFile.bare = o.map ModelFile.bare) :
    o'.map read = o.map read := by
  have whole : ∀ o : Option ModelFile, o.map read = (o.map ModelFile.bare).map read := by
    intro o
    cases o with
    | none => rfl
    | some f => exact congrArg some (fromBare f)
  rw [whole, h, ← whole]

theorem domainNames_bare (f : ModelFile) : f.domains.map (·.name) = f.bare.domains.map (·.name) := by
  simp [ModelFile.bare, Domain.bare]

theorem domainsOf_eq (m : Model) (v : VersionId) : m.domainsOf v =
    (((m.file? v).map fun f => f.domains.map (·.name)).getD []).zipIdx.map
      fun (name, i) => (name, ⟨v, i⟩) := by
  rw [domainsOf]
  cases m.file? v with
  | none => rfl
  | some f =>
      simp only [Option.map_some, Option.getD_some, List.zipIdx_map, List.map_map]
      rfl

/-- What the files declare stays; what they are bound to may change. -/
def KeepsShape (m m' : Model) : Prop :=
  ∀ v, (m'.file? v).map ModelFile.bare = (m.file? v).map ModelFile.bare

namespace KeepsShape
variable {m m' m'' : Model}

theorem refl (m : Model) : KeepsShape m m := fun _ => rfl

theorem trans (h : KeepsShape m m') (h' : KeepsShape m' m'') : KeepsShape m m'' :=
  fun v => (h' v).trans (h v)

theorem symm (h : KeepsShape m m') : KeepsShape m' m := fun v => (h v).symm

theorem has (h : KeepsShape m m') {v : VersionId} : m'.Has v ↔ m.Has v := by
  have kept := congrArg Option.isSome (h v)
  rw [Option.isSome_map, Option.isSome_map, file?, file?, Option.isSome_map,
    Option.isSome_map] at kept
  rw [has_iff, has_iff, ← Option.isSome_iff_exists, ← Option.isSome_iff_exists, kept]

/-- What can be told from a bare file stays. -/
theorem reading (h : KeepsShape m m') {α : Type} {read : ModelFile → α}
    (fromBare : ∀ f, read f = read f.bare) (v : VersionId) :
    (m'.file? v).map read = (m.file? v).map read := reading_of_bare fromBare (h v)

theorem fileName (h : KeepsShape m m') (v : VersionId) : m'.fileName v = m.fileName v := by
  rw [Model.fileName, Model.fileName, h.reading (fun _ => rfl) v]

theorem uses (h : KeepsShape m m') (v : VersionId) : m'.uses v = m.uses v := by
  rw [Model.uses, Model.uses, h.reading (fun _ => rfl) v]

theorem aliases (h : KeepsShape m m') {v : VersionId} {f : ModelFile}
    (known : m.file? v = some f) : ∃ f', m'.file? v = some f' ∧ f'.aliases = f.aliases := by
  have same : (m'.file? v).map (·.aliases) = (m.file? v).map (·.aliases) :=
    h.reading (fun _ => rfl) v
  rw [known, Option.map_some] at same
  exact Option.map_eq_some_iff.mp same

theorem domainsOf (h : KeepsShape m m') (v : VersionId) : m'.domainsOf v = m.domainsOf v := by
  rw [domainsOf_eq, domainsOf_eq, h.reading domainNames_bare v]

theorem domainTable (h : KeepsShape m m') (vs : List VersionId) :
    m'.domainTable vs = m.domainTable vs := by
  rw [Model.domainTable, Model.domainTable]
  exact congrArg Table.ofList (congrArg vs.flatMap (funext h.domainsOf))

theorem className (h : KeepsShape m m') (k : Key) :
    (m'.class? k).map (·.name) = (m.class? k).map (·.name) := by
  have read : ∀ m : Model, (m.class? k).map (·.name) =
      ((m.file? k.version).map fun f => (f.classes.map (·.name))[k.index]?).join := by
    intro m
    rw [Model.class?]
    cases m.file? k.version with
    | none => rfl
    | some f => simp
  rw [read, read, h.reading _ k.version]
  intro f
  rw [ModelFile.bare, List.map_map]
  rfl

theorem endpointName (h : KeepsShape m m') (k : Key) :
    (m'.endpoint? k).map (·.name) = (m.endpoint? k).map (·.name) := by
  have read : ∀ m : Model, (m.endpoint? k).map (·.name) =
      ((m.file? k.version).map fun f => (f.endpoints.map (·.name))[k.index]?).join := by
    intro m
    rw [Model.endpoint?]
    cases m.file? k.version with
    | none => rfl
    | some f => simp
  rw [read, read, h.reading _ k.version]
  intro f
  rw [ModelFile.bare, List.map_map]
  rfl

theorem decorator? (h : KeepsShape m m') (k : Key) : m'.decorator? k = m.decorator? k := by
  have read : ∀ m : Model, m.decorator? k =
      ((m.file? k.version).map (·.decorators)).bind (·[k.index]?) := by
    intro m
    rw [Model.decorator?, Option.bind_map]
    rfl
  rw [read, read, h.reading (fun _ => rfl) k.version]

end KeepsShape

/-- A model in which nothing changed but one version, and there only what is bound. -/
structure Evolves (v : VersionId) (m m' : Model) : Prop where
  others : ∀ {w}, w ≠ v → m'.version? w = m.version? w
  bare : (m'.file? v).map ModelFile.bare = (m.file? v).map ModelFile.bare
  ownClasses : ∀ {k}, k ∈ m'.ownClasses v → k ∈ m.ownClasses v
  ownEndpoints : ∀ {k}, k ∈ m'.ownEndpoints v → k ∈ m.ownEndpoints v

namespace Evolves
variable {self : VersionId} {m m' m'' : Model}

theorem refl (self : VersionId) (m : Model) : Evolves self m m := ⟨fun _ => rfl, rfl, id, id⟩

theorem trans (h : Evolves self m m') (h' : Evolves self m' m'') : Evolves self m m'' := by
  refine ⟨?_, h'.bare.trans h.bare, ?_, ?_⟩
  · intro v other
    exact (h'.others other).trans (h.others other)
  · exact fun hk => h.ownClasses (h'.ownClasses hk)
  · exact fun hk => h.ownEndpoints (h'.ownEndpoints hk)

theorem homed (h : Evolves self m m') (home : m.Homed self) : m'.Homed self :=
  ⟨fun k hk => home.classes k (h.ownClasses hk), fun k hk => home.endpoints k (h.ownEndpoints hk)⟩

theorem keepsShape (h : Evolves self m m') : KeepsShape m m' := by
  intro v
  by_cases here : v = self
  · subst here
    exact h.bare
  · rw [file?_congr (h.others here)]

end Evolves

/-- A model in which nothing changed but what one version's file is bound to. -/
structure Rebinds (v : VersionId) (m m' : Model) : Prop where
  others : ∀ {w}, w ≠ v → m'.version? w = m.version? w
  bare : (m'.version? v).map Version.bare = (m.version? v).map Version.bare

namespace Rebinds
variable {v : VersionId} {m m' m'' : Model}

theorem refl (v : VersionId) (m : Model) : Rebinds v m m := ⟨fun _ => rfl, rfl⟩

theorem trans (h : Rebinds v m m') (h' : Rebinds v m' m'') : Rebinds v m m'' :=
  ⟨fun other => (h'.others other).trans (h.others other), h'.bare.trans h.bare⟩

/-- The lists of a version do not depend on what its file is bound to. -/
theorem lists (h : Rebinds v m m') {α : Type} {read : Version → α}
    (fromBare : ∀ ver, read ver = read ver.bare) :
    (m'.version? v).map read = (m.version? v).map read := by
  have whole : ∀ o : Option Version, o.map read = (o.map Version.bare).map read := by
    intro o
    cases o with
    | none => rfl
    | some ver => exact congrArg some (fromBare ver)
  rw [whole, h.bare, ← whole]

theorem ownClasses (h : Rebinds v m m') : m'.ownClasses v = m.ownClasses v := by
  rw [Model.ownClasses, Model.ownClasses, h.lists fun _ => rfl]

theorem ownEndpoints (h : Rebinds v m m') : m'.ownEndpoints v = m.ownEndpoints v := by
  rw [Model.ownEndpoints, Model.ownEndpoints, h.lists fun _ => rfl]

theorem classes (h : Rebinds v m m') : m'.classes v = m.classes v := by
  rw [Model.classes, Model.classes, h.lists fun _ => rfl]

theorem evolves (h : Rebinds v m m') : Evolves v m m' := by
  refine ⟨h.others, ?_, ?_, ?_⟩
  · have files : ∀ m : Model, (m.file? v).map ModelFile.bare =
        ((m.version? v).map Version.bare).map (·.file) := by
      intro m
      rw [file?]
      cases m.version? v <;> rfl
    rw [files, files, h.bare]
  · exact fun hk => h.ownClasses ▸ hk
  · exact fun hk => h.ownEndpoints ▸ hk

theorem homed (h : Rebinds v m m') (home : m.Homed v) : m'.Homed v := h.evolves.homed home

/-- A model in which what is bound did not change either. -/
theorem eq (h : Rebinds v m m') (classes : ∀ k, m'.class? k = m.class? k)
    (endpoints : ∀ k, m'.endpoint? k = m.endpoint? k)
    (domains : ∀ k, m'.domain? k = m.domain? k) : m' = m := by
  refine Model.ext fun w => ?_
  by_cases here : w = v
  · subst here
    have bare := h.bare
    cases known : m.version? w with
    | none =>
        rw [known] at bare
        exact Option.map_eq_none_iff.mp bare
    | some ver =>
        rw [known] at bare
        obtain ⟨ver', known', same⟩ := Option.map_eq_some_iff.mp bare
        have file : m.file? w = some ver.file := by rw [file?, known, Option.map_some]
        have file' : m'.file? w = some ver'.file := by rw [file?, known', Option.map_some]
        have sameClasses : ver'.file.classes = ver.file.classes := by
          refine List.ext_getElem? fun i => ?_
          have at_i := classes ⟨w, i⟩
          rwa [class?, class?, file, file'] at at_i
        have sameEndpoints : ver'.file.endpoints = ver.file.endpoints := by
          refine List.ext_getElem? fun i => ?_
          have at_i := endpoints ⟨w, i⟩
          rwa [endpoint?, endpoint?, file, file'] at at_i
        have sameDomains : ver'.file.domains = ver.file.domains := by
          refine List.ext_getElem? fun i => ?_
          have at_i := domains ⟨w, i⟩
          rwa [domain?, domain?, file, file'] at at_i
        rw [known', Option.some.injEq]
        obtain ⟨⟨_, _, _, _, _, _, _, _, _, _, _⟩, _, _, _, _⟩ := ver
        obtain ⟨⟨_, _, _, _, _, _, _, _, _, _, _⟩, _, _, _, _⟩ := ver'
        simp only [Version.bare, ModelFile.bare, Version.mk.injEq, ModelFile.mk.injEq] at same
        simp only at sameClasses sameEndpoints sameDomains
        simp only [same, sameClasses, sameEndpoints, sameDomains]
  · exact h.others here

end Rebinds

section Rebinding
variable {v : VersionId} {m : Model}

theorem rebinds_modifyFile {g : ModelFile → ModelFile}
    (bare : ∀ f, m.file? v = some f → (g f).bare = f.bare) :
    Rebinds v m (m.modifyFile v g) := by
  refine ⟨fun other => version?_modify_other other, ?_⟩
  rw [modifyFile, version?_modify_self]
  cases known : m.version? v with
  | none => rfl
  | some ver =>
      have same := bare ver.file (by rw [file?, known, Option.map_some])
      exact congrArg some (congrArg (fun f => { ver with file := f }) same)

theorem set_map_of_same {α β : Type} {f : α → β} {xs : List α} {i : Nat} {a b : α}
    (here : xs[i]? = some a) (same : f b = f a) : (xs.set i b).map f = xs.map f := by
  refine List.ext_getElem? fun j => ?_
  rw [List.getElem?_map, List.getElem?_map, List.getElem?_set]
  by_cases place : i = j
  · subst place
    have bound := (List.getElem?_eq_some_iff.mp here).1
    rw [if_pos rfl, if_pos bound, here, Option.map_some, Option.map_some, same]
  · rw [if_neg place]

theorem rebinds_setClass {k : Key} {c c' : Class} (home : k.version = v)
    (found : m.class? k = some c) (same : c'.bare = c.bare) : Rebinds v m (m.setClass k c') := by
  subst home
  refine rebinds_modifyFile fun f known => ?_
  rw [class?, known, Option.bind_some] at found
  simp only [ModelFile.bare, set_map_of_same found same]

theorem rebinds_setEndpoint {k : Key} {e e' : Endpoint} (home : k.version = v)
    (found : m.endpoint? k = some e) (same : e'.bare = e.bare) :
    Rebinds v m (m.setEndpoint k e') := by
  subst home
  refine rebinds_modifyFile fun f known => ?_
  rw [endpoint?, known, Option.bind_some] at found
  simp only [ModelFile.bare, set_map_of_same found same]

end Rebinding

section Changing
variable {self : VersionId} {m : Model}

/-- A change of one version that leaves its file bare and takes only own entities away. -/
theorem evolves_modify {f : Version → Version}
    (bare : ∀ ver, m.version? self = some ver → (f ver).file.bare = ver.file.bare)
    (ownClasses : ∀ ver, m.version? self = some ver →
      ∀ k ∈ (f ver).ownClasses, k ∈ ver.ownClasses)
    (ownEndpoints : ∀ ver, m.version? self = some ver →
      ∀ k ∈ (f ver).ownEndpoints, k ∈ ver.ownEndpoints) :
    Evolves self m (m.modify self f) := by
  refine ⟨fun other => version?_modify_other other, ?_, ?_, ?_⟩
  · rw [file?, file?, version?_modify_self]
    cases known : m.version? self with
    | none => rfl
    | some ver => exact congrArg some (bare ver known)
  · intro k hk
    rw [Model.ownClasses, version?_modify_self] at hk
    rw [Model.ownClasses]
    cases known : m.version? self with
    | none =>
        rw [known] at hk
        exact hk
    | some ver =>
        rw [known] at hk
        exact ownClasses ver known k hk
  · intro k hk
    rw [Model.ownEndpoints, version?_modify_self] at hk
    rw [Model.ownEndpoints]
    cases known : m.version? self with
    | none =>
        rw [known] at hk
        exact hk
    | some ver =>
        rw [known] at hk
        exact ownEndpoints ver known k hk

end Changing

theorem homed_of_fresh {m : Model} {v : VersionId} {f : ModelFile}
    (h : m.version? v = some (.fresh v f)) : m.Homed v := by
  refine ⟨?_, ?_⟩
  · intro k hk
    simp only [ownClasses, h, Option.map_some, Option.getD_some] at hk
    obtain ⟨i, -, rfl⟩ := List.mem_map.mp (List.mem_filter.mp hk).1
    rfl
  · intro k hk
    simp only [ownEndpoints, h, Option.map_some, Option.getD_some] at hk
    obtain ⟨i, -, rfl⟩ := List.mem_map.mp (List.mem_filter.mp hk).1
    rfl

theorem ownClasses_of_fresh {m : Model} {v : VersionId} {f : ModelFile}
    (h : m.version? v = some (.fresh v f)) : m.ownClasses v = m.classes v := by
  rw [ownClasses, classes, h]
  exact List.filter_eq_self.mpr fun k _ => rfl

theorem ownEndpoints_of_fresh {m : Model} {v : VersionId} {f : ModelFile}
    (h : m.version? v = some (.fresh v f)) : m.ownEndpoints v = m.endpoints v := by
  rw [ownEndpoints, endpoints, h]
  exact List.filter_eq_self.mpr fun k _ => rfl

theorem nodup_numbered (v : VersionId) (n : Nat) :
    ((List.range n).map fun i => (⟨v, i⟩ : Key)).Nodup :=
  List.nodup_range.map fun i j (same : (⟨v, i⟩ : Key) = ⟨v, j⟩) => congrArg Key.index same

theorem nodup_ownClasses_of_fresh {m : Model} {v : VersionId} {f : ModelFile}
    (h : m.version? v = some (.fresh v f)) : (m.ownClasses v).Nodup := by
  rw [ownClasses_of_fresh h, classes, h]
  exact nodup_numbered v f.classes.length

theorem nodup_ownEndpoints_of_fresh {m : Model} {v : VersionId} {f : ModelFile}
    (h : m.version? v = some (.fresh v f)) : (m.ownEndpoints v).Nodup := by
  rw [ownEndpoints_of_fresh h, endpoints, h]
  exact nodup_numbered v f.endpoints.length

/-- The own classes of a file just loaded are all those in it. -/
theorem mem_ownClasses_of_fresh {m : Model} {v : VersionId} {f : ModelFile}
    (h : m.version? v = some (.fresh v f)) {k : Key} :
    k ∈ m.ownClasses v ↔ k.version = v ∧ (m.class? k).isSome := by
  obtain ⟨w, i⟩ := k
  have numbered : (⟨w, i⟩ : Key) ∈ m.ownClasses v ↔ w = v ∧ i < f.classes.length := by
    rw [ownClasses_of_fresh h, classes, h]
    simp [Version.fresh, and_comm, eq_comm]
  rw [numbered]
  refine and_congr_right ?_
  rintro rfl
  rw [class?, file?, h, Option.map_some, Option.bind_some]
  rw [isSome_getElem?]
  rfl

theorem mem_ownEndpoints_of_fresh {m : Model} {v : VersionId} {f : ModelFile}
    (h : m.version? v = some (.fresh v f)) {k : Key} :
    k ∈ m.ownEndpoints v ↔ k.version = v ∧ (m.endpoint? k).isSome := by
  obtain ⟨w, i⟩ := k
  have numbered : (⟨w, i⟩ : Key) ∈ m.ownEndpoints v ↔ w = v ∧ i < f.endpoints.length := by
    rw [ownEndpoints_of_fresh h, endpoints, h]
    simp [Version.fresh, and_comm, eq_comm]
  rw [numbered]
  refine and_congr_right ?_
  rintro rfl
  rw [endpoint?, file?, h, Option.map_some, Option.bind_some]
  rw [isSome_getElem?]
  rfl

/-- The entities of a file just loaded are those it declares. -/
theorem class_at_fresh {m : Model} {v : VersionId} {f : ModelFile}
    (h : m.version? v = some (.fresh v f)) {k : Key} (home : k.version = v) {c : Class}
    (found : m.class? k = some c) : c ∈ f.classes := by
  rw [class?, home, file?, h] at found
  exact List.mem_of_getElem? found

theorem endpoint_at_fresh {m : Model} {v : VersionId} {f : ModelFile}
    (h : m.version? v = some (.fresh v f)) {k : Key} (home : k.version = v) {e : Endpoint}
    (found : m.endpoint? k = some e) : e ∈ f.endpoints := by
  rw [endpoint?, home, file?, h] at found
  exact List.mem_of_getElem? found

theorem class_of_fresh {m : Model} {v : VersionId} {f : ModelFile}
    (h : m.version? v = some (.fresh v f)) {k : Key} (own : k ∈ m.ownClasses v) {c : Class}
    (found : m.class? k = some c) : c ∈ f.classes :=
  class_at_fresh h ((homed_of_fresh h).classes k own) found

theorem endpoint_of_fresh {m : Model} {v : VersionId} {f : ModelFile}
    (h : m.version? v = some (.fresh v f)) {k : Key} (own : k ∈ m.ownEndpoints v) {e : Endpoint}
    (found : m.endpoint? k = some e) : e ∈ f.endpoints :=
  endpoint_at_fresh h ((homed_of_fresh h).endpoints k own) found

end Model
end DataModel
