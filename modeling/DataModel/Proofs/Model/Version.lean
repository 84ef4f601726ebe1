import Mathlib.Data.List.Perm.Subperm
import DataModel.Model.Version
import DataModel.Proofs.Table

/-!
Versions under the changes of a model: adding a file puts one version behind all others, and
changing a version leaves the others as they are.
-/
namespace DataModel

theorem Key.ext {k l : Key} (version : k.version = l.version) (index : k.index = l.index) :
    k = l := by
  cases k
  cases l
  exact Key.mk.injEq .. ▸ ⟨version, index⟩

theorem map_zipIdx_fst {α β : Type} (f : α → β) (xs : List α) :
    xs.zipIdx.map (fun p => f p.1) = xs.map f := by
  have same := congrArg (List.map f) (List.zipIdx_map_fst 0 xs)
  rwa [List.map_map] at same

theorem flatMap_zipIdx_fst {α β : Type} (f : α → List β) (xs : List α) :
    xs.zipIdx.flatMap (fun p => f p.1) = xs.flatMap f := by
  rw [List.flatMap_def, List.flatMap_def, map_zipIdx_fst]

namespace Model

/-- A version that is there. -/
def Has (m : Model) (v : VersionId) : Prop := v < m.versions.size

protected theorem ext {m m' : Model} (h : ∀ v, m.version? v = m'.version? v) : m = m' := by
  obtain ⟨versions⟩ := m
  obtain ⟨versions'⟩ := m'
  exact congrArg Model.mk (Array.ext_getElem? h)

theorem has_iff {m : Model} {v : VersionId} : m.Has v ↔ ∃ ver, m.version? v = some ver := by
  rw [Has, version?, ← Option.isSome_iff_exists]
  simp

theorem has_of_version? {m : Model} {v : VersionId} {ver : Version}
    (h : m.version? v = some ver) : m.Has v := has_iff.mpr ⟨ver, h⟩

@[simp] theorem version?_empty (v : VersionId) : empty.version? v = none := rfl

section Changing

theorem version?_modify (m : Model) (v w : VersionId) (f : Version → Version) :
    (m.modify v f).version? w = if v = w then (m.version? w).map f else m.version? w :=
  Array.getElem?_modify

theorem version?_modify_self (m : Model) (v : VersionId) (f : Version → Version) :
    (m.modify v f).version? v = (m.version? v).map f := by rw [version?_modify, if_pos rfl]

theorem version?_modify_other {m : Model} {v w : VersionId} {f : Version → Version} (h : w ≠ v) :
    (m.modify v f).version? w = m.version? w := by rw [version?_modify, if_neg h.symm]

@[simp] theorem has_modify {m : Model} {v w : VersionId} {f : Version → Version} :
    (m.modify v f).Has w ↔ m.Has w := by rw [Has, modify, Array.size_modify, Has]

theorem version?_add (m : Model) (file : ModelFile) (w : VersionId) :
    (m.add file).1.version? w =
      if w = m.versions.size then some (.fresh w file) else m.version? w := by
  rw [version?, add, Array.getElem?_push]
  by_cases here : w = m.versions.size
  · rw [if_pos here, if_pos here, here]
  · rw [if_neg here, if_neg here, version?]

theorem version?_add_new (m : Model) (file : ModelFile) :
    (m.add file).1.version? (m.add file).2 = some (.fresh (m.add file).2 file) := by
  rw [version?_add]
  exact if_pos rfl

theorem version?_add_old {m : Model} {v : VersionId} (file : ModelFile) (h : m.Has v) :
    (m.add file).1.version? v = m.version? v := by
  rw [version?_add, if_neg (Nat.ne_of_lt h)]

theorem not_has_add (m : Model) (file : ModelFile) : ¬ m.Has (m.add file).2 := Nat.lt_irrefl _

theorem has_add {m : Model} {file : ModelFile} {v : VersionId} :
    (m.add file).1.Has v ↔ v = (m.add file).2 ∨ m.Has v := by
  show v < (m.versions.push _).size ↔ v = m.versions.size ∨ v < m.versions.size
  rw [Array.size_push, Nat.lt_succ_iff_lt_or_eq, or_comm]

end Changing

section Reading

theorem file?_congr {m m' : Model} {v : VersionId} (h : m.version? v = m'.version? v) :
    m.file? v = m'.file? v := by rw [file?, file?, h]

theorem class?_congr {m m' : Model} {k : Key} (h : m.version? k.version = m'.version? k.version) :
    m.class? k = m'.class? k := by rw [class?, class?, file?_congr h]

theorem endpoint?_congr {m m' : Model} {k : Key}
    (h : m.version? k.version = m'.version? k.version) : m.endpoint? k = m'.endpoint? k := by
  rw [endpoint?, endpoint?, file?_congr h]

theorem domain?_congr {m m' : Model} {k : Key}
    (h : m.version? k.version = m'.version? k.version) : m.domain? k = m'.domain? k := by
  rw [domain?, domain?, file?_congr h]

theorem fileName_congr {m m' : Model} {v : VersionId} (h : m.version? v = m'.version? v) :
    m.fileName v = m'.fileName v := by rw [fileName, fileName, file?_congr h]

theorem uses_congr {m m' : Model} {v : VersionId} (h : m.version? v = m'.version? v) :
    m.uses v = m'.uses v := by rw [uses, uses, file?_congr h]

theorem class?_eq_some {m : Model} {k : Key} {c : Class} (h : m.class? k = some c) :
    ∃ ver, m.version? k.version = some ver ∧ ver.file.classes[k.index]? = some c := by
  simp only [class?, file?, Option.bind_eq_some_iff, Option.map_eq_some_iff] at h
  obtain ⟨file, ⟨ver, known, rfl⟩, found⟩ := h
  exact ⟨ver, known, found⟩

theorem endpoint?_eq_some {m : Model} {k : Key} {e : Endpoint} (h : m.endpoint? k = some e) :
    ∃ ver, m.version? k.version = some ver ∧ ver.file.endpoints[k.index]? = some e := by
  simp only [endpoint?, file?, Option.bind_eq_some_iff, Option.map_eq_some_iff] at h
  obtain ⟨file, ⟨ver, known, rfl⟩, found⟩ := h
  exact ⟨ver, known, found⟩

theorem classes_of_own {m : Model} {v : VersionId} {k : Key} (h : k ∈ m.ownClasses v) :
    k ∈ m.classes v := by
  rw [ownClasses] at h
  rw [classes]
  cases known : m.version? v with
  | none =>
      rw [known] at h
      exact h
  | some ver =>
      rw [known] at h
      exact (List.mem_filter.mp h).1

theorem endpoints_of_own {m : Model} {v : VersionId} {k : Key} (h : k ∈ m.ownEndpoints v) :
    k ∈ m.endpoints v := by
  rw [ownEndpoints] at h
  rw [endpoints]
  cases known : m.version? v with
  | none =>
      rw [known] at h
      exact h
  | some ver =>
      rw [known] at h
      exact (List.mem_filter.mp h).1

theorem mem_domainsOf {m : Model} {v : VersionId} {name : String} {k : Key} :
    (name, k) ∈ m.domainsOf v ↔ k.version = v ∧ (m.domain? k).map (·.name) = some name := by
  obtain ⟨w, i⟩ := k
  rw [domainsOf, domain?]
  cases file : m.file? v with
  | none =>
      constructor
      · rintro h
        cases h
      · rintro ⟨rfl, h⟩
        rw [file] at h
        cases h
  | some f =>
      simp only [Option.map_some, Option.getD_some, List.mem_map, Prod.mk.injEq, Key.mk.injEq,
        Prod.exists, List.mem_zipIdx_iff_getElem?]
      constructor
      · rintro ⟨d, i', found, rfl, rfl, rfl⟩
        rw [file]
        exact ⟨rfl, congrArg (Option.map (·.name)) found⟩
      · rintro ⟨rfl, named⟩
        rw [file, Option.bind_some, Option.map_eq_some_iff] at named
        obtain ⟨d, found, rfl⟩ := named
        exact ⟨d, i, found, rfl, rfl, rfl⟩

/-- A domain that a table gives stands in one of the table's versions, under its name. -/
theorem mem_domainTable {m : Model} {vs : List VersionId} {name : String} {k : Key}
    (h : (m.domainTable vs).get? name = some k) :
    k.version ∈ vs ∧ (m.domain? k).map (·.name) = some name := by
  obtain ⟨v, hv, member⟩ := List.mem_flatMap.mp (Table.mem_of_get?_ofList h)
  obtain ⟨rfl, named⟩ := mem_domainsOf.mp member
  exact ⟨hv, named⟩

end Reading

section Entities

variable (m : Model) (v : VersionId) {g : ModelFile → ModelFile}

theorem file?_modifyFile (w : VersionId) :
    (m.modifyFile v g).file? w = if v = w then (m.file? w).map g else m.file? w := by
  rw [file?, modifyFile, version?_modify]
  by_cases here : v = w
  · rw [if_pos here, if_pos here, file?, Option.map_map, Option.map_map]
    rfl
  · rw [if_neg here, if_neg here, file?]

/-- What a change of a file does not touch reads as before. -/
theorem read_modifyFile {α : Type} {read : ModelFile → α} (same : ∀ f, read (g f) = read f)
    (w : VersionId) : ((m.modifyFile v g).file? w).map read = (m.file? w).map read := by
  rw [file?_modifyFile]
  split
  · rw [Option.map_map]
    exact congrArg (Option.map · _) (funext same)
  · rfl

theorem class?_modifyFile (same : ∀ f, (g f).classes = f.classes) (k : Key) :
    (m.modifyFile v g).class? k = m.class? k := by
  have read : ∀ m : Model, m.class? k = ((m.file? k.version).map (·.classes)).bind (·[k.index]?) := by
    intro m
    rw [class?, Option.bind_map]
    rfl
  rw [read, read, read_modifyFile m v same]

theorem endpoint?_modifyFile (same : ∀ f, (g f).endpoints = f.endpoints) (k : Key) :
    (m.modifyFile v g).endpoint? k = m.endpoint? k := by
  have read : ∀ m : Model,
      m.endpoint? k = ((m.file? k.version).map (·.endpoints)).bind (·[k.index]?) := by
    intro m
    rw [endpoint?, Option.bind_map]
    rfl
  rw [read, read, read_modifyFile m v same]

theorem domain?_modifyFile (same : ∀ f, (g f).domains = f.domains) (k : Key) :
    (m.modifyFile v g).domain? k = m.domain? k := by
  have read : ∀ m : Model,
      m.domain? k = ((m.file? k.version).map (·.domains)).bind (·[k.index]?) := by
    intro m
    rw [domain?, Option.bind_map]
    rfl
  rw [read, read, read_modifyFile m v same]

theorem class?_setClass (k l : Key) (c : Class) :
    (m.setClass k c).class? l = if k = l then (m.class? l).map fun _ => c else m.class? l := by
  rw [class?, setClass, file?_modifyFile, class?]
  by_cases same : k = l
  · subst same
    rw [if_pos rfl, if_pos rfl]
    cases m.file? k.version with
    | none => rfl
    | some f => exact List.getElem?_set'.trans (if_pos rfl)
  · rw [if_neg same]
    split
    · next version =>
      have other : k.index ≠ l.index := fun index => same (Key.ext version index)
      cases m.file? l.version with
      | none => rfl
      | some f => exact List.getElem?_set_ne other
    · rfl

theorem endpoint?_setEndpoint (k l : Key) (e : Endpoint) :
    (m.setEndpoint k e).endpoint? l =
      if k = l then (m.endpoint? l).map fun _ => e else m.endpoint? l := by
  rw [endpoint?, setEndpoint, file?_modifyFile, endpoint?]
  by_cases same : k = l
  · subst same
    rw [if_pos rfl, if_pos rfl]
    cases m.file? k.version with
    | none => rfl
    | some f => exact List.getElem?_set'.trans (if_pos rfl)
  · rw [if_neg same]
    split
    · next version =>
      have other : k.index ≠ l.index := fun index => same (Key.ext version index)
      cases m.file? l.version with
      | none => rfl
      | some f => exact List.getElem?_set_ne other
    · rfl

theorem modify_modify (m : Model) (v : VersionId) (f g : Version → Version) :
    (m.modify v f).modify v g = m.modify v fun ver => g (f ver) := by
  refine Model.ext fun w => ?_
  rw [version?_modify, version?_modify, version?_modify]
  split
  · rw [Option.map_map]
    rfl
  · rfl

theorem modify_self {m : Model} {v : VersionId} {f : Version → Version}
    (same : ∀ ver, m.version? v = some ver → f ver = ver) : m.modify v f = m := by
  refine Model.ext fun w => ?_
  rw [version?_modify]
  split
  · next here =>
    subst here
    cases known : m.version? v with
    | none => rfl
    | some ver => exact congrArg some (same ver known)
  · rfl

theorem modifyFile_modifyFile (m : Model) (v : VersionId) (g h : ModelFile → ModelFile) :
    (m.modifyFile v g).modifyFile v h = m.modifyFile v fun f => h (g f) := modify_modify m v _ _

theorem modifyFile_congr {m : Model} {v : VersionId} {f : ModelFile} {g h : ModelFile → ModelFile}
    (file : m.file? v = some f) (same : g f = h f) : m.modifyFile v g = m.modifyFile v h := by
  refine Model.ext fun w => ?_
  rw [modifyFile, modifyFile, version?_modify, version?_modify]
  split
  · next here =>
    subst here
    refine Option.map_congr fun ver found => ?_
    rw [file?, found] at file
    cases file
    rw [same]
  · rfl

theorem ownClasses_modifyFile (m : Model) (v : VersionId) (g : ModelFile → ModelFile) :
    (m.modifyFile v g).ownClasses v = m.ownClasses v := by
  rw [ownClasses, modifyFile, version?_modify_self, Option.map_map]
  rfl

theorem ownEndpoints_modifyFile (m : Model) (v : VersionId) (g : ModelFile → ModelFile) :
    (m.modifyFile v g).ownEndpoints v = m.ownEndpoints v := by
  rw [ownEndpoints, modifyFile, version?_modify_self, Option.map_map]
  rfl

theorem setClass_setClass (k : Key) (c d : Class) :
    (m.setClass k c).setClass k d = m.setClass k d := by
  simp only [setClass, modifyFile, modify_modify, List.set_set]

theorem setClass_self {m : Model} {k : Key} {c : Class} (found : m.class? k = some c) :
    m.setClass k c = m := by
  refine modify_self fun ver known => ?_
  rw [class?, file?, known, Option.map_some, Option.bind_some, List.getElem?_eq_some_iff] at found
  obtain ⟨bound, rfl⟩ := found
  dsimp only
  rw [List.set_getElem_self]

theorem setEndpoint_setEndpoint (k : Key) (e d : Endpoint) :
    (m.setEndpoint k e).setEndpoint k d = m.setEndpoint k d := by
  simp only [setEndpoint, modifyFile, modify_modify, List.set_set]

theorem setEndpoint_self {m : Model} {k : Key} {e : Endpoint} (found : m.endpoint? k = some e) :
    m.setEndpoint k e = m := by
  refine modify_self fun ver known => ?_
  rw [endpoint?, file?, known, Option.map_some, Option.bind_some,
    List.getElem?_eq_some_iff] at found
  obtain ⟨bound, rfl⟩ := found
  dsimp only
  rw [List.set_getElem_self]

@[simp] theorem endpoint?_setClass (k l : Key) (c : Class) :
    (m.setClass k c).endpoint? l = m.endpoint? l := by
  rw [setClass]
  refine endpoint?_modifyFile m k.version ?_ l
  exact fun _ => rfl

@[simp] theorem domain?_setClass (k l : Key) (c : Class) :
    (m.setClass k c).domain? l = m.domain? l := by
  rw [setClass]
  refine domain?_modifyFile m k.version ?_ l
  exact fun _ => rfl

@[simp] theorem class?_setEndpoint (k l : Key) (e : Endpoint) :
    (m.setEndpoint k e).class? l = m.class? l := by
  rw [setEndpoint]
  refine class?_modifyFile m k.version ?_ l
  exact fun _ => rfl

@[simp] theorem domain?_setEndpoint (k l : Key) (e : Endpoint) :
    (m.setEndpoint k e).domain? l = m.domain? l := by
  rw [setEndpoint]
  refine domain?_modifyFile m k.version ?_ l
  exact fun _ => rfl

end Entities

section Counting

/-- The keys of all classes. -/
def classKeys (m : Model) : List Key :=
  m.versions.toList.zipIdx.flatMap fun p =>
    (List.range p.1.file.classes.length).map fun i => ⟨p.2, i⟩

theorem mem_classKeys {m : Model} {k : Key} (h : (m.class? k).isSome) : k ∈ m.classKeys := by
  obtain ⟨c, found⟩ := Option.isSome_iff_exists.mp h
  obtain ⟨ver, known, place⟩ := class?_eq_some found
  have member : (ver, k.version) ∈ m.versions.toList.zipIdx := by
    rw [List.mem_zipIdx_iff_getElem?, Array.getElem?_toList]
    exact known
  have bound : k.index < ver.file.classes.length :=
    (List.getElem?_eq_some_iff.mp place).1
  exact List.mem_flatMap.mpr ⟨(ver, k.version), member,
    List.mem_map.mpr ⟨k.index, List.mem_range.mpr bound, rfl⟩⟩

theorem length_classKeys (m : Model) : m.classKeys.length = m.classCount := by
  rw [classKeys, classCount, ← List.sum_eq_foldl, List.length_flatMap]
  simp only [List.length_map, List.length_range]
  rw [map_zipIdx_fst fun ver : Version => ver.file.classes.length]

/-- There are no more classes than are counted. -/
theorem length_le_classCount {m : Model} {ks : List Key} (once : ks.Nodup)
    (known : ∀ k ∈ ks, (m.class? k).isSome) : ks.length ≤ m.classCount := by
  rw [← length_classKeys]
  exact (once.subperm fun k hk => mem_classKeys (known k hk)).length_le

end Counting
end Model
end DataModel
