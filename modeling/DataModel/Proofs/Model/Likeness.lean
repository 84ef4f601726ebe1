import DataModel.Proofs.Model.Names
import DataModel.Proofs.Model.Renaming

/-!
Models that are alike as far as a horizon goes. What one holds there, the other holds under other
identities, perhaps found in other places, and nothing there is bound to anything outside, so
whoever reads only what is within reach reads the same in both. Alike models stay so when both are
changed alike.
-/
namespace DataModel.Model
variable {ρ : VersionId → VersionId} {H : Horizon} {m m' : Model}

/-- A model that holds, under other identities, what another one holds within a horizon. -/
structure Like (ρ : VersionId → VersionId) (H : Horizon) (m m' : Model) : Prop where
  same : ∀ {v}, H.files v → ∃ path, m'.version? (ρ v) =
    (m.version? v).map fun ver => (ver.rename ρ).movedTo path
  linked : ∀ {v ver}, H.files v → m.version? v = some ver → ver.Linked H
  domains : ∀ {name k}, H.domains name k → m'.fileName (ρ k.version) = m.fileName k.version

namespace Like

section Reading
variable (h : Like ρ H m m')
include h

theorem file? {v : VersionId} (reach : H.files v) : ∃ path, m'.file? (ρ v) =
    (m.file? v).map fun f => (f.rename ρ).movedTo path := by
  obtain ⟨path, same⟩ := h.same reach
  refine ⟨path, ?_⟩
  rw [Model.file?, Model.file?, same, Option.map_map, Option.map_map]
  rfl

/-- Whatever does not tell where a file was found reads the same. -/
theorem reading {α : Type} {read : ModelFile → α} {v : VersionId} (reach : H.files v)
    (still : ∀ f path, read (f.movedTo path) = read f) :
    (m'.file? (ρ v)).map read = (m.file? v).map fun f => read (f.rename ρ) := by
  obtain ⟨path, same⟩ := h.file? reach
  rw [same, Option.map_map]
  exact congrArg (Option.map · _) (funext fun f => still _ _)

/-- What was found in the same place is the same under another identity. -/
theorem exact {v : VersionId} (reach : H.files v)
    (place : (m'.file? (ρ v)).map (·.path) = (m.file? v).map (·.path)) :
    m'.version? (ρ v) = (m.version? v).map (Version.rename ρ) := by
  obtain ⟨path, same⟩ := h.same reach
  rw [Model.file?, Model.file?, same] at place
  rw [same]
  cases known : m.version? v with
  | none => rfl
  | some ver =>
      rw [known] at place
      cases Option.some.inj place
      rfl

theorem fileName {v : VersionId} (reach : H.files v) : m'.fileName (ρ v) = m.fileName v := by
  rw [Model.fileName, Model.fileName, h.reading reach fun _ _ => rfl]
  rfl

theorem uses {v : VersionId} (reach : H.files v) : m'.uses (ρ v) = m.uses v := by
  rw [Model.uses, Model.uses, h.reading reach fun _ _ => rfl]
  rfl

theorem classes {v : VersionId} (reach : H.files v) :
    m'.classes (ρ v) = (m.classes v).map (Key.rename ρ) := by
  obtain ⟨path, same⟩ := h.same reach
  rw [Model.classes, Model.classes, same]
  cases m.version? v <;> rfl

theorem endpoints {v : VersionId} (reach : H.files v) :
    m'.endpoints (ρ v) = (m.endpoints v).map (Key.rename ρ) := by
  obtain ⟨path, same⟩ := h.same reach
  rw [Model.endpoints, Model.endpoints, same]
  cases m.version? v <;> rfl

theorem ownClasses (inj : ρ.Injective) {v : VersionId} (reach : H.files v) :
    m'.ownClasses (ρ v) = (m.ownClasses v).map (Key.rename ρ) := by
  obtain ⟨path, same⟩ := h.same reach
  rw [Model.ownClasses, Model.ownClasses, same]
  cases m.version? v with
  | none => rfl
  | some ver => exact ver.ownClasses_rename inj

theorem ownEndpoints (inj : ρ.Injective) {v : VersionId} (reach : H.files v) :
    m'.ownEndpoints (ρ v) = (m.ownEndpoints v).map (Key.rename ρ) := by
  obtain ⟨path, same⟩ := h.same reach
  rw [Model.ownEndpoints, Model.ownEndpoints, same]
  cases m.version? v with
  | none => rfl
  | some ver => exact ver.ownEndpoints_rename inj

theorem class? {k : Key} (reach : H.files k.version) :
    m'.class? (k.rename ρ) = (m.class? k).map (Class.rename ρ) := by
  obtain ⟨path, same⟩ := h.file? reach
  rw [Model.class?, Model.class?]
  show (m'.file? (ρ k.version)).bind (·.classes[k.index]?) = _
  rw [same]
  cases m.file? k.version with
  | none => rfl
  | some f => exact List.getElem?_map

theorem endpoint? {k : Key} (reach : H.files k.version) :
    m'.endpoint? (k.rename ρ) = (m.endpoint? k).map (Endpoint.rename ρ) := by
  obtain ⟨path, same⟩ := h.file? reach
  rw [Model.endpoint?, Model.endpoint?]
  show (m'.file? (ρ k.version)).bind (·.endpoints[k.index]?) = _
  rw [same]
  cases m.file? k.version with
  | none => rfl
  | some f => exact List.getElem?_map

theorem class_linked {k : Key} (reach : H.files k.version) {c : Class}
    (found : m.class? k = some c) : c.Linked H := by
  obtain ⟨ver, known, place⟩ := class?_eq_some found
  exact (h.linked reach known).file.classes c (List.mem_of_getElem? place)

theorem endpoint_linked {k : Key} (reach : H.files k.version) {e : Endpoint}
    (found : m.endpoint? k = some e) : e.Linked H := by
  obtain ⟨ver, known, place⟩ := endpoint?_eq_some found
  exact (h.linked reach known).file.endpoints e (List.mem_of_getElem? place)

theorem classes_within {v : VersionId} (reach : H.files v) {k : Key} (hk : k ∈ m.classes v) :
    H.files k.version := by
  rw [Model.classes] at hk
  cases known : m.version? v with
  | none =>
      rw [known] at hk
      cases hk
  | some ver =>
      rw [known] at hk
      exact (h.linked reach known).classes k hk

theorem endpoints_within {v : VersionId} (reach : H.files v) {k : Key}
    (hk : k ∈ m.endpoints v) : H.files k.version := by
  rw [Model.endpoints] at hk
  cases known : m.version? v with
  | none =>
      rw [known] at hk
      cases hk
  | some ver =>
      rw [known] at hk
      exact (h.linked reach known).endpoints k hk

theorem associationName? (fuel : Nat) {a : Association} (linked : a.Linked H) :
    m'.associationName? fuel (a.rename ρ) = m.associationName? fuel a := by
  induction fuel generalizing a with
  | zero => rfl
  | succ fuel ih =>
      simp only [Model.associationName?, Association.rename]
      cases a.givenName with
      | some name => rfl
      | none =>
          cases bound : a.target with
          | none => rfl
          | some k =>
              obtain ⟨_, -, allowed⟩ := linked.target k bound
              have reach := H.classes_files allowed
              simp only [Option.map_some, Option.bind_some]
              rw [h.class? reach]
              cases found : m.class? k with
              | none => rfl
              | some c =>
                  simp only [Option.map_some, c.primaryKeys_rename]
                  rcases keys : c.primaryKeys with _ | ⟨p, _ | ⟨q, rest⟩⟩
                  · rfl
                  · cases p with
                    | regular p => rfl
                    | association key =>
                        have member : Property.association key ∈ c.properties :=
                          (List.mem_filter.mp (keys ▸ List.mem_singleton_self _)).1
                        have key_linked := (h.class_linked reach found).properties _ member
                        simp only [List.map_cons, List.map_nil, Property.rename]
                        rw [ih key_linked]
                        rfl
                    | composition p => rfl
                    | «alias» p => rfl
                  · cases p <;> rfl

theorem propertyName? {p : Property} (linked : p.Linked H) :
    m'.propertyName? (p.rename ρ) = m.propertyName? p := by
  cases p with
  | regular p => rfl
  | association a =>
      show m'.associationName? _ (a.rename ρ) = m.associationName? _ a
      refine Option.ext fun name => ?_
      rw [associationName?_eq_some_iff, associationName?_eq_some_iff]
      simp only [h.associationName? _ linked]
  | composition p => rfl
  | «alias» p => rfl

end Reading

section Changing

/-- Alike changes of one version within reach keep models alike. -/
theorem modify (inj : ρ.Injective) (h : Like ρ H m m') {v : VersionId} {f g : Version → Version}
    (reach : H.files v)
    (alike : ∀ ver path, m.version? v = some ver →
      g ((ver.rename ρ).movedTo path) = ((f ver).rename ρ).movedTo path)
    (linked : ∀ ver, m.version? v = some ver → (f ver).Linked H)
    (name : ∀ ver, m.version? v = some ver → (f ver).file.name = ver.file.name) :
    Like ρ H (m.modify v f) (m'.modify (ρ v) g) := by
  refine ⟨?_, ?_, ?_⟩
  · intro w hw
    obtain ⟨path, same⟩ := h.same hw
    refine ⟨path, ?_⟩
    rw [version?_modify, version?_modify, same]
    by_cases here : v = w
    · subst here
      rw [if_pos rfl, if_pos rfl]
      cases known : m.version? v with
      | none => rfl
      | some ver => exact congrArg some (alike ver path known)
    · rw [if_neg here, if_neg (inj.ne here)]
  · intro w ver hw known
    rw [version?_modify] at known
    by_cases here : v = w
    · subst here
      rw [if_pos rfl, Option.map_eq_some_iff] at known
      obtain ⟨old, known, rfl⟩ := known
      exact linked old known
    · rw [if_neg here] at known
      exact h.linked hw known
  · intro domain k allowed
    have before := h.domains allowed
    by_cases here : v = k.version
    · subst here
      obtain ⟨path, same⟩ := h.same reach
      simp only [Model.fileName, Model.file?, version?_modify, if_pos] at before ⊢
      rw [same]
      cases known : m.version? k.version with
      | none => rfl
      | some ver =>
          simp only [Option.map_some]
          rw [alike ver path known]
          rfl
    · rw [fileName_congr (version?_modify_other (Ne.symm here)),
        fileName_congr (version?_modify_other (inj.ne (Ne.symm here)))]
      exact before

theorem setClass (inj : ρ.Injective) (h : Like ρ H m m') {k : Key} {c : Class}
    (reach : H.files k.version) (linked : c.Linked H) :
    Like ρ H (m.setClass k c) (m'.setClass (k.rename ρ) (c.rename ρ)) := by
  refine h.modify inj reach ?_ ?_ (fun ver known => rfl)
  · intro ver path known
    simp only [Version.rename, ModelFile.rename, List.map_set]
    rfl
  · intro ver known
    have old := h.linked reach known
    refine ⟨⟨old.file.domains, ?_, old.file.endpoints⟩, old.classes, old.endpoints,
      old.sharedClasses, old.sharedEndpoints⟩
    intro c' hc'
    rcases List.mem_or_eq_of_mem_set hc' with before | rfl
    · exact old.file.classes c' before
    · exact linked

theorem setEndpoint (inj : ρ.Injective) (h : Like ρ H m m') {k : Key} {e : Endpoint}
    (reach : H.files k.version) (linked : e.Linked H) :
    Like ρ H (m.setEndpoint k e) (m'.setEndpoint (k.rename ρ) (e.rename ρ)) := by
  refine h.modify inj reach ?_ ?_ (fun ver known => rfl)
  · intro ver path known
    simp only [Version.rename, ModelFile.rename, List.map_set]
    rfl
  · intro ver known
    have old := h.linked reach known
    refine ⟨⟨old.file.domains, old.file.classes, ?_⟩, old.classes, old.endpoints,
      old.sharedClasses, old.sharedEndpoints⟩
    intro e' he'
    rcases List.mem_or_eq_of_mem_set he' with before | rfl
    · exact old.file.endpoints e' before
    · exact linked

end Changing
end Like
end DataModel.Model
