import DataModel.Proofs.Model.Evolution
import DataModel.Proofs.Model.Relinking

/-!
A file whose classes come in another order. Each class is then found under another key, which is
told by where the class stands in the new order. Nothing else is moved: links that end in other
versions stay as they are.
-/
namespace DataModel

section Linked
variable {H : Horizon} {σ : Key → Key} (fixed : ∀ {name k}, H.classes name k → σ k = k)
include fixed

/-- Links to keys that stay are as they were. -/
theorem Answers.map_key {k : Option Key} {r : Option Reference} (h : Answers H.classes k r) :
    k.map σ = k := by
  cases k with
  | none => rfl
  | some key =>
      obtain ⟨ref, -, allows⟩ := h key rfl
      exact congrArg some (fixed allows)

theorem Property.Linked.relink {p : Property} (h : p.Linked H) : p.relink σ = p := by
  cases p with
  | regular p => rfl
  | association p =>
      have target : p.target.map σ = p.target := Answers.map_key fixed h.target
      rw [Property.relink, Association.relink, target]
  | composition p =>
      have target : p.target.map σ = p.target := Answers.map_key fixed h.target
      rw [Property.relink, Composition.relink, target]
  | «alias» p => rfl

theorem Class.Linked.relink {c : Class} (h : c.Linked H) : c.relink σ = c := by
  have properties : c.properties.map (Property.relink σ) = c.properties :=
    (List.map_congr_left fun p hp => (h.properties p hp).relink fixed).trans (List.map_id _)
  rw [Class.relink, properties, Answers.map_key fixed h.parent]

theorem Endpoint.Linked.relink {e : Endpoint} (h : e.Linked H) : e.relink σ = e := by
  have params : e.params.map (Property.relink σ) = e.params :=
    (List.map_congr_left fun p hp => (h.params p hp).relink fixed).trans (List.map_id _)
  have returns : e.returns.map (Property.relink σ) = e.returns := by
    cases given : e.returns with
    | none => rfl
    | some p => exact congrArg some ((h.returns p given).relink fixed)
  rw [Endpoint.relink, params, returns]

end Linked

section Places
variable {α : Type} [DecidableEq α] {xs ys : List α}

/-- Where an element of a list stands in another one. -/
def place (xs ys : List α) (i : Nat) : Nat := (xs[i]?).elim i ys.idxOf

theorem getElem?_place (perm : ys.Perm xs) (i : Nat) : ys[place xs ys i]? = xs[i]? := by
  unfold place
  cases found : xs[i]? with
  | none =>
      rw [List.getElem?_eq_none_iff] at found
      exact List.getElem?_eq_none (perm.length_eq ▸ found)
  | some a => exact List.getElem?_idxOf (perm.mem_iff.mpr (List.mem_of_getElem? found))

theorem place_injective (once : xs.Nodup) (perm : ys.Perm xs) : (place xs ys).Injective := by
  intro i j same
  have read : xs[i]? = xs[j]? := by
    rw [← getElem?_place perm i, ← getElem?_place perm j, same]
  by_cases inside : i < xs.length
  · exact (List.getElem?_inj inside once).mp read
  · have outside : xs[i]? = none := List.getElem?_eq_none (Nat.le_of_not_lt inside)
    rw [place, place, ← read, outside] at same
    exact same

end Places

section Keys
variable {v : VersionId} {cs cs' : List Class}

/-- The key of a class after those of its version were put in another order. -/
def Key.rearranged (v : VersionId) (cs cs' : List Class) (k : Key) : Key :=
  if k.version = v then ⟨v, place cs cs' k.index⟩ else k

theorem Key.rearranged_own (i : Nat) :
    Key.rearranged v cs cs' ⟨v, i⟩ = ⟨v, place cs cs' i⟩ := if_pos rfl

theorem Key.rearranged_other {k : Key} (other : k.version ≠ v) :
    Key.rearranged v cs cs' k = k := if_neg other

theorem Key.version_rearranged (k : Key) : (Key.rearranged v cs cs' k).version = k.version := by
  by_cases here : k.version = v
  · rw [Key.rearranged, if_pos here, here]
  · rw [Key.rearranged_other here]

theorem Key.rearranged_injective (once : cs.Nodup) (perm : cs'.Perm cs) :
    (Key.rearranged v cs cs').Injective := by
  intro k l same
  have versions : k.version = l.version := by
    have read := congrArg Key.version same
    rwa [Key.version_rearranged, Key.version_rearranged] at read
  by_cases here : k.version = v
  · rw [Key.rearranged, Key.rearranged, if_pos here, if_pos (versions ▸ here)] at same
    exact Key.ext versions (place_injective once perm (congrArg Key.index same))
  · rwa [Key.rearranged_other here, Key.rearranged_other (versions ▸ here)] at same

end Keys

namespace Model

/-- A model with a file just loaded, to whose classes no other file links yet, and one in which
that file has its classes, all of different names, in another order. -/
structure Rearranges (v : VersionId) (f : ModelFile) (cs : List Class) (m m' : Model) : Prop where
  fresh : m.version? v = some (.fresh v f)
  fresh' : m'.version? v = some (.fresh v { f with classes := cs })
  others : ∀ {w}, w ≠ v → m'.version? w = m.version? w
  linked : ∀ {w ver}, w ≠ v → m.version? w = some ver → ver.Linked (.among (· ≠ v))
  perm : cs.Perm f.classes
  names : (f.classes.map (·.name)).Nodup

namespace Rearranges
variable {v : VersionId} {f : ModelFile} {cs : List Class} {m m' : Model}

theorem symm (h : Rearranges v f cs m m') :
    Rearranges v { f with classes := cs } f.classes m' m where
  fresh := h.fresh'
  fresh' := h.fresh
  others other := (h.others other).symm
  linked other known := h.linked other ((h.others other).symm.trans known)
  perm := h.perm.symm
  names := (h.perm.map _).nodup_iff.mpr h.names

theorem once (h : Rearranges v f cs m m') : f.classes.Nodup := h.names.of_map _

theorem injective (h : Rearranges v f cs m m') :
    (Key.rearranged v f.classes cs).Injective := Key.rearranged_injective h.once h.perm

/-- Every class is found under its new key. -/
theorem class? (h : Rearranges v f cs m m') (k : Key) :
    m'.class? (k.rearranged v f.classes cs) = m.class? k := by
  obtain ⟨w, i⟩ := k
  by_cases here : w = v
  · subst here
    rw [Key.rearranged_own, Model.class?, Model.class?, file?, file?, h.fresh, h.fresh']
    exact getElem?_place h.perm i
  · rw [Key.rearranged_other here]
    exact class?_congr (h.others here)

theorem endpoint? (h : Rearranges v f cs m m') (k : Key) : m'.endpoint? k = m.endpoint? k := by
  by_cases here : k.version = v
  · rw [Model.endpoint?, Model.endpoint?, file?, file?, here, h.fresh, h.fresh']
    rfl
  · exact endpoint?_congr (h.others here)

theorem domain? (h : Rearranges v f cs m m') (k : Key) : m'.domain? k = m.domain? k := by
  by_cases here : k.version = v
  · rw [Model.domain?, Model.domain?, file?, file?, here, h.fresh, h.fresh']
    rfl
  · exact domain?_congr (h.others here)

/-- What does not depend on the classes is as it was. -/
theorem reading (h : Rearranges v f cs m m') {α : Type} {read : ModelFile → α}
    (same : ∀ f cs, read { f with classes := cs } = read f) (w : VersionId) :
    (m'.file? w).map read = (m.file? w).map read := by
  by_cases here : w = v
  · rw [file?, file?, here, h.fresh, h.fresh']
    exact congrArg some (same f cs)
  · rw [file?_congr (h.others here)]

theorem fileName (h : Rearranges v f cs m m') : m'.fileName = m.fileName := by
  funext w
  rw [Model.fileName, Model.fileName, h.reading fun _ _ => rfl]

theorem uses (h : Rearranges v f cs m m') (w : VersionId) : m'.uses w = m.uses w := by
  rw [Model.uses, Model.uses, h.reading fun _ _ => rfl]

/-- The own classes are those of before, under their new keys. -/
theorem mem_ownClasses (h : Rearranges v f cs m m') {k : Key} :
    k.rearranged v f.classes cs ∈ m'.ownClasses v ↔ k ∈ m.ownClasses v := by
  rw [mem_ownClasses_of_fresh h.fresh, mem_ownClasses_of_fresh h.fresh', h.class?,
    Key.version_rearranged]

theorem ownClasses (h : Rearranges v f cs m m') :
    (m'.ownClasses v).Perm ((m.ownClasses v).map (Key.rearranged v f.classes cs)) := by
  have once := (nodup_ownClasses_of_fresh h.fresh).map h.injective
  have inside : (m.ownClasses v).map (Key.rearranged v f.classes cs) ⊆ m'.ownClasses v := by
    intro k' hk'
    obtain ⟨k, hk, rfl⟩ := List.mem_map.mp hk'
    exact h.mem_ownClasses.mpr hk
  refine ((once.subperm inside).perm_of_length_le ?_).symm
  rw [ownClasses_of_fresh h.fresh, ownClasses_of_fresh h.fresh', classes, classes, h.fresh, h.fresh']
  simp [Version.fresh, h.perm.length_eq]

theorem ownEndpoints (h : Rearranges v f cs m m') : m'.ownEndpoints v = m.ownEndpoints v := by
  rw [ownEndpoints_of_fresh h.fresh, ownEndpoints_of_fresh h.fresh', endpoints, endpoints,
    h.fresh, h.fresh']
  rfl

theorem offered_other (h : Rearranges v f cs m m') {w : VersionId} (other : w ≠ v) {k : Key}
    (offered : k ∈ m.classes w) : k.version ≠ v := by
  rw [classes] at offered
  cases known : m.version? w with
  | none =>
      rw [known] at offered
      cases offered
  | some ver =>
      rw [known] at offered
      exact (h.linked other known).classes k offered

/-- Links of other files do not end in the rearranged one. -/
theorem relink_other (h : Rearranges v f cs m m') {k : Key} (other : k.version ≠ v) :
    m'.class? k = (m.class? k).map (Class.relink (Key.rearranged v f.classes cs)) := by
  rw [class?_congr (h.others other)]
  cases found : m.class? k with
  | none => rfl
  | some c =>
      obtain ⟨ver, known, place⟩ := class?_eq_some found
      have linked := (h.linked other known).file.classes c (List.mem_of_getElem? place)
      exact congrArg some (linked.relink fun allowed => Key.rearranged_other allowed).symm

theorem relink_otherEndpoint (h : Rearranges v f cs m m') {k : Key} (other : k.version ≠ v) :
    m'.endpoint? k = (m.endpoint? k).map (Endpoint.relink (Key.rearranged v f.classes cs)) := by
  rw [endpoint?_congr (h.others other)]
  cases found : m.endpoint? k with
  | none => rfl
  | some e =>
      obtain ⟨ver, known, place⟩ := endpoint?_eq_some found
      have linked := (h.linked other known).file.endpoints e (List.mem_of_getElem? place)
      exact congrArg some (linked.relink fun allowed => Key.rearranged_other allowed).symm

end Rearranges
end Model
end DataModel
