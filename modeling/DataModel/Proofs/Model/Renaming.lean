import DataModel.Model.Diagnostic
import DataModel.Proofs.Model.Linked

/-!
The identity of versions. Renaming gives the versions of a model other numbers, in every key that
names them; what a file declares stays the same. Two models are equal up to identity if one is a
renaming of the other.
-/
namespace DataModel

section Renaming
variable (ρ : VersionId → VersionId)

def Key.rename (k : Key) : Key := ⟨ρ k.version, k.index⟩

def Placeholder.rename (a : Placeholder) : Placeholder :=
  { a with listDomain := a.listDomain.map (Key.rename ρ) }

def Regular.rename (p : Regular) : Regular :=
  { p with
    domain := p.domain.map (Key.rename ρ)
    origin := p.origin.map (Placeholder.rename ρ) }

def Association.rename (p : Association) : Association :=
  { p with
    target := p.target.map (Key.rename ρ)
    origin := p.origin.map (Placeholder.rename ρ) }

def Composition.rename (p : Composition) : Composition :=
  { p with
    target := p.target.map (Key.rename ρ)
    domainKind := p.domainKind.map (Key.rename ρ) }

def Property.rename : Property → Property
  | .regular p => .regular (p.rename ρ)
  | .association p => .association (p.rename ρ)
  | .composition p => .composition (p.rename ρ)
  | .alias p => .alias (p.rename ρ)

def Class.rename (c : Class) : Class :=
  { c with
    parent := c.parent.map (Key.rename ρ)
    decorators := c.decorators.map (Key.rename ρ)
    properties := c.properties.map (Property.rename ρ) }

def Endpoint.rename (e : Endpoint) : Endpoint :=
  { e with
    params := e.params.map (Property.rename ρ)
    returns := e.returns.map (Property.rename ρ) }

def Converter.rename (c : Converter) : Converter :=
  { c with targets := c.targets.map (Key.rename ρ) }

def Domain.rename (d : Domain) : Domain :=
  { d with converters := d.converters.map (Converter.rename ρ) }

def ModelFile.rename (f : ModelFile) : ModelFile :=
  { f with
    domains := f.domains.map (Domain.rename ρ)
    classes := f.classes.map (Class.rename ρ)
    endpoints := f.endpoints.map (Endpoint.rename ρ) }

def Version.rename (v : Version) : Version where
  file := v.file.rename ρ
  classes := v.classes.map (Key.rename ρ)
  endpoints := v.endpoints.map (Key.rename ρ)
  sharedClasses := v.sharedClasses.map (Key.rename ρ)
  sharedEndpoints := v.sharedEndpoints.map (Key.rename ρ)

/-- The same file, found in another place. -/
def ModelFile.movedTo (f : ModelFile) (path : String) : ModelFile := { f with path }

def Version.movedTo (v : Version) (path : String) : Version := { v with file := v.file.movedTo path }

def Subject.rename : Subject → Subject
  | .file v => .file (ρ v)
  | .domain k => .domain (k.rename ρ)
  | .class k => .class (k.rename ρ)
  | .property p => .property (p.rename ρ)
  | .fileAlias a => .fileAlias a

def Diagnostic.rename (d : Diagnostic) : Diagnostic :=
  { d with
    file := d.file.map ρ
    subject := d.subject.map (Subject.rename ρ) }

end Renaming

section Identity

@[simp] theorem Key.rename_id : Key.rename id = id := rfl

@[simp] theorem Placeholder.rename_id : Placeholder.rename id = id := by
  funext a
  simp [Placeholder.rename]

@[simp] theorem Property.rename_id : Property.rename id = id := by
  funext p
  cases p with
  | regular p => simp [Property.rename, Regular.rename]
  | association p => simp [Property.rename, Association.rename]
  | composition p => simp [Property.rename, Composition.rename]
  | «alias» p => simp [Property.rename]

@[simp] theorem Class.rename_id : Class.rename id = id := by
  funext c
  simp [Class.rename]

@[simp] theorem Endpoint.rename_id : Endpoint.rename id = id := by
  funext e
  simp [Endpoint.rename]

@[simp] theorem Domain.rename_id : Domain.rename id = id := by
  funext d
  simp [Domain.rename, show Converter.rename id = id by funext c; simp [Converter.rename]]

@[simp] theorem Version.rename_id : Version.rename id = id := by
  funext v
  simp [Version.rename, ModelFile.rename]

@[simp] theorem Subject.rename_id : Subject.rename id = id := by
  funext subject
  cases subject with
  | file v => rfl
  | domain k => rfl
  | «class» k => rfl
  | property p => simp [Subject.rename]
  | fileAlias a => rfl

@[simp] theorem Diagnostic.rename_id : Diagnostic.rename id = id := by
  funext d
  simp [Diagnostic.rename]

end Identity

section Unlinked
variable (ρ : VersionId → VersionId)

theorem Answers.rename_unlinked {k : Option Key} {r : Option Reference}
    (h : Answers (fun _ _ => False) k r) : k.map (Key.rename ρ) = k := by
  cases k with
  | none => rfl
  | some key =>
      obtain ⟨_, _, never⟩ := h key rfl
      exact never.elim

theorem Stand.rename_unlinked {ks : List Key} {rs : List Reference}
    (h : Stand (fun _ _ => False) ks rs) : ks.map (Key.rename ρ) = ks := by
  cases ks with
  | nil => rfl
  | cons k ks =>
      obtain ⟨_, _, never⟩ := h.mem List.mem_cons_self
      exact never.elim

theorem map_eq_self {α : Type} {f : α → α} {xs : List α} (h : ∀ x ∈ xs, f x = x) :
    xs.map f = xs := by
  rw [List.map_congr_left h, List.map_id']

theorem Placeholder.rename_unlinked {a : Placeholder} (h : a.Linked .none) : a.rename ρ = a := by
  rw [Placeholder.rename, Answers.rename_unlinked ρ h]

theorem Property.rename_unlinked {p : Property} (h : p.Linked .none) : p.rename ρ = p := by
  have origin : ∀ o : Option Placeholder, (∀ a, o = some a → a.Linked .none) →
      o.map (Placeholder.rename ρ) = o := by
    intro o made
    cases o with
    | none => rfl
    | some a => rw [Option.map_some, Placeholder.rename_unlinked ρ (made a rfl)]
  cases p with
  | regular p =>
      rw [Property.rename, Regular.rename, h.domain.rename_unlinked ρ, origin p.origin h.origin]
  | association p =>
      rw [Property.rename, Association.rename, h.target.rename_unlinked ρ,
        origin p.origin h.origin]
  | composition p =>
      rw [Property.rename, Composition.rename, h.target.rename_unlinked ρ,
        h.domainKind.rename_unlinked ρ]
  | «alias» p => exact congrArg Property.alias (Placeholder.rename_unlinked ρ h)

theorem Class.rename_unlinked {c : Class} (h : c.Linked .none) : c.rename ρ = c := by
  have properties : c.properties.map (Property.rename ρ) = c.properties :=
    map_eq_self fun p hp => Property.rename_unlinked ρ (h.properties p hp)
  rw [Class.rename, h.parent.rename_unlinked ρ, h.decorators.rename_unlinked ρ, properties]

theorem Endpoint.rename_unlinked {e : Endpoint} (h : e.Linked .none) : e.rename ρ = e := by
  have params : e.params.map (Property.rename ρ) = e.params :=
    map_eq_self fun p hp => Property.rename_unlinked ρ (h.params p hp)
  have returns : e.returns.map (Property.rename ρ) = e.returns := by
    cases given : e.returns with
    | none => rfl
    | some p => rw [Option.map_some, Property.rename_unlinked ρ (h.returns p given)]
  rw [Endpoint.rename, params, returns]

theorem Domain.rename_unlinked {d : Domain} (h : d.Linked .none) : d.rename ρ = d := by
  have converters : d.converters.map (Converter.rename ρ) = d.converters := by
    refine map_eq_self fun c hc => ?_
    rw [Converter.rename, Stand.rename_unlinked ρ (h c hc)]
  rw [Domain.rename, converters]

/-- A file just loaded is the same under any identity. -/
theorem ModelFile.rename_unlinked {f : ModelFile} (h : f.Unlinked) : f.rename ρ = f := by
  have domains : f.domains.map (Domain.rename ρ) = f.domains :=
    map_eq_self fun d hd => Domain.rename_unlinked ρ (h.domains d hd)
  have classes : f.classes.map (Class.rename ρ) = f.classes :=
    map_eq_self fun c hc => Class.rename_unlinked ρ (h.classes c hc)
  have endpoints : f.endpoints.map (Endpoint.rename ρ) = f.endpoints :=
    map_eq_self fun e he => Endpoint.rename_unlinked ρ (h.endpoints e he)
  rw [ModelFile.rename, domains, classes, endpoints]

theorem Version.fresh_rename {v : VersionId} {f : ModelFile} (h : f.Unlinked) :
    (Version.fresh v f).rename ρ = Version.fresh (ρ v) f := by
  simp [Version.rename, Version.fresh, ModelFile.rename_unlinked ρ h, Key.rename]

end Unlinked

section Moving
variable {ρ : VersionId → VersionId}

/-- What was only renamed stands where it stood. -/
theorem exists_movedTo {o o' : Option Version} (h : o' = o.map (Version.rename ρ)) :
    ∃ path, o' = o.map fun v => (v.rename ρ).movedTo path := by
  cases o with
  | none => exact ⟨"", h⟩
  | some v => exact ⟨v.file.path, h⟩

end Moving

section Properties
variable (ρ : VersionId → VersionId)

@[simp] theorem Property.location_rename (p : Property) : (p.rename ρ).location = p.location := by
  cases p <;> rfl

@[simp] theorem Property.isPrimaryKey_rename (p : Property) :
    (p.rename ρ).isPrimaryKey = p.isPrimaryKey := by
  cases p <;> rfl

@[simp] theorem Property.isField_rename (p : Property) : (p.rename ρ).isField = p.isField := by
  cases p <;> rfl

@[simp] theorem Property.isAlias_rename (p : Property) : (p.rename ρ).isAlias = p.isAlias := by
  cases p <;> rfl

@[simp] theorem Property.alias?_rename (p : Property) :
    (p.rename ρ).alias? = p.alias?.map (Placeholder.rename ρ) := by
  cases p <;> rfl

@[simp] theorem Property.origin?_rename (p : Property) :
    (p.rename ρ).origin? = p.origin?.map (Placeholder.rename ρ) := by
  cases p <;> rfl

theorem Class.primaryKeys_rename (c : Class) :
    (c.rename ρ).primaryKeys = c.primaryKeys.map (Property.rename ρ) := by
  show (c.properties.map (Property.rename ρ)).filter _ = (c.properties.filter _).map _
  rw [List.filter_map]
  congr 1
  refine List.filter_congr fun p _ => ?_
  exact Property.isPrimaryKey_rename ρ p

end Properties

section Injective
variable {ρ : VersionId → VersionId}

theorem Key.rename_injective (inj : ρ.Injective) : (Key.rename ρ).Injective := by
  intro k l h
  cases k
  cases l
  simp only [Key.rename, Key.mk.injEq] at h
  exact Key.mk.injEq .. ▸ ⟨inj h.1, h.2⟩

theorem Placeholder.rename_injective (inj : ρ.Injective) : (Placeholder.rename ρ).Injective := by
  intro a b h
  cases a
  cases b
  simp only [Placeholder.rename, Placeholder.mk.injEq] at h ⊢
  have listDomain := Option.map_injective (Key.rename_injective inj) h.2.2.2.2.2.2.2.2.2.2.2
  tauto

theorem contains_map {α : Type} [DecidableEq α] {f : α → α} (inj : f.Injective) (xs : List α)
    (x : α) : (xs.map f).contains (f x) = xs.contains x := by
  rw [Bool.eq_iff_iff, List.contains_iff_mem, List.contains_iff_mem,
    List.mem_map_of_injective inj]

theorem Version.ownClasses_rename (inj : ρ.Injective) (v : Version) :
    (v.rename ρ).ownClasses = v.ownClasses.map (Key.rename ρ) := by
  show (v.classes.map (Key.rename ρ)).filter _ = (v.classes.filter _).map _
  rw [List.filter_map]
  congr 1
  refine List.filter_congr fun k _ => ?_
  exact congrArg (!·) (contains_map (Key.rename_injective inj) v.sharedClasses k)

theorem Version.ownEndpoints_rename (inj : ρ.Injective) (v : Version) :
    (v.rename ρ).ownEndpoints = v.ownEndpoints.map (Key.rename ρ) := by
  show (v.endpoints.map (Key.rename ρ)).filter _ = (v.endpoints.filter _).map _
  rw [List.filter_map]
  congr 1
  refine List.filter_congr fun k _ => ?_
  exact congrArg (!·) (contains_map (Key.rename_injective inj) v.sharedEndpoints k)

end Injective
end DataModel
