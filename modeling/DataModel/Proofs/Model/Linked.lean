import Mathlib.Data.List.Forall2
import DataModel.Model.Version

/-!
What the keys in a version may be. A horizon says which files can be reached and which keys stand
for a name of a class, a decorator or a domain; a version is linked to it if every key it holds is
one that the horizon allows for the reference beside it. A file just loaded holds no keys, so it
is linked to any horizon.
-/
namespace DataModel

/-- The files within reach, and the keys that a name may be bound to. -/
structure Horizon where
  files : VersionId → Prop
  classes : String → Key → Prop
  decorators : String → Key → Prop
  domains : String → Key → Prop
  classes_files : ∀ {name k}, classes name k → files k.version

namespace Horizon

/-- Nothing is within reach. -/
def none : Horizon where
  files _ := False
  classes _ _ := False
  decorators _ _ := False
  domains _ _ := False
  classes_files h := h

/-- A horizon that allows no more than another. -/
structure Within (H H' : Horizon) : Prop where
  files : ∀ {v}, H.files v → H'.files v
  classes : ∀ {name k}, H.classes name k → H'.classes name k
  decorators : ∀ {name k}, H.decorators name k → H'.decorators name k
  domains : ∀ {name k}, H.domains name k → H'.domains name k

theorem none_within (H : Horizon) : none.Within H := ⟨False.elim, False.elim, False.elim, False.elim⟩

/-- The bound of links that may end in some versions only. -/
def of (known : VersionId → Prop) : Horizon where
  files := known
  classes _ k := known k.version
  decorators _ k := known k.version
  domains _ k := known k.version
  classes_files h := h

theorem of_within {known known' : VersionId → Prop} (h : ∀ v, known v → known' v) :
    (of known).Within (of known') :=
  ⟨fun k => h _ k, fun k => h _ k, fun k => h _ k, fun k => h _ k⟩

/-- The bound of links that may end in some versions only, but for domains, which are known
everywhere. -/
def among (known : VersionId → Prop) : Horizon where
  files := known
  classes _ k := known k.version
  decorators _ k := known k.version
  domains _ _ := True
  classes_files h := h

theorem among_within {known known' : VersionId → Prop} (h : ∀ v, known v → known' v) :
    (among known).Within (among known') :=
  ⟨fun k => h _ k, fun k => h _ k, fun k => h _ k, id⟩

end Horizon

/-- Keys that stand for some of a list of references, in their order. -/
def Stand (allowed : String → Key → Prop) (ks : List Key) (rs : List Reference) : Prop :=
  List.SublistForall₂ (fun k r => allowed r.name k) ks rs

theorem Stand.mono {allowed allowed' : String → Key → Prop} {ks : List Key} {rs : List Reference}
    (h : Stand allowed ks rs) (more : ∀ {name k}, allowed name k → allowed' name k) :
    Stand allowed' ks rs := by
  unfold Stand at h ⊢
  induction h with
  | nil => exact .nil
  | cons first rest ih => exact .cons (more first) ih
  | cons_right rest ih => exact .cons_right ih

theorem Stand.mem {allowed : String → Key → Prop} {ks : List Key} {rs : List Reference}
    (h : Stand allowed ks rs) {k : Key} (hk : k ∈ ks) : ∃ r ∈ rs, allowed r.name k := by
  unfold Stand at h
  induction h with
  | nil => cases hk
  | cons first rest ih =>
      rcases List.mem_cons.mp hk with rfl | later
      · exact ⟨_, List.mem_cons_self, first⟩
      · obtain ⟨r, hr, allows⟩ := ih later
        exact ⟨r, List.mem_cons_of_mem _ hr, allows⟩
  | cons_right rest ih =>
      obtain ⟨r, hr, allows⟩ := ih hk
      exact ⟨r, List.mem_cons_of_mem _ hr, allows⟩

/-- A key that may be bound to an optional reference. -/
def Answers (allowed : String → Key → Prop) (k : Option Key) (r : Option Reference) : Prop :=
  ∀ key, k = some key → ∃ ref, r = some ref ∧ allowed ref.name key

theorem Answers.none {allowed : String → Key → Prop} {r : Option Reference} :
    Answers allowed none r := fun _ h => by cases h

theorem Answers.mono {allowed allowed' : String → Key → Prop} {k : Option Key}
    {r : Option Reference} (h : Answers allowed k r)
    (more : ∀ {name k}, allowed name k → allowed' name k) : Answers allowed' k r := by
  intro key bound
  obtain ⟨ref, refers, allows⟩ := h key bound
  exact ⟨ref, refers, more allows⟩

section Linked
variable (H : Horizon)

def Placeholder.Linked (a : Placeholder) : Prop :=
  Answers H.domains a.listDomain a.listDomainReference

structure Regular.Linked (p : Regular) : Prop where
  domain : Answers H.domains p.domain (some p.domainReference)
  origin : ∀ a, p.origin = some a → a.Linked H

structure Association.Linked (p : Association) : Prop where
  target : Answers H.classes p.target (some p.reference)
  origin : ∀ a, p.origin = some a → a.Linked H

structure Composition.Linked (p : Composition) : Prop where
  target : Answers H.classes p.target (some p.reference)
  domainKind : Answers H.domains p.domainKind p.domainKindReference

def Property.Linked : Property → Prop
  | .regular p => p.Linked H
  | .association p => p.Linked H
  | .composition p => p.Linked H
  | .alias p => p.Linked H

structure Class.Linked (c : Class) : Prop where
  parent : Answers H.classes c.parent c.parentReference
  decorators : Stand H.decorators c.decorators c.decoratorReferences
  properties : ∀ p ∈ c.properties, p.Linked H

structure Endpoint.Linked (e : Endpoint) : Prop where
  params : ∀ p ∈ e.params, p.Linked H
  returns : ∀ p, e.returns = some p → p.Linked H

def Converter.Linked (c : Converter) : Prop := Stand H.domains c.targets c.targetReferences

def Domain.Linked (d : Domain) : Prop := ∀ c ∈ d.converters, c.Linked H

structure ModelFile.Linked (f : ModelFile) : Prop where
  domains : ∀ d ∈ f.domains, d.Linked H
  classes : ∀ c ∈ f.classes, c.Linked H
  endpoints : ∀ e ∈ f.endpoints, e.Linked H

structure Version.Linked (v : Version) : Prop where
  file : v.file.Linked H
  classes : ∀ k ∈ v.classes, H.files k.version
  endpoints : ∀ k ∈ v.endpoints, H.files k.version
  sharedClasses : ∀ k ∈ v.sharedClasses, H.files k.version
  sharedEndpoints : ∀ k ∈ v.sharedEndpoints, H.files k.version

end Linked

section Mono
variable {H H' : Horizon}

theorem Placeholder.Linked.mono {a : Placeholder} (h : a.Linked H) (le : H.Within H') :
    a.Linked H' := Answers.mono h le.domains

theorem Property.Linked.mono {p : Property} (h : p.Linked H) (le : H.Within H') :
    p.Linked H' := by
  cases p with
  | regular p =>
      exact ⟨h.domain.mono le.domains, fun a made => (h.origin a made).mono le⟩
  | association p =>
      exact ⟨h.target.mono le.classes, fun a made => (h.origin a made).mono le⟩
  | composition p => exact ⟨h.target.mono le.classes, h.domainKind.mono le.domains⟩
  | «alias» p => exact Placeholder.Linked.mono h le

theorem Class.Linked.mono {c : Class} (h : c.Linked H) (le : H.Within H') : c.Linked H' :=
  ⟨h.parent.mono le.classes, h.decorators.mono le.decorators,
    fun p hp => (h.properties p hp).mono le⟩

theorem Endpoint.Linked.mono {e : Endpoint} (h : e.Linked H) (le : H.Within H') : e.Linked H' :=
  ⟨fun p hp => (h.params p hp).mono le, fun p hp => (h.returns p hp).mono le⟩

theorem ModelFile.Linked.mono {f : ModelFile} (h : f.Linked H) (le : H.Within H') :
    f.Linked H' :=
  ⟨fun d hd c hc => Stand.mono (h.domains d hd c hc) le.domains,
    fun c hc => (h.classes c hc).mono le, fun e he => (h.endpoints e he).mono le⟩

theorem Version.Linked.mono {v : Version} (h : v.Linked H) (le : H.Within H') : v.Linked H' :=
  ⟨h.file.mono le, fun k hk => le.files (h.classes k hk), fun k hk => le.files (h.endpoints k hk),
    fun k hk => le.files (h.sharedClasses k hk), fun k hk => le.files (h.sharedEndpoints k hk)⟩

end Mono

/-- A file without a key in it, as it is when just loaded. -/
abbrev ModelFile.Unlinked (f : ModelFile) : Prop := f.Linked .none

/-- A property as it stands in the file: without a key, no copy of another, and if it is an alias,
with the number of its place. -/
structure Property.Declared (slot : Nat) (p : Property) : Prop where
  unlinked : p.Linked .none
  original : p.origin? = none
  numbered : ∀ a, p.alias? = some a → a.slot = slot

def Declares (ps : List Property) : Prop :=
  ∀ (i : Nat) (p : Property), ps[i]? = some p → p.Declared i

theorem Declares.nil : Declares [] := fun i p found => by cases found

theorem Declares.snoc {ps : List Property} {p : Property} (h : Declares ps)
    (last : p.Declared ps.length) : Declares (ps ++ [p]) := by
  intro i q found
  by_cases early : i < ps.length
  · rw [List.getElem?_append_left early] at found
    exact h i q found
  · obtain ⟨bound, -⟩ := List.getElem?_eq_some_iff.mp found
    rw [List.length_append, List.length_singleton] at bound
    have here : i = ps.length := by omega
    subst here
    rw [List.getElem?_concat_length, Option.some.injEq] at found
    exact found ▸ last

theorem Declares.forall {ps : List Property} (h : Declares ps) :
    ∀ p ∈ ps, p.Linked .none ∧ p.origin? = none := by
  intro p hp
  obtain ⟨i, found⟩ := List.getElem?_of_mem hp
  exact ⟨(h i p found).unlinked, (h i p found).original⟩

/-- A file as it was loaded: no key is in it, no copy, and no two aliases of one owner have the
same number. -/
structure ModelFile.Declared (f : ModelFile) : Prop where
  unlinked : f.Unlinked
  classes : ∀ c ∈ f.classes, Declares c.properties
  endpoints : ∀ e ∈ f.endpoints, Declares e.params ∧ ∀ p, e.returns = some p → p.origin? = none

theorem Version.fresh_linked {H : Horizon} {v : VersionId} {f : ModelFile} (unlinked : f.Unlinked)
    (within : H.files v) : (Version.fresh v f).Linked H := by
  refine ⟨unlinked.mono H.none_within, ?_, ?_, ?_, ?_⟩
  · intro k hk
    obtain ⟨i, -, rfl⟩ := List.mem_map.mp hk
    exact within
  · intro k hk
    obtain ⟨i, -, rfl⟩ := List.mem_map.mp hk
    exact within
  · exact fun k hk => absurd hk List.not_mem_nil
  · exact fun k hk => absurd hk List.not_mem_nil

end DataModel
