import DataModel.Proofs.Graph.Sorting
import DataModel.Proofs.Model.Wording
import DataModel.Proofs.Resolution.Codes
import DataModel.Proofs.Resolution.Meaning
import DataModel.Proofs.Resolution.Repeating
import DataModel.Proofs.Resolution.Sparing

/-!
What diagnostics quote. Every diagnostic comes from a lookup that misses a name, from a check, or
from a circle of files, and the names in its sentence are those of the entities that it is about.
They are quoted as they are, unless one of them has the mark that stands for the reference.
-/
namespace DataModel.Resolution
variable {s : Scope} {m n : Model}

/-- What lookups report: names that are not there, and targets that do not fit. -/
inductive Misses (s : Scope) : Finding → Subject → Option Reference → Prop
  | file {r : Reference} (absent : s.dependencies.has r.name = false) :
      Misses s .missingFile (.file s.self) (some r)
  | className {t : Subject} {r : Reference} (absent : s.classes.get? r.name = none) :
      Misses s .missingClass t (some r)
  | domain {t : Subject} {r : Reference} (absent : s.domains.get? r.name = none) :
      Misses s .missingDomain t (some r)
  | decorator {t : Subject} {r : Reference} (absent : s.decorators.get? r.name = none) :
      Misses s .missingDecorator t (some r)
  | key {a : Association} : Misses s .associationKey (.property (.association a)) (some a.reference)
  | property {a : Placeholder} {r : Reference} (listed : r ∈ a.included ++ a.excluded) :
      Misses s (.missingProperty a.reference.name) (.property (.alias a)) (some r)
  | aliasFile {a : FileAlias} (absent : s.dependencies.get? a.file.name = none) :
      Misses s .missingAliasFile (.fileAlias a) (some a.file)
  | classOf {a : FileAlias} {r : Reference} (listed : r ∈ a.classes) :
      Misses s (.classNotInFile a.file.name) (.fileAlias a) (some r)
  | endpointOf {a : FileAlias} {r : Reference} (listed : r ∈ a.endpoints) :
      Misses s (.endpointNotInFile a.file.name) (.fileAlias a) (some r)

/-- What the checks report of a model. -/
inductive Objects (s : Scope) (m : Model) : Finding → Subject → Option Reference → Prop
  | keys {k : Key} {c : Class} {names : List String} (own : k ∈ m.ownClasses s.self)
      (found : m.class? k = some c) (many : 1 < c.primaryKeys.length)
      (named : c.primaryKeys.map m.propertyName? = names.map some) :
      Objects s m (.compositeKey c.name names) (.class k) c.location
  | repeated {k : Key} {c : Class} {p : Property} {name : String} (own : k ∈ m.ownClasses s.self)
      (found : m.class? k = some c) (member : p ∈ c.properties)
      (named : m.propertyName? p = some name) :
      Objects s m (.duplicateProperty name c.name) (.property p) (some p.location)
  | unused {r : Reference} (use : r ∈ m.uses s.self) (present : s.dependencies.has r.name) :
      Objects s m .unusedUse (.file s.self) (some r)
  | unsorted {r : Reference} (use : r ∈ m.uses s.self) (present : s.dependencies.has r.name) :
      Objects s m .unsortedUse (.file s.self) (some r)

/-- The finding that a diagnostic tells. Its message is the sentence of the finding with every name as
it is if, and only if, no name in the sentence has a mark. -/
structure Tells (d : Diagnostic) (v : VersionId) (f : Finding) (t : Subject)
    (r : Option Reference) : Prop where
  told : d = f.diagnostic v t r
  verbatim : d.message = f.wording r ↔ f.Unmarked r

theorem diagnostic_tells (f : Finding) (v : VersionId) (t : Subject) (r : Option Reference) :
    Tells (f.diagnostic v t r) v f t r := ⟨rfl, f.message_eq_wording_iff v t r⟩

/-- A diagnostic for something that a lookup misses. -/
def Missed (s : Scope) (d : Diagnostic) : Prop :=
  ∃ f t r, Misses s f t r ∧ d = f.diagnostic s.self t r

/-- A diagnostic for something that a check objects to. -/
def Objected (s : Scope) (m : Model) (d : Diagnostic) : Prop :=
  ∃ f t r, Objects s m f t r ∧ d = f.diagnostic s.self t r

section Shape

theorem forOwnClasses_shape {f : Model → Key → Class → Noting Class}
    (each : ∀ n k c, Gives (fun _ c' => c'.bare = c.bare) (f n k c)) (m : Model) :
    Gives (fun _ n => m.KeepsShape n) (forOwnClasses s f m) := by
  unfold forOwnClasses
  refine Gives.foldlM (I := fun _ _ n => m.KeepsShape n) (.refl m) fun _ k _ _ n _ kept => ?_
  cases found : n.class? k with
  | none => exact .pure kept
  | some c =>
      refine (each n k c).bind fun _ c' same => .pure (kept.trans ?_)
      exact (Model.rebinds_setClass rfl found same).evolves.keepsShape

theorem forOwnEndpoints_shape {f : Model → Endpoint → Noting Endpoint}
    (each : ∀ n e, Gives (fun _ e' => e'.bare = e.bare) (f n e)) (m : Model) :
    Gives (fun _ n => m.KeepsShape n) (forOwnEndpoints s f m) := by
  unfold forOwnEndpoints
  refine Gives.foldlM (I := fun _ _ n => m.KeepsShape n) (.refl m) fun _ k _ _ n _ kept => ?_
  cases found : n.endpoint? k with
  | none => exact .pure kept
  | some e =>
      refine (each n e).bind fun _ e' same => .pure (kept.trans ?_)
      exact (Model.rebinds_setEndpoint rfl found same).evolves.keepsShape

theorem collapseAll_shape (m : Model) : Gives (fun _ n => m.KeepsShape n) (collapseAll s m) := by
  unfold collapseAll
  refine (forOwnClasses_shape (f := collapseClass) (fun _ _ _ => .pure rfl) m).bind
    fun _ m₁ first => ?_
  exact (forOwnEndpoints_shape (f := collapseEndpoint) (fun _ _ => .pure rfl) m₁).mono
    fun _ _ second => first.trans second

theorem bind_shape (m : Model) : Gives (fun _ n => m.KeepsShape n) (bind s m) := by
  unfold bind
  refine (forOwnClasses_shape (fun _ k c => (bindParent_gives k c).mono fun _ _ h => h.1)
    m).bind fun _ m₁ first => ?_
  refine (forOwnClasses_shape (fun _ k c => (bindDecorators_gives k c).mono fun _ _ h => h.1)
    m₁).bind fun _ m₂ second => ?_
  refine (forOwnClasses_shape (fun _ k c => (bindClassProperties_gives k c).mono fun _ _ h => h.1)
    m₂).bind fun _ m₃ third => ?_
  refine (forOwnEndpoints_shape (fun _ e => (bindEndpointProperties_gives e).mono fun _ _ h => h.1)
    m₃).bind fun _ m₄ fourth => ?_
  refine bindConverters_gives.mono fun _ m₅ fifth => ?_
  exact (((first.trans second).trans third).trans fourth).trans fifth.1.evolves.keepsShape

theorem put_shape (site : Site) (a : Placeholder) (new : List Property) :
    n.KeepsShape (site.put n a new) := by
  cases site with
  | ofClass k =>
      rw [Site.put]
      cases found : n.class? k with
      | none => exact .refl n
      | some c =>
          refine (Model.rebinds_setClass rfl found ?_).evolves.keepsShape
          rfl
  | ofParams k =>
      rw [Site.put]
      cases found : n.endpoint? k with
      | none => exact .refl n
      | some e =>
          refine (Model.rebinds_setEndpoint rfl found ?_).evolves.keepsShape
          rfl
  | ofReturn k =>
      rw [Site.put]
      cases found : n.endpoint? k with
      | none => exact .refl n
      | some e =>
          cases new.head? with
          | none => exact .refl n
          | some p =>
              refine (Model.rebinds_setEndpoint rfl found ?_).evolves.keepsShape
              rfl

theorem expandAll_shape (m : Model) : Gives (fun _ n => m.KeepsShape n) (expandAll s m) := by
  unfold expandAll
  refine Gives.foldlM (I := fun _ _ n => m.KeepsShape n) (.refl m) fun _ x _ _ n _ kept => ?_
  refine (copies_made x.2).bind fun _ new _ => ?_
  cases new with
  | none => exact .pure kept
  | some new => exact .pure (kept.trans (put_shape x.1 x.2 new))

theorem linking_shape (m : Model) : Gives (fun _ n => m.KeepsShape n) (linking s m) := by
  refine (checkUses_gives m s).bind fun _ _ _ => ?_
  refine (collapseAll_shape m).bind fun _ m₁ first => ?_
  refine (bind_shape m₁).bind fun _ m₂ second => ?_
  exact (expandAll_shape m₂).mono fun _ n third => (first.trans second).trans third

end Shape

section Missing

theorem Misses.missed {f : Finding} {t : Subject} {r : Option Reference} (misses : Misses s f t r) :
    Missed s (f.diagnostic s.self t r) := ⟨f, t, r, misses, rfl⟩

/-- A class is looked up by its name. -/
def Scope.Named (s : Scope) (m : Model) : Prop :=
  ∀ name o, s.classes.get? name = some o → (m.class? o.key).map (·.name) = some name

theorem Scope.Named.shape (named : s.Named m) (shape : m.KeepsShape n) : s.Named n := by
  intro name o found
  rw [shape.className]
  exact named name o found

theorem bindingTells_missed (s : Scope) : BindingTells s (Missed s) where
  classes _ _ absent := (Misses.className absent).missed
  decorators _ _ absent := (Misses.decorator absent).missed
  domains _ _ absent := (Misses.domain absent).missed
  keys _ := Misses.key.missed

theorem Scope.Named.copyingTells (named : s.Named n) (a : Placeholder) :
    CopyingTells s n a (Missed s) where
  classes absent := (Misses.className absent).missed
  properties o c found there r listed := by
    -- The class has the name under which it was found.
    have name := named a.reference.name o found
    rw [there, Option.map_some, Option.some.injEq] at name
    rw [name]
    exact (Misses.property listed).missed

theorem Scope.Titled.sharingTells (titled : s.Titled n) (a : FileAlias) :
    SharingTells s n a (Missed s) where
  files absent := (Misses.aliasFile absent).missed
  classes d found r listed := by
    rw [titled a.file.name d found]
    exact (Misses.classOf listed).missed
  endpoints d found r listed := by
    rw [titled a.file.name d found]
    exact (Misses.endpointOf listed).missed

theorem linking_misses (named : s.Named m) : Only (Missed s) (linking s m) := by
  have uses : Only (Missed s) (checkUses m s) := checkUses_only fun _ _ absent =>
    (Misses.file absent).missed
  refine uses.andThen fun _ => ?_
  refine (collapseAll_only m).bind (collapseAll_shape m) fun _ m₁ first => ?_
  refine (bind_only (bindingTells_missed s) m₁).bind (bind_shape m₁) fun _ m₂ second => ?_
  exact expandAll_only (I := s.Named) (named.shape (first.trans second))
    (fun n named a => named.copyingTells a)
    fun n named site a new => named.shape (put_shape site a new)

theorem shareAliases_misses (titled : s.Titled m) : Only (Missed s) (shareAliases s m) := by
  refine .foldlM (I := s.Titled) titled (fun n titled a _ => ?_) fun n titled a _ => ?_
  · exact shareAlias_only (titled.sharingTells a)
  · refine (shareAlias_files s n a).mono fun _ n' same => ?_
    exact titled.shape fun w => congrArg _ (same w)

end Missing

section Checking

theorem Objects.objected {f : Finding} {t : Subject} {r : Option Reference}
    (objects : Objects s m f t r) : Objected s m (f.diagnostic s.self t r) :=
  ⟨f, t, r, objects, rfl⟩

theorem checking_objects (allowCompositeKeys : Bool) (m : Model) :
    Only (Objected s m) (checking s (missingUses m s) allowCompositeKeys m) := by
  have keys : Only (Objected s m) (checkKeys s m) :=
    checkKeys_only fun k own c found many names named => (Objects.keys own found many named).objected
  have duplicates : Only (Objected s m) (checkDuplicates s m) :=
    checkDuplicates_only fun k own c found p member name named =>
      (Objects.repeated own found member named).objected
  have there : ∀ use ∈ existingUses s (missingUses m s) m,
      use ∈ m.uses s.self ∧ s.dependencies.has use.name :=
    fun use member => List.mem_filter.mp (existingUses_missingUses s m ▸ member)
  have unused : Only (Objected s m) (checkUnusedUses s (missingUses m s) m) :=
    checkUnusedUses_only fun use member =>
      (Objects.unused (there use member).1 (there use member).2).objected
  have unsorted : Only (Objected s m) (checkUsesOrder s (missingUses m s) m) :=
    checkUsesOrder_only fun use member =>
      (Objects.unsorted (there use member).1 (there use member).2).objected
  rw [checking_eq]
  refine Only.andThen ?_ fun _ => unused.andThen fun _ => unsorted
  cases allowCompositeKeys with
  | true => exact duplicates
  | false => exact keys.andThen fun _ => duplicates

/-- Resolving reports what its lookups miss and what its checks object to in the result. -/
theorem steps_reported (named : s.Named m) (titled : s.Titled m) (allowCompositeKeys : Bool) :
    Gives (fun ds n => ∀ d ∈ ds, Missed s d ∨ Objected s n d) (steps s allowCompositeKeys m) := by
  rw [steps_eq]
  refine (Gives.and (linking_misses named) (linking_shape m)).bind ?_
  rintro ds₁ m₁ ⟨linked, shape⟩
  refine Gives.bind ((shareAliases_misses (titled.shape shape)).and (shareAliases_files s m₁)) ?_
  rintro ds₂ m₂ ⟨shared, files⟩
  have uses : m₂.uses s.self = m.uses s.self := by
    rw [← shape.uses, Model.uses, Model.uses, files]
  rw [← missingUses_congr uses]
  refine Gives.bind (checking_objects allowCompositeKeys m₂) fun ds₃ _ checked => .pure ?_
  rw [List.append_nil]
  refine List.forall_mem_append.mpr ⟨fun d hd => .inl (linked d hd), ?_⟩
  exact List.forall_mem_append.mpr
    ⟨fun d hd => .inl (shared d hd), fun d hd => .inr (checked d hd)⟩

end Checking

section Circles

/-- A circle of files is reported at its first file, where that uses the second. -/
theorem circle_tells {m : Model} {deps : VersionId → List VersionId} {members : List VersionId}
    {circle : Graph.Circle} (failed : Graph.sortVersions m deps members = .error circle) :
    ∃ first second rest d r, circle.versions = first :: second :: rest ∧
      circle.names = circle.versions.map m.fileName ∧ circle.diagnostic = some d ∧
      (∀ q, r = some q → q ∈ m.uses first ∧ q.name = m.fileName second) ∧
      Tells d first (.circularDependency circle.names) (.file first) r := by
  unfold Graph.sortVersions at failed
  cases sorting : Graph.sort deps members with
  | ok sorted =>
      rw [sorting] at failed
      cases failed
  | error found =>
      rw [sorting] at failed
      cases failed
      obtain ⟨⟨first, inner, closed⟩, -, -⟩ := Graph.sort_circle sorting
      obtain ⟨second, rest, next⟩ : ∃ second rest, inner ++ [first] = second :: rest := by
        cases inner with
        | nil => exact ⟨first, [], rfl⟩
        | cons second inner => exact ⟨second, inner ++ [first], rfl⟩
      rw [List.cons_append, next] at closed
      subst closed
      refine ⟨first, second, rest, _, _, rfl, rfl, rfl, fun q found => ?_, diagnostic_tells ..⟩
      have named : some (m.fileName second) = some q.name := by simpa using List.find?_some found
      exact ⟨List.mem_of_find?_eq_some found, (Option.some.inj named).symm⟩

end Circles
end DataModel.Resolution

namespace DataModel.Model
open Resolution

/-- Every diagnostic tells what a lookup misses, what a check objects to in the resolved model, or
that files use each other in a circle; the sentence names the entities that this is about. -/
theorem diagnostics_tell (m : Model) (v : VersionId) (dependencies : List VersionId)
    (domains : Table Key) (allowCompositeKeys : Bool) :
    (∀ ds n, m.resolve v dependencies domains allowCompositeKeys = .ok (ds, n) → ∀ d ∈ ds,
      ∃ f t r, (Misses (.of m v dependencies domains) f t r ∨
        Objects (.of m v dependencies domains) n f t r) ∧ Tells d v f t r) ∧
    ∀ deps members circle, Graph.sortVersions m deps members = .error circle →
      ∃ first second rest d r, circle.versions = first :: second :: rest ∧
        circle.names = circle.versions.map m.fileName ∧ circle.diagnostic = some d ∧
        (∀ q, r = some q → q ∈ m.uses first ∧ q.name = m.fileName second) ∧
        Tells d first (.circularDependency circle.names) (.file first) r := by
  refine ⟨fun ds n done d hd => ?_, fun deps members circle => circle_tells⟩
  have named : (Scope.of m v dependencies domains).Named m := fun name o found =>
    Option.map_eq_some_iff.mpr (named_of found)
  rcases resolve_gives (steps_reported named scope_titled allowCompositeKeys) done d hd with
    ⟨f, t, r, misses, rfl⟩ | ⟨f, t, r, objects, rfl⟩
  · exact ⟨f, t, r, .inl misses, diagnostic_tells ..⟩
  · exact ⟨f, t, r, .inr objects, diagnostic_tells ..⟩

namespace Marking
open Copying

/-- An alias of a class, which lists a name that the class does not have. -/
def listing (className : String) : Placeholder :=
  { placeholder with reference := ⟨className, 5, 59⟩, included := [⟨"x", 5, 76⟩] }

/-- A file that uses itself, with an empty class and one that copies from it. -/
def lister (className : String) : ModelFile :=
  { copier [.alias (listing className)] with
    name := "C"
    uses := [⟨"C", 2, 8⟩]
    classes := (origin []).classes.map ({ · with name := className }) ++
      (copier [.alias (listing className)]).classes }

def loaded (className : String) : Model := ⟨#[.fresh 0 (lister className)]⟩

/-- What is missing in the file: itself, and the name that is listed. -/
def missing (className : String) : List Diagnostic :=
  [Finding.missingFile.diagnostic 0 (.file 0) (some ⟨"C", 2, 8⟩),
    (Finding.missingProperty className).diagnostic 0 (.property (.alias (listing className)))
      (some ⟨"x", 5, 76⟩)]

end Marking
open Marking

theorem diagnostics_tell_plain :
    (loaded "Z").resolve 0 [] [] false = .ok (missing "Z", loaded "Z") ∧
      (∃ circle, Graph.sortVersions (loaded "Z") (fun _ => [0]) [0] = .error circle) ∧
      (missing "Z").map (·.message) = ["The referenced file 'C' cannot be found.",
        "Property 'x' cannot be found on class 'Z'."] ∧
      ∀ d ∈ missing "Z", ∃ f t r, (Misses (.of (loaded "Z") 0 [] []) f t r ∨
        Objects (.of (loaded "Z") 0 [] []) (loaded "Z") f t r) ∧ Tells d 0 f t r := by
  have run : (loaded "Z").resolve 0 [] [] false = .ok (missing "Z", loaded "Z") := by
    with_unfolding_all rfl
  refine ⟨run, ⟨_, rfl⟩, ?_, (diagnostics_tell (loaded "Z") 0 [] [] false).1 _ _ run⟩
  with_unfolding_all rfl

/-- A class with a mark in its name is not quoted as it is. -/
theorem marked_class_misquoted :
    (loaded "\x7b0\x7d").resolve 0 [] [] false =
        .ok (missing "\x7b0\x7d", loaded "\x7b0\x7d") ∧
      ∃ d ∈ missing "\x7b0\x7d",
        Tells d 0 (.missingProperty "\x7b0\x7d") (.property (.alias (listing "\x7b0\x7d")))
          (some ⟨"x", 5, 76⟩) ∧
        (Finding.missingProperty "\x7b0\x7d").wording (some ⟨"x", 5, 76⟩) =
          "Property 'x' cannot be found on class '\x7b0\x7d'." ∧
        d.message = "Property 'x' cannot be found on class 'x'." := by
  refine ⟨?_, _, .tail _ (.head _), diagnostic_tells .., ?_, ?_⟩
  · with_unfolding_all rfl
  · with_unfolding_all rfl
  · with_unfolding_all rfl

end DataModel.Model
