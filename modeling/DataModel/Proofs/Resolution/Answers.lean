import DataModel.Proofs.Resolution.BoundFile
import DataModel.Proofs.Resolution.Taking
import DataModel.Proofs.Resolution.Turns

/-!
Every reference of a file just loaded is answered. It is looked up once: what its name means is
bound, and where its name means nothing, or nothing that fits, one error bears it.
-/
namespace DataModel.Resolution
variable {s : Scope} {m n : Model} {f : ModelFile}

section Bound

theorem bound_rebinding (fresh : m.version? s.self = some (.fresh s.self f)) :
    Rebinding s.self m (m.bound s) := by
  obtain ⟨⟨n, last⟩, run⟩ := bind_runs s m 0
  obtain ⟨_, -, same, -⟩ := bind_looksUp fresh _ _ _ run
  obtain ⟨_, -, rebinding⟩ := bind_rebinding (Model.homed_of_fresh fresh) _ _ _ run
  exact same ▸ rebinding

theorem class?_bound {k : Key} (home : k.version = s.self) :
    (m.bound s).class? k = (m.class? k).map (Class.bound s m) := by
  rw [Model.class?, Model.bound, Model.file?_modifyFile, if_pos home.symm, Model.class?]
  cases m.file? k.version with
  | none => rfl
  | some f => exact List.getElem?_map ..

theorem endpoint?_bound {k : Key} (home : k.version = s.self) :
    (m.bound s).endpoint? k = (m.endpoint? k).map (Endpoint.bound s m) := by
  rw [Model.endpoint?, Model.bound, Model.file?_modifyFile, if_pos home.symm, Model.endpoint?]
  cases m.file? k.version with
  | none => rfl
  | some f => exact List.getElem?_map ..

theorem domain?_bound {k : Key} (home : k.version = s.self) :
    (m.bound s).domain? k = (m.domain? k).map (Domain.bound s) := by
  rw [Model.domain?, Model.bound, Model.file?_modifyFile, if_pos home.symm, Model.domain?]
  cases m.file? k.version with
  | none => rfl
  | some f => exact List.getElem?_map ..

theorem aliases_bound (ps : List Property) :
    (ps.map (Property.bound s m)).filterMap Property.alias? =
      (ps.filterMap Property.alias?).map (Placeholder.bound s) := by
  rw [List.filterMap_map, List.map_filterMap]
  refine List.filterMap_congr fun p _ => ?_
  cases p <;> rfl

/-- Binding a file binds its aliases where they stand. -/
theorem placeholders_bound (home : m.Homed s.self) :
    placeholders (m.bound s) s.self =
      (placeholders m s.self).map fun x => (x.1, x.2.bound s) := by
  have same : sites (m.bound s) s.self = sites m s.self := by
    rw [sites, sites, Model.bound, Model.ownClasses_modifyFile, Model.ownEndpoints_modifyFile]
  rw [placeholders_eq, placeholders_eq, same, List.map_flatMap]
  refine List.flatMap_congr fun site own => ?_
  have aliases : site.aliases (m.bound s) = (site.aliases m).map (Placeholder.bound s) := by
    cases site with
    | ofClass k =>
        rw [Site.aliases, Site.aliases, class?_bound (home.classes k (mem_sites.mp own))]
        cases m.class? k with
        | none => rfl
        | some c => exact aliases_bound c.properties
    | ofParams k =>
        rw [Site.aliases, Site.aliases, endpoint?_bound (home.endpoints k (mem_sites.mp own))]
        cases m.endpoint? k with
        | none => rfl
        | some e => exact aliases_bound e.params
    | ofReturn k =>
        rw [Site.aliases, Site.aliases, endpoint?_bound (home.endpoints k (mem_sites.mp own))]
        cases m.endpoint? k with
        | none => rfl
        | some e =>
            have mapped : (e.bound s m).returns.toList =
                e.returns.toList.map (Property.bound s m) := Option.toList_map ..
            rw [Option.map_some, Option.bind_some, Option.bind_some, mapped, aliases_bound]
  rw [aliases, List.map_map, List.map_map]
  rfl

end Bound

section Answers

/-- The lookups of a file's references, in the order of the steps, but for the names that aliases
of properties list. -/
def fileLookups (s : Scope) (m : Model) (f : ModelFile) : List Lookup :=
  f.uses.map (fun r => .of .missingFile (s.file? r.name) r) ++ (f.lookups s m ++
    ((placeholders m s.self).map (fun x =>
        .of .missingClass (s.class? x.2.reference.name) x.2.reference) ++
      (Intake.whole s m f.aliases).lookups))

/-- The classes that the aliases among some properties name. -/
def aliased (ps : List Property) : List Reference :=
  (ps.filterMap Property.alias?).map (·.reference)

/-- The references in a file, in the order in which they are looked up: but for the names that
aliases of properties list, and those that aliases of unknown files list. -/
def fileReferences (known : String → Bool) (f : ModelFile) : List Reference :=
  f.uses ++ ((f.classes.flatMap (·.parentReference.toList) ++
    (f.classes.flatMap (·.decoratorReferences) ++
      (f.classes.flatMap (·.properties.flatMap references) ++
        (f.endpoints.flatMap (·.properties.flatMap references) ++
          f.domains.flatMap (·.converters.flatMap (·.targetReferences)))))) ++
    ((f.classes.flatMap (aliased ·.properties) ++ f.endpoints.flatMap (aliased ·.properties)) ++
      f.aliases.flatMap fun a =>
        a.file :: if known a.file.name then a.classes ++ a.endpoints else []))

theorem references_placeholders (fresh : m.version? s.self = some (.fresh s.self f)) :
    (placeholders m s.self).map (·.2.reference) =
      f.classes.flatMap (aliased ·.properties) ++ f.endpoints.flatMap (aliased ·.properties) := by
  have start := underway_of_fresh fresh
  have classes : ∀ k ∈ numbered s.self f.classes.length, m.class? k = f.classes[k.index]? := by
    intro k hk
    obtain ⟨i, -, rfl⟩ := List.mem_map.mp hk
    rw [Model.class?, start.file]
    rfl
  have endpoints : ∀ k ∈ numbered s.self f.endpoints.length,
      m.endpoint? k = f.endpoints[k.index]? := by
    intro k hk
    obtain ⟨i, -, rfl⟩ := List.mem_map.mp hk
    rw [Model.endpoint?, start.file]
    rfl
  rw [placeholders, start.classes, start.endpoints, List.map_append, List.map_flatMap,
    List.map_flatMap, ← flatMap_numbered s.self f.classes, ← flatMap_numbered s.self f.endpoints]
  congr 1
  · refine List.flatMap_congr fun k hk => ?_
    rw [classes k hk]
    cases f.classes[k.index]? with
    | none => rfl
    | some c =>
        simp only [Option.map_some, Option.getD_some, filterMap_site, List.map_map, aliased]
        rfl
  · refine List.flatMap_congr fun k hk => ?_
    rw [endpoints k hk]
    cases f.endpoints[k.index]? with
    | none => rfl
    | some e =>
        simp only [Option.map_some, Option.getD_some, filterMap_site, List.map_map, aliased,
          List.map_append, Endpoint.properties, List.filterMap_append, ← toList_alias]
        rfl

/-- Every reference is looked up once. -/
theorem references_fileLookups (fresh : m.version? s.self = some (.fresh s.self f)) :
    (fileLookups s m f).map (·.reference) =
      fileReferences (fun name => (s.file? name).isSome) f := by
  simp only [fileLookups, fileReferences, List.map_append, references_bound, references_intake]
  rw [← references_placeholders fresh]
  simp [Lookup.of, Function.comp_def]

/-- No class that the alias of a turn copies from has a turn any more. -/
def Settled (s : Scope) (t : Turn) (after : List Turn) : Prop :=
  ∀ u ∈ t :: after, ∀ k, s.class? t.placeholder.reference.name = some k → u.site ≠ .ofClass k

/-- What resolving makes of the own entities of a file. Every entity is bound, and in its place each
alias gives way to what it was expanded to in its turn. -/
structure Expanded (s : Scope) (m n : Model) (ts : List Turn) : Prop where
  classes : ∀ k ∈ m.ownClasses s.self, ∀ c, m.class? k = some c → ∃ given,
    n.class? k = some { c.bound s m with
      properties := (c.bound s m).properties.flatMap (spread given) } ∧
    ∀ t ∈ ts, t.site = .ofClass k → given t.placeholder = t.made
  endpoints : ∀ k ∈ m.ownEndpoints s.self, ∀ e, m.endpoint? k = some e → ∃ taken given,
    n.endpoint? k = some { e.bound s m with
      params := (e.bound s m).params.flatMap (spread taken)
      returns := (e.bound s m).returns.map fun p => ((spread given p).head?).getD p } ∧
    (∀ t ∈ ts, t.site = .ofParams k → taken t.placeholder = t.made) ∧
    ∀ t ∈ ts, t.site = .ofReturn k → given t.placeholder = t.made
  domains : ∀ k, k.version = s.self → n.domain? k = (m.domain? k).map (Domain.bound s)
  /-- Every alias has its turn, once the file is bound. -/
  turns : ∃ n', Turns s (m.bound s)
    ((placeholders m s.self).map fun x => (x.1, x.2.bound s)) ts n' ∧
    ∀ w, n.file? w = n'.file? w
  /-- An alias whose class is settled is expanded as that class is in the end. -/
  settled : ∀ before t after, ts = before ++ t :: after → Settled s t after →
    ExpandsTo s n t.placeholder t.made ∧
      missed s t.moment t.placeholder = missed s n t.placeholder

/-- What a file offers in the end: what it took stands among its own entities, in the place of those
of the same names. -/
structure Exported (s : Scope) (m : Model) (f : ModelFile) (n : Model) : Prop where
  classes : n.classes s.self =
    replaceAll (className? m) (Intake.whole s m f.aliases).classes (m.classes s.self)
  endpoints : n.endpoints s.self =
    replaceAll (endpointName? m) (Intake.whole s m f.aliases).endpoints (m.endpoints s.self)
  shared : (n.version? s.self).map (fun ver => (ver.sharedClasses, ver.sharedEndpoints)) =
    some (addAll (Intake.whole s m f.aliases).classes [],
      addAll (Intake.whole s m f.aliases).endpoints [])

/-- How resolving answers the references of a file: what it makes of a model, and what it tells. -/
structure Answered (s : Scope) (m : Model) (f : ModelFile) (ds : List Diagnostic) (n : Model)
    (ts : List Turn) : Prop where
  expanded : Expanded s m n ts
  exported : Exported s m f n
  told : told lookupCodes ds = failures (fileLookups s m f)
  names : Resolution.told [.missingProperty] ds = ts.flatMap fun t =>
    (missed s t.moment t.placeholder).map (Code.missingProperty, ·)

theorem offers_of_rebinds {v : VersionId} (h : Model.Rebinds v m n) :
    n.classes = m.classes ∧ n.endpoints = m.endpoints := by
  refine ⟨funext fun w => ?_, funext fun w => ?_⟩
  · by_cases here : w = v
    · exact here ▸ h.classes
    · rw [Model.classes, Model.classes, h.others here]
  · by_cases here : w = v
    · rw [here, Model.endpoints, Model.endpoints, h.lists fun _ => rfl]
    · rw [Model.endpoints, Model.endpoints, h.others here]

/-- What a file takes does not depend on what it is bound to. -/
theorem intake_of_rebinds {v : VersionId} (h : Model.Rebinds v m n) (as : List FileAlias) :
    Intake.whole s n as = Intake.whole s m as :=
  have shape := h.evolves.keepsShape
  Intake.whole_congr (funext shape.className) (funext shape.endpointName) (offers_of_rebinds h).1
    (offers_of_rebinds h).2 as

theorem version_of_rebinds {v : VersionId} (fresh : m.version? v = some (.fresh v f))
    (h : Model.Rebinds v m n) :
    ∃ ver, n.version? v = some ver ∧ ver.bare = (Version.fresh v f).bare := by
  have bare := h.bare
  rw [fresh] at bare
  exact Option.map_eq_some_iff.mp bare

/-- What the turns of a file's aliases make of its entities. -/
theorem Turns.expanded {turns : List Turn} {n' : Model}
    (taken : Turns s (m.bound s) (Resolution.placeholders (m.bound s) s.self) turns n)
    (fresh : m.version? s.self = some (.fresh s.self f)) (declared : f.Declared)
    (files : ∀ w, n'.file? w = n.file? w) : Expanded s m n' turns := by
  have home := Model.homed_of_fresh fresh
  have bound := bound_rebinding fresh
  have onceClasses := nodup_slots_bound fresh declared bound
  have onceParams := nodup_params_bound fresh declared bound
  have once := nodup_placeholders ((listed_of_fresh fresh).shape bound.evolves.keepsShape
    bound.ownClasses bound.ownEndpoints) onceClasses onceParams
  have classes := class?_of_files files
  refine ⟨fun k hk c found => ?_, fun k hk e found => ?_, fun k here => ?_, ⟨n, ?_, files⟩,
    fun before t after split last => ?_⟩
  · have found₂ : (m.bound s).class? k = some (c.bound s m) := by
      rw [class?_bound (home.classes k hk), found, Option.map_some]
    rw [classes]
    exact taken.class_eq once found₂ (onceClasses k (bound.ownClasses ▸ hk) _ found₂)
  · have found₂ : (m.bound s).endpoint? k = some (e.bound s m) := by
      rw [endpoint?_bound (home.endpoints k hk), found, Option.map_some]
    rw [endpoint?_of_files files]
    exact taken.endpoint_eq once found₂ (onceParams k (bound.ownEndpoints ▸ hk) _ found₂)
  · rw [domain?_of_files files, taken.domains, domain?_bound here]
  · rwa [← placeholders_bound home]
  · obtain ⟨target, names⟩ := taken.settled split last
    have target' : s.target? n' t.placeholder.reference =
        s.target? t.moment t.placeholder.reference := by
      rw [← target]
      simp only [Scope.target?, classes]
    have names' := (KeepsPlain.of_class? classes).names.trans names
    refine ⟨(taken.expands t (by rw [split]; simp)).congr target' names', ?_⟩
    exact (missed_congr target' names').symm

/-- What a file offers once it was linked and has taken what its aliases list. -/
theorem exported_of_rebinds (fresh : m.version? s.self = some (.fresh s.self f))
    (rebinds : Model.Rebinds s.self m n) :
    Exported s m f ((Intake.whole s m f.aliases).model n s.self) := by
  have shape := rebinds.evolves.keepsShape
  obtain ⟨ver, known, bare⟩ := version_of_rebinds fresh rebinds
  refine ⟨?_, ?_, ?_⟩
  · rw [Intake.model, classes_shared known, if_pos rfl, (offers_of_rebinds rebinds).1,
      show className? n = className? m from funext shape.className]
  · rw [Intake.model, endpoints_shared known, if_pos rfl, (offers_of_rebinds rebinds).2,
      show endpointName? n = endpointName? m from funext shape.endpointName]
  · have none : ver.sharedClasses = [] ∧ ver.sharedEndpoints = [] :=
      ⟨congrArg Version.sharedClasses bare, congrArg Version.sharedEndpoints bare⟩
    rw [Intake.model, shared, Model.version?_modify_self, known]
    simp only [Option.map_some, none]

theorem told_nil_of_reports (codes : List Code) {others : List Code} {α : Type} {x : Noting α}
    (h : Reports others x) (apart : ∀ c ∈ others, c ∉ codes) :
    Gives (fun ds _ => told codes ds = []) x :=
  Gives.mono h fun _ _ reported => told_other reported apart

theorem told_of_clean {codes : List Code} {ds : List Diagnostic} (clean : Clean ds) :
    told codes ds = [] := by
  rw [told, List.filter_eq_nil_iff.mpr]
  · rfl
  · intro d hd counts
    rw [clean d hd, Bool.false_and] at counts
    cases counts

/-- All steps answer each reference once. -/
theorem steps_answered (fresh : m.version? s.self = some (.fresh s.self f))
    (declared : f.Declared) (allowCompositeKeys : Bool) :
    Gives (fun ds n => ∃ turns, Answered s m f ds n turns) (steps s allowCompositeKeys m) := by
  have bound := bound_rebinding fresh
  have home₂ := bound.toRebinds.homed (Model.homed_of_fresh fresh)
  have uses : m.uses s.self = f.uses := by rw [Model.uses, Model.file?, fresh]; rfl
  rw [steps_eq, linking, collapseAll_undone (undone_of_declared fresh declared), pure_bind]
  simp only [bind_assoc]
  refine Gives.bind ((checkUses_looksUp m s).and
    (told_nil_of_reports [.missingProperty] (checkUses_reports m s) (by decide))) ?_
  rintro ds₁ _ ⟨⟨-, told₁⟩, quiet₁⟩
  refine Gives.bind ((bind_looksUp fresh).and
    (told_nil_of_reports [.missingProperty] (bind_reports s m) (by decide))) ?_
  rintro ds₂ _ ⟨⟨rfl, told₂⟩, quiet₂⟩
  refine Gives.bind ((expandAll_turns s (m.bound s)).and (expandAll_gives home₂)) ?_
  rintro ds₃ m₃ ⟨⟨turns, taken, told₃, names₃⟩, rebinds, -⟩
  have toThird := bound.toRebinds.trans rebinds
  obtain ⟨ver, known, bare⟩ := version_of_rebinds fresh toThird
  have aliases : ver.file.aliases = f.aliases := congrArg (fun w : Version => w.file.aliases) bare
  refine Gives.bind ((shareAliases_intake known).and
    (told_nil_of_reports [.missingProperty] (shareAliases_reports s m₃) (by decide))) ?_
  rintro ds₄ _ ⟨⟨rfl, told₄⟩, quiet₄⟩
  rw [aliases, intake_of_rebinds toThird] at told₄ ⊢
  refine Gives.bind (checking_reports s allowCompositeKeys _) fun ds₅ _ checked => .pure ?_
  have told₅ : told lookupCodes ds₅ = [] := told_other checked (by decide)
  have quiet₅ : told [.missingProperty] ds₅ = [] := told_other checked (by decide)
  refine ⟨turns, taken.expanded fresh declared file?_shared, exported_of_rebinds fresh toThird, ?_,
    ?_⟩
  · have looked : failures ((placeholders (m.bound s) s.self).map fun x =>
        Lookup.of .missingClass (s.class? x.2.reference.name) x.2.reference) =
        failures ((placeholders m s.self).map fun x =>
          .of .missingClass (s.class? x.2.reference.name) x.2.reference) := by
      rw [placeholders_bound (Model.homed_of_fresh fresh), List.map_map]
      rfl
    simp only [told_append, told₁, told₂, told₃, told₅, List.append_nil, looked, uses,
      fileLookups, failures_append, told₄]
    rfl
  · simp only [told_append, quiet₁, quiet₂, names₃, quiet₄, quiet₅, List.append_nil,
      List.nil_append]

end Answers
end DataModel.Resolution

namespace DataModel.Model
open Resolution
variable {m : Model} {v : VersionId} {f : ModelFile} {dependencies : List VersionId}
  {domains : Table Key} {allowCompositeKeys : Bool}

/-- Resolving a file just loaded answers its references. A name means the file's own entity, or
else that of its last dependency with one. Every reference is looked up once: what it means is
bound, and where it means nothing, or a class without exactly one key for an association, nothing
is bound and one error bears it, of the code of its kind. The names that an alias lists are looked
up if its class is known, in that class as it is at the alias's turn, and each one that it lacks is
borne by one error; so are the names that an alias of a file lists, if that file is known. -/
theorem resolve_answers (fresh : m.version? v = some (.fresh v f)) (declared : f.Declared) :
    (Scope.of m v dependencies domains).Sees m v dependencies domains ∧
      (fileLookups (.of m v dependencies domains) m f).map (·.reference) = fileReferences
        (fun name => ((Scope.of m v dependencies domains).file? name).isSome) f ∧
      ((Scope.of m v dependencies domains).Acyclic m →
        ∃ r, m.resolve v dependencies domains allowCompositeKeys = .ok r) ∧
      ∀ ds n, m.resolve v dependencies domains allowCompositeKeys = .ok (ds, n) →
        ∃ turns, Answered (.of m v dependencies domains) m f ds n turns := by
  refine ⟨scope_sees m v dependencies domains,
    references_fileLookups (s := .of m v dependencies domains) fresh, fun acyclic => ?_,
    fun ds n done => ?_⟩
  · obtain ⟨ds, n, done, -⟩ := resolve_of_acyclic fresh declared acyclic
    exact ⟨_, done⟩
  · obtain ⟨n', notes, run, same⟩ := resolve_run done
    cases same
    obtain ⟨ds, added, answered⟩ := steps_answered (s := .of m v dependencies domains) fresh
      declared allowCompositeKeys _ _ _ run
    rw [List.nil_append] at added
    exact added ▸ answered

namespace Listing
open Copying Mixing

/-- An alias of a class that is not there, which lists a name. -/
def listing : Placeholder :=
  { placeholder with reference := ⟨"Z", 4, 59⟩, included := [⟨"n", 4, 72⟩] }

/-- An alias of a file that is not there, which lists a class and an endpoint. -/
def absent : FileAlias := ⟨⟨"Y", 6, 15⟩, [⟨"K", 6, 28⟩], [⟨"E", 6, 44⟩], some ⟨"alias", 6, 1⟩⟩

def lister : ModelFile := { copier [.alias listing] with aliases := [absent] }

def listed : Model := ⟨#[.fresh 0 (origin [field]), .fresh 1 lister]⟩

theorem declared_lister : lister.Declared :=
  have copying := declared_copying (Declares.nil.snoc (declared_alias (a := listing) rfl))
  ⟨⟨copying.unlinked.domains, copying.unlinked.classes, copying.unlinked.endpoints⟩,
    copying.classes, copying.endpoints⟩

theorem resolve_listed : listed.resolve 1 [0] known false =
    .ok ([Finding.missingClass.diagnostic 1 (.property (.alias listing)) (some ⟨"Z", 4, 59⟩),
      Finding.missingAliasFile.diagnostic 1 (.fileAlias absent) (some ⟨"Y", 6, 15⟩), unused],
      listed) := by
  with_unfolding_all rfl

end Listing
open Copying Mixing Listing

theorem resolve_answers_mixed :
    (copier mixed).Declared ∧
      (∃ ds n, (loaded [key, field] mixed).resolve 1 [0] known false = .ok (ds, n) ∧
        told lookupCodes ds = [(.missingClass, ⟨"Z", 4, 80⟩)] ∧
        told [.missingProperty] ds = [(.missingProperty, ⟨"q", 4, 93⟩)]) ∧
      ∀ ds n, (loaded [key, field] mixed).resolve 1 [0] known false = .ok (ds, n) →
        ∃ turns, Answered (.of (loaded [key, field] mixed) 1 [0] known) (loaded [key, field] mixed)
          (copier mixed) ds n turns := by
  refine ⟨declared_mixed, ?_, (resolve_answers rfl declared_mixed).2.2.2⟩
  have run : ((loaded [key, field] mixed).resolve 1 [0] known false).map (fun r =>
      (told lookupCodes r.1, told [.missingProperty] r.1)) =
      .ok ([(.missingClass, ⟨"Z", 4, 80⟩)], [(.missingProperty, ⟨"q", 4, 93⟩)]) := by
    with_unfolding_all rfl
  cases done : (loaded [key, field] mixed).resolve 1 [0] known false with
  | error e =>
      rw [done] at run
      cases run
  | ok r =>
      rw [done] at run
      obtain ⟨ds, n⟩ := r
      have both := Except.ok.inj run
      exact ⟨ds, n, rfl, congrArg Prod.fst both, congrArg Prod.snd both⟩

/-- What an alias lists of a class or a file that is not there is neither bound nor reported. -/
theorem include_of_unknown_class :
    lister.Declared ∧
      (Scope.of listed 1 [0] known).class? listing.reference.name = none ∧
      (Scope.of listed 1 [0] known).file? absent.file.name = none ∧
      ∃ ds n, listed.resolve 1 [0] known false = .ok (ds, n) ∧
        (Site.ofClass ⟨1, 0⟩).list? n = some [.alias listing] ∧
        n.classes 1 = [⟨1, 0⟩] ∧ n.endpoints 1 = [] ∧
        ∀ r ∈ listing.included ++ (absent.classes ++ absent.endpoints),
          ∀ d ∈ ds, d.reference ≠ some r := by
  refine ⟨declared_lister, by with_unfolding_all rfl, by with_unfolding_all rfl, _, _,
    resolve_listed, rfl, rfl, rfl, ?_⟩
  decide

end DataModel.Model
