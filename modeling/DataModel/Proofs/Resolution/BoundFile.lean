import DataModel.Proofs.Resolution.LookingUp
import DataModel.Proofs.Resolution.Looping

/-!
What binding makes of a file just loaded: every reference of its own entities is looked up once, in
the order of the steps, and each entity ends up bound as its names mean.
-/
namespace DataModel

section Bound
open Resolution

/-- A file whose references are bound as their names mean. -/
def ModelFile.bound (s : Scope) (m : Model) (f : ModelFile) : ModelFile :=
  { f with
    classes := f.classes.map (Class.bound s m)
    endpoints := f.endpoints.map (Endpoint.bound s m)
    domains := f.domains.map (Domain.bound s) }

/-- The lookups of binding a file, in their order. -/
def ModelFile.lookups (s : Scope) (m : Model) (f : ModelFile) : List Lookup :=
  f.classes.flatMap (Class.parentLookups s) ++ (f.classes.flatMap (Class.decoratorLookups s) ++
    (f.classes.flatMap (Class.propertyLookups s m) ++ (f.endpoints.flatMap (Endpoint.lookups s m) ++
      f.domains.flatMap (Domain.lookups s))))

/-- A model in which a file is bound. -/
def Model.bound (s : Scope) (m : Model) : Model := m.modifyFile s.self (ModelFile.bound s m)

end Bound

namespace Resolution
variable {s : Scope} {m n : Model} {v : VersionId} {f : ModelFile}

/-- Where files keep the entities of a kind. -/
structure Shelf (E : Type) where
  kind : Kind E
  list : ModelFile → List E
  put : ModelFile → List E → ModelFile
  list_put : ∀ f xs, list (put f xs) = xs
  put_put : ∀ f xs ys, put (put f xs) ys = put f ys
  put_list : ∀ f, put f (list f) = f
  get_eq : ∀ m k, kind.get m k = (m.file? k.version).bind fun f => (list f)[k.index]?
  set_eq : ∀ m k e, kind.set m k e =
    m.modifyFile k.version fun f => put f ((list f).set k.index e)

def classShelf : Shelf Class where
  kind := classKind
  list := (·.classes)
  put f classes := { f with classes }
  list_put _ _ := rfl
  put_put _ _ _ := rfl
  put_list _ := rfl
  get_eq _ _ := rfl
  set_eq _ _ _ := rfl

def endpointShelf : Shelf Endpoint where
  kind := endpointKind
  list := (·.endpoints)
  put f endpoints := { f with endpoints }
  list_put _ _ := rfl
  put_put _ _ _ := rfl
  put_list _ := rfl
  get_eq _ _ := rfl
  set_eq _ _ _ := rfl

/-- The keys of a version's first entities. -/
def numbered (v : VersionId) (count : Nat) : List Key := (List.range count).map (⟨v, ·⟩)

theorem flatMap_numbered {α β : Type} (v : VersionId) (xs : List α) (g : α → List β) :
    (numbered v xs.length).flatMap (fun k => (xs[k.index]?.map g).getD []) = xs.flatMap g := by
  have read : (List.range xs.length).map (fun i => (xs[i]?.map g).getD []) = xs.map g := by
    refine List.ext_getElem (by simp) fun i _ bound => ?_
    rw [List.length_map] at bound
    simp [bound]
  rw [numbered, List.flatMap_map, List.flatMap_def, List.flatMap_def, ← read]

namespace Shelf
variable {E : Type} (S : Shelf E) {g : E → E} {ls : E → List Lookup}
  {step : Model → Key → E → Noting E} {P : Model → Prop}

/-- A model in which a version has some entities. -/
def held (m : Model) (v : VersionId) (es : List E) : Model :=
  m.modifyFile v fun f => S.put f es

theorem held_list (known : m.file? v = some f) : S.held m v (S.list f) = m := by
  refine Model.modify_self fun ver found => ?_
  rw [Model.file?, found] at known
  cases known
  exact congrArg (fun file => { ver with file }) (S.put_list ver.file)

theorem get_held (known : m.file? v = some f) (es : List E) (i : Nat) :
    S.kind.get (S.held m v es) ⟨v, i⟩ = es[i]? := by
  rw [S.get_eq, held, Model.file?_modifyFile, if_pos rfl, known, Option.map_some,
    Option.bind_some, S.list_put]

theorem set_held (es : List E) (i : Nat) (e : E) :
    S.kind.set (S.held m v es) ⟨v, i⟩ e = S.held m v (es.set i e) := by
  rw [S.set_eq, held, held, Model.modifyFile, Model.modifyFile, Model.modify_modify,
    Model.modifyFile]
  simp only [S.list_put, S.put_put]

/-- A loop over the entities of a file changes each of them, if its steps do so wherever the loop
is. -/
theorem loop_looksUp (known : m.file? v = some f)
    (each : ∀ n k e, P n → LooksUp (g e) (ls e) (step n k e))
    (holds : ∀ before after, S.list f = before ++ after →
      P (S.held m v (before.map g ++ after))) :
    LooksUp (S.held m v ((S.list f).map g)) ((S.list f).flatMap ls)
      (S.kind.loop step (numbered v (S.list f).length) m) := by
  suffices all : ∀ after before, S.list f = before ++ after →
      LooksUp (S.held m v ((S.list f).map g)) (after.flatMap ls)
        (((List.range' before.length after.length).map (⟨v, ·⟩)).foldlM (S.kind.step step)
          (S.held m v (before.map g ++ after))) by
    have whole := all (S.list f) [] rfl
    rw [List.map_nil, List.nil_append, S.held_list known] at whole
    rw [Kind.loop, numbered, List.range_eq_range']
    exact whole
  intro after
  induction after with
  | nil =>
      intro before split
      rw [split, List.append_nil, List.append_nil]
      exact .pure _
  | cons e after ih =>
      intro before split
      have here : S.kind.get (S.held m v (before.map g ++ e :: after)) ⟨v, before.length⟩ =
          some e := by
        rw [S.get_held known]
        simp
      rw [List.length_cons, List.range'_succ, List.map_cons, List.foldlM_cons,
        Kind.step_found here, List.flatMap_cons, map_eq_pure_bind, bind_assoc]
      refine (each _ _ e (holds before (e :: after) split)).bind ?_
      rw [pure_bind, S.set_held]
      have shifted := ih (before ++ [e]) (by rw [split, List.append_assoc]; rfl)
      simpa using shifted

end Shelf

section Keys

theorem oneKey_of_class? (same : ∀ k, n.class? k = m.class? k) (k : Key) :
    oneKey n k = oneKey m k := by
  rw [oneKey, oneKey, same]

theorem primaryKeys_bound (c : Class) :
    (c.boundProperties s m).primaryKeys.length = c.primaryKeys.length := by
  have keys : ∀ p : Property, (p.bound s m).isPrimaryKey = p.isPrimaryKey := fun p => by
    cases p <;> rfl
  have mapped : (c.boundProperties s m).primaryKeys =
      (c.properties.map (Property.bound s m)).filter (·.isPrimaryKey) := rfl
  rw [mapped, List.filter_map, List.length_map]
  exact congrArg List.length (List.filter_congr fun p _ => keys p)

end Keys

section Binding

/-- A model in which a file, all of whose entities are its own, is on its way to be bound. -/
structure Underway (s : Scope) (m n : Model) (f : ModelFile) : Prop where
  file : n.file? s.self = some f
  classes : n.ownClasses s.self = numbered s.self f.classes.length
  endpoints : n.ownEndpoints s.self = numbered s.self f.endpoints.length
  keys : ∀ k, oneKey n k = oneKey m k

theorem underway_of_fresh (fresh : m.version? s.self = some (.fresh s.self f)) :
    Underway s m m f where
  file := by rw [Model.file?, fresh, Option.map_some]; rfl
  classes := by rw [Model.ownClasses_of_fresh fresh, Model.classes, fresh]; rfl
  endpoints := by rw [Model.ownEndpoints_of_fresh fresh, Model.endpoints, fresh]; rfl
  keys _ := rfl

/-- Whether a class has one key does not change where its keys stay as many. -/
theorem oneKey_held (file : n.file? v = some f) {g : Class → Class}
    (keys : ∀ c, (g c).primaryKeys.length = c.primaryKeys.length) {before after : List Class}
    (split : f.classes = before ++ after) (k : Key) :
    oneKey (classShelf.held n v (before.map g ++ after)) k = oneKey n k := by
  obtain ⟨w, i⟩ := k
  by_cases here : w = v
  · subst here
    have held := classShelf.get_held file (before.map g ++ after) i
    have known : n.class? ⟨w, i⟩ = (before ++ after)[i]? := by
      rw [Model.class?, file, Option.bind_some, split]
    have counts : (before.map g ++ after).map (·.primaryKeys.length) =
        (before ++ after).map (·.primaryKeys.length) := by
      rw [List.map_append, List.map_append, List.map_map]
      exact congrArg (· ++ _) (List.map_congr_left fun c _ => keys c)
    have at_i := congrArg (·[i]?) counts
    simp only [List.getElem?_map] at at_i
    rw [oneKey, oneKey, known, ← at_i]
    exact congrArg (fun o : Option Class => o.map (·.primaryKeys.length) == some 1) held
  · have other : (classShelf.held n v (before.map g ++ after)).class? ⟨w, i⟩ = n.class? ⟨w, i⟩ :=
      Model.class?_congr (Model.version?_modify_other here)
    rw [oneKey, oneKey, other]

theorem class?_held_endpoints (n : Model) (v : VersionId) (es : List Endpoint) (k : Key) :
    (endpointShelf.held n v es).class? k = n.class? k :=
  n.class?_modifyFile v (g := fun f => { f with endpoints := es }) (fun _ => rfl) k

namespace Underway
variable {g : Class → Class} {ls : Class → List Lookup}

theorem setClasses (h : Underway s m n f)
    (keys : ∀ c, (g c).primaryKeys.length = c.primaryKeys.length) :
    Underway s m (classShelf.held n s.self (f.classes.map g))
      { f with classes := f.classes.map g } where
  file := by
    rw [Shelf.held, Model.file?_modifyFile, if_pos rfl, h.file]
    rfl
  classes := by rw [Shelf.held, Model.ownClasses_modifyFile, h.classes, List.length_map]
  endpoints := by rw [Shelf.held, Model.ownEndpoints_modifyFile, h.endpoints]
  keys k := by
    have same := oneKey_held h.file keys (List.append_nil f.classes).symm k
    rw [List.append_nil] at same
    exact same.trans (h.keys k)

theorem forOwnClasses (h : Underway s m n f) {step : Model → Key → Class → Noting Class}
    (keys : ∀ c, (g c).primaryKeys.length = c.primaryKeys.length)
    (each : ∀ n k c, (∀ k, oneKey n k = oneKey m k) → LooksUp (g c) (ls c) (step n k c)) :
    LooksUp (classShelf.held n s.self (f.classes.map g)) (f.classes.flatMap ls)
      (forOwnClasses s step n) := by
  rw [forOwnClasses_eq, h.classes]
  refine classShelf.loop_looksUp h.file each fun before after split k => ?_
  exact (oneKey_held h.file keys split k).trans (h.keys k)

theorem setEndpoints (h : Underway s m n f) (g : Endpoint → Endpoint) :
    Underway s m (endpointShelf.held n s.self (f.endpoints.map g))
      { f with endpoints := f.endpoints.map g } where
  file := by
    rw [Shelf.held, Model.file?_modifyFile, if_pos rfl, h.file]
    rfl
  classes := by rw [Shelf.held, Model.ownClasses_modifyFile, h.classes]
  endpoints := by rw [Shelf.held, Model.ownEndpoints_modifyFile, h.endpoints, List.length_map]
  keys k := (oneKey_of_class? (class?_held_endpoints n s.self _) k).trans (h.keys k)

theorem forOwnEndpoints (h : Underway s m n f) {g : Endpoint → Endpoint}
    {ls : Endpoint → List Lookup} {step : Model → Endpoint → Noting Endpoint}
    (each : ∀ n e, (∀ k, oneKey n k = oneKey m k) → LooksUp (g e) (ls e) (step n e)) :
    LooksUp (endpointShelf.held n s.self (f.endpoints.map g)) (f.endpoints.flatMap ls)
      (forOwnEndpoints s step n) := by
  rw [forOwnEndpoints_eq, h.endpoints]
  refine endpointShelf.loop_looksUp h.file (fun n _ e => each n e) fun before after _ k => ?_
  exact (oneKey_of_class? (class?_held_endpoints n s.self _) k).trans (h.keys k)

theorem bindConverters (h : Underway s m n f) :
    LooksUp (n.modifyFile s.self fun f' => { f' with domains := f.domains.map (Domain.bound s) })
      (f.domains.flatMap (Domain.lookups s)) (bindConverters s n) := by
  have domains : ((n.file? s.self).map (·.domains)).getD [] = f.domains := by
    rw [h.file, Option.map_some, Option.getD_some]
  unfold Resolution.bindConverters
  simp only [domains]
  have numbered : LooksUp (f.domains.zipIdx.map fun p => p.1.bound s)
      (f.domains.zipIdx.flatMap fun p => p.1.lookups s)
      (f.domains.zipIdx.mapM fun p => do
        let converters ← p.1.converters.mapM fun c => do
          let found ← c.targetReferences.mapM (findDomain n s (.domain ⟨s.self, p.2⟩))
          return { c with targets := found.filterMap id }
        return { p.1 with converters }) := by
    refine LooksUp.mapM fun p => ?_
    refine (LooksUp.mapM (g := Converter.bound s) fun c => ?_).map _
    have found := (mapM_looksUp (findDomain_looksUp (s := s) n (.domain ⟨s.self, p.2⟩))
      c.targetReferences).map fun found => { c with targets := found.filterMap id }
    rwa [List.filterMap_map] at found
  rw [map_zipIdx_fst, flatMap_zipIdx_fst] at numbered
  exact numbered.map fun domains => n.modifyFile s.self fun f' => { f' with domains }

end Underway

/-- The model after each loop of binding, one after the other. -/
theorem bound_eq (file : m.file? s.self = some f) :
    (endpointShelf.held (classShelf.held (classShelf.held (classShelf.held m
      s.self (f.classes.map (Class.boundParent s))) s.self
      ((f.classes.map (Class.boundParent s)).map (Class.boundDecorators s))) s.self
      (((f.classes.map (Class.boundParent s)).map (Class.boundDecorators s)).map
        (Class.boundProperties s m))) s.self (f.endpoints.map (Endpoint.bound s m))).modifyFile s.self
      (fun f' => { f' with domains := f.domains.map (Domain.bound s) }) = m.bound s := by
  simp only [Shelf.held, Model.modifyFile_modifyFile]
  refine Model.modifyFile_congr file ?_
  simp [ModelFile.bound, classShelf, endpointShelf, Function.comp_def, Class.bound]

/-- Binding a file just loaded binds each of its references as it means. -/
theorem bind_looksUp (fresh : m.version? s.self = some (.fresh s.self f)) :
    LooksUp (m.bound s) (f.lookups s m) (bind s m) := by
  have start := underway_of_fresh fresh
  have parents := start.setClasses (g := Class.boundParent s) fun _ => rfl
  have decorators := parents.setClasses (g := Class.boundDecorators s) fun _ => rfl
  have properties := decorators.setClasses (g := Class.boundProperties s m) primaryKeys_bound
  have endpoints := properties.setEndpoints (Endpoint.bound s m)
  have decorated : (f.classes.map (Class.boundParent s)).flatMap (Class.decoratorLookups s) =
      f.classes.flatMap (Class.decoratorLookups s) := List.flatMap_map ..
  have listed : ((f.classes.map (Class.boundParent s)).map (Class.boundDecorators s)).flatMap
      (Class.propertyLookups s m) = f.classes.flatMap (Class.propertyLookups s m) := by
    rw [List.flatMap_map, List.flatMap_map]
    rfl
  rw [← bound_eq start.file, ModelFile.lookups, ← decorated, ← listed]
  refine (start.forOwnClasses (g := Class.boundParent s) (fun _ => rfl) fun n k c _ =>
    bindParent_looksUp n k c).bind ?_
  refine (parents.forOwnClasses (g := Class.boundDecorators s) (fun _ => rfl) fun n k c _ =>
    bindDecorators_looksUp n k c).bind ?_
  refine (decorators.forOwnClasses primaryKeys_bound fun n k c keys =>
    bindClassProperties_looksUp keys k c).bind ?_
  exact (properties.forOwnEndpoints fun n e keys =>
    bindEndpointProperties_looksUp keys e).bind endpoints.bindConverters

end Binding

section References

/-- The names in a property that are bound with it. -/
def references : Property → List Reference
  | .regular p => [p.domainReference]
  | .association a => [a.reference]
  | .composition c => c.reference :: c.domainKindReference.toList
  | .alias a => a.listDomainReference.toList

theorem references_of (missing : Code) (look : String → Option Key) (r : Option Reference) :
    (lookupsOf missing r look).map (·.reference) = r.toList := by
  rw [lookupsOf, List.map_map]
  exact List.map_id _

theorem references_property (p : Property) :
    (p.lookups s m).map (·.reference) = references p := by
  cases p with
  | regular p => rfl
  | association a => rfl
  | composition c => exact congrArg (c.reference :: ·) (references_of ..)
  | «alias» a => exact references_of ..

theorem map_references (ps : List Property) :
    (ps.flatMap (Property.lookups s m)).map (·.reference) = ps.flatMap references := by
  rw [List.map_flatMap]
  exact List.flatMap_congr fun p _ => references_property p

theorem references_bound (f : ModelFile) :
    (f.lookups s m).map (·.reference) = f.classes.flatMap (·.parentReference.toList) ++
      (f.classes.flatMap (·.decoratorReferences) ++
        (f.classes.flatMap (·.properties.flatMap references) ++
          (f.endpoints.flatMap (·.properties.flatMap references) ++
            f.domains.flatMap (·.converters.flatMap (·.targetReferences))))) := by
  have same : ∀ (missing : Code) (look : String → Option Key) (rs : List Reference),
      (rs.map fun r => Lookup.of missing (look r.name) r).map (·.reference) = rs :=
    fun missing look rs => (List.map_map ..).trans (List.map_id _)
  have converters : ∀ d : Domain, (d.lookups s).map (·.reference) =
      d.converters.flatMap (·.targetReferences) := by
    intro d
    rw [Domain.lookups, List.map_flatMap]
    exact List.flatMap_congr fun c _ => same ..
  simp only [ModelFile.lookups, List.map_append, List.map_flatMap, converters]
  simp only [Class.parentLookups, references_of, Class.decoratorLookups, same,
    Class.propertyLookups, Endpoint.lookups, map_references]

end References
end Resolution
end DataModel
