import DataModel.Proofs.Resolution.Resolve

/-!
What names mean. Of two entities of one name the later one counts: the last one that a file
declares, or else the last one that the last file with such an entity offers.
-/
namespace DataModel
namespace Resolution
variable {m : Model} {v : VersionId} {dependencies : List VersionId} {domains : Table Key}

/-- The last class of a name. -/
def lastClass? (m : Model) (ks : List Key) (name : String) : Option Key :=
  ks.reverse.find? (className? m · == some name)

/-- The last decorator of a name that a file declares. -/
def lastDecorator? (m : Model) (v : VersionId) (name : String) : Option Key :=
  ((((m.file? v).map (·.decorators)).getD []).zipIdx.reverse.find? (·.1.name == name)).map
    fun p => ⟨v, p.2⟩

namespace Scope

/-- The class that a name means. -/
def class? (s : Scope) (name : String) : Option Key := (s.classes.get? name).map (·.key)

def decorator? (s : Scope) (name : String) : Option Key := (s.decorators.get? name).map (·.key)

def domain? (s : Scope) (name : String) : Option Key := s.domains.get? name

def file? (s : Scope) (name : String) : Option VersionId := s.dependencies.get? name

/-- What the names in a file mean: an own entity, or else one that a dependency provides, and of
several the last one. Domains are known by a table, and files are the dependencies. -/
structure Sees (s : Scope) (m : Model) (v : VersionId) (dependencies : List VersionId)
    (domains : Table Key) : Prop where
  self : s.self = v
  classes : ∀ name, s.class? name = (lastClass? m (m.ownClasses v) name).or
    (dependencies.reverse.findSome? fun d => lastClass? m (m.classes d) name)
  decorators : ∀ name, s.decorator? name = (lastDecorator? m v name).or
    (dependencies.reverse.findSome? fun d => lastDecorator? m d name)
  domains : ∀ name, s.domain? name = domains.get? name
  files : ∀ name, s.file? name = dependencies.reverse.find? (m.fileName · == name)

end Scope

theorem get?_offeredClasses (m : Model) (ks : List Key) (file name : String) :
    (Table.ofList (offeredClasses m ks file)).get? name =
      (lastClass? m ks name).map (⟨·, file⟩) := by
  induction ks with
  | nil => rfl
  | cons k ks ih =>
      have split : offeredClasses m (k :: ks) file =
          ((m.class? k).map fun c => (c.name, (⟨k, file⟩ : Offer))).toList ++
            offeredClasses m ks file := by
        rw [offeredClasses, List.filterMap_cons]
        cases m.class? k <;> rfl
      have own : (Table.ofList ((m.class? k).map fun c =>
          (c.name, (⟨k, file⟩ : Offer))).toList).get? name =
          ([k].find? (className? m · == some name)).map (⟨·, file⟩) := by
        cases known : m.class? k with
        | none => simp [className?, known, Table.ofList]
        | some c =>
            rw [Option.map_some, Option.toList_some, Table.get?_ofList_single]
            by_cases same : c.name = name <;> simp [className?, known, same]
      have last : lastClass? m (k :: ks) name =
          (lastClass? m ks name).or ([k].find? (className? m · == some name)) := by
        rw [lastClass?, List.reverse_cons, List.find?_append, lastClass?]
      rw [split, Table.get?_ofList_append, ih, own, last, Option.map_or]

theorem get?_offeredDecorators (m : Model) (v : VersionId) (name : String) :
    (Table.ofList (offeredDecorators m v)).get? name =
      (lastDecorator? m v name).map (⟨·, m.fileName v⟩) := by
  rw [offeredDecorators, lastDecorator?, Option.map_map]
  exact Table.get?_ofList_map _ _ _ name

/-- The tables of a file say what its names mean. -/
theorem scope_sees (m : Model) (v : VersionId) (dependencies : List VersionId)
    (domains : Table Key) :
    (Scope.of m v dependencies domains).Sees m v dependencies domains := by
  have offers : ∀ {f : VersionId → Option Key} {g : VersionId → String} {o : Option Key}
      {own : String},
      ((o.map (⟨·, own⟩ : Key → Offer)).or (dependencies.reverse.findSome? fun d =>
        (f d).map (⟨·, g d⟩))).map (·.key) = o.or (dependencies.reverse.findSome? f) := by
    intro f g o own
    cases o with
    | some k => rfl
    | none =>
        rw [Option.map_none, Option.none_or, Option.none_or, List.map_findSome?]
        congr 1
        funext d
        exact (Option.map_map ..).trans Option.map_id'
  refine ⟨rfl, fun name => ?_, fun name => ?_, fun _ => rfl, fun name => ?_⟩
  · show ((Table.ofList (_ ++ _)).get? name).map _ = _
    rw [Table.get?_ofList_append, Table.get?_ofList_flatMap, get?_offeredClasses]
    simp only [get?_offeredClasses]
    exact offers
  · show ((Table.ofList (_ ++ _)).get? name).map _ = _
    rw [Table.get?_ofList_append, Table.get?_ofList_flatMap, get?_offeredDecorators]
    simp only [get?_offeredDecorators]
    exact offers
  · show (Table.ofList (_ : List (String × VersionId))).get? name = _
    exact (Table.get?_ofList_map m.fileName id dependencies name).trans Option.map_id'

end Resolution
end DataModel
