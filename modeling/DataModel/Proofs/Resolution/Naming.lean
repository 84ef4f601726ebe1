import DataModel.Proofs.Resolution.Running

/-!
Names that have an end. Whether a class leads back to itself can be told before a file is resolved:
its classes lead to what the names in their keys mean, and the others lead to where they go
already. Where none does, resolving the file runs through, and every name is known.
-/
namespace DataModel

section Steps

/-- The only primary key of a class is an association, which goes to a class once the file of the
scope is resolved. -/
def Resolution.Scope.KeyStep (s : Resolution.Scope) (m : Model) (k t : Key) : Prop :=
  ∃ c key, m.class? k = some c ∧ c.primaryKeys = [.association key] ∧
    if k.version = s.self then s.Means key.reference.name t else key.target = some t

/-- No class will lead back to itself. -/
def Resolution.Scope.Acyclic (s : Resolution.Scope) (m : Model) : Prop :=
  ∀ k, ¬ Relation.TransGen (s.KeyStep m) k k

/-- An association of a class or of an endpoint. -/
def Model.HasAssociation (m : Model) (a : Association) : Prop :=
  (∃ k c, m.class? k = some c ∧ .association a ∈ c.properties) ∨
    ∃ k e, m.endpoint? k = some e ∧ .association a ∈ e.properties

theorem Model.Keyed.association {m : Model} {a : Association} (keyed : m.Keyed)
    (has : m.HasAssociation a) : Property.Keyed m (.association a) := by
  rcases has with ⟨k, c, found, member⟩ | ⟨k, e, found, member⟩
  · exact keyed.classes found _ member
  · exact keyed.endpoints found _ member

end Steps

namespace Resolution
variable {s : Scope} {m n : Model} {f : ModelFile}

section Steps

/-- Where every class that leads on leads to one of a lower rank, none leads back to itself. -/
theorem Scope.Acyclic.of_rank (rank : Key → Nat)
    (falls : ∀ k t, s.KeyStep m k t → rank t < rank k) : s.Acyclic m := by
  have lower : ∀ k t, Relation.TransGen (s.KeyStep m) k t → rank t < rank k := by
    intro k t way
    induction way with
    | single step => exact falls _ _ step
    | tail _ step ih => exact (falls _ _ step).trans ih
  exact fun k circle => Nat.lt_irrefl _ (lower k k circle)

/-- A key of a bound class goes where it was to go. -/
theorem keyStep_before (fresh : m.version? s.self = some (.fresh s.self f)) (declared : f.Declared)
    (bound : Rebinding s.self m n) (aims : Aims s m n) {k t : Key} (step : n.KeyStep k t) :
    s.KeyStep m k t := by
  obtain ⟨d, key, found, keys, target⟩ := step
  by_cases home : k.version = s.self
  · obtain ⟨c, before, same⟩ := bound.class_before found
    have like := Class.primaryKeys_of_unbound same
    rw [keys, List.map_singleton, eq_comm, List.map_eq_singleton_iff] at like
    obtain ⟨p, keys', like⟩ := like
    cases p with
    | association key' =>
        have reference : key'.reference = key.reference :=
          Option.some.inj (congrArg Property.targetReference? like)
        refine ⟨c, key', before, keys', ?_⟩
        have member : .association key' ∈ c.properties := by
          have isKey : .association key' ∈ c.primaryKeys := keys' ▸ List.mem_singleton_self _
          exact List.mem_of_mem_filter isKey
        have original : (Property.association key).origin? = none := by
          rw [← Property.origin?_unbound, ← like, Property.origin?_unbound]
          exact ((declared.classes c (Model.class_at_fresh fresh home before)).forall _ member).2
        have isKey : .association key ∈ d.primaryKeys := keys ▸ List.mem_singleton_self _
        obtain ⟨r, same, means⟩ := (aims.classes k d home found).properties _
          (List.mem_of_mem_filter isKey) original t target
        cases same
        rw [if_pos home, reference]
        exact means
    | _ => cases like
  · refine ⟨d, key, ?_, keys, ?_⟩
    · rw [← found, Model.class?, Model.class?, Model.file?, Model.file?, bound.others home]
    · rw [if_neg home]
      exact target

end Steps

section Stages

theorem bind_acyclic (fresh : m.version? s.self = some (.fresh s.self f)) (declared : f.Declared)
    (acyclic : s.Acyclic m) : Gives (fun _ n => n.Acyclic) (bind s m) := by
  refine ((bind_rebinding (Model.homed_of_fresh fresh)).and
    (bind_aims (.start fresh declared.unlinked))).mono fun _ n outcome k circle => ?_
  obtain ⟨bound, aims⟩ := outcome
  have steps : ∀ k t, n.KeyStep k t → s.KeyStep m k t :=
    fun _ _ => keyStep_before fresh declared bound aims
  exact acyclic k (Relation.TransGen.mono steps _ _ circle)

theorem linking_acyclic (fresh : m.version? s.self = some (.fresh s.self f))
    (declared : f.Declared) (acyclic : s.Acyclic m) :
    Gives (fun _ n => n.Acyclic) (linking s m) := by
  unfold linking
  rw [collapseAll_undone (undone_of_declared fresh declared), pure_bind]
  refine (checkUses_gives m s).bind fun _ _ _ => ?_
  refine (bind_acyclic fresh declared acyclic).bind fun _ n acyclic => ?_
  exact (expandAll_primaryKeys s n).mono fun _ _ same => acyclic.keep same

theorem linking_runs (fresh : m.version? s.self = some (.fresh s.self f)) (declared : f.Declared)
    (acyclic : s.Acyclic m) : Runs (linking s m) := by
  unfold linking
  rw [collapseAll_undone (undone_of_declared fresh declared), pure_bind]
  refine (checkUses_runs m s).andThen fun _ => ?_
  exact (bind_runs s m).bind (bind_acyclic fresh declared acyclic) fun _ _ => expandAll_runs

theorem shareAliases_acyclic (acyclic : m.Acyclic) :
    Gives (fun _ n => n.Acyclic) (shareAliases s m) := by
  refine (shareAliases_files s m).mono fun _ n files => acyclic.keep fun k => ?_
  rw [class?_of_files files]

theorem steps_acyclic (fresh : m.version? s.self = some (.fresh s.self f)) (declared : f.Declared)
    (acyclic : s.Acyclic m) (allowCompositeKeys : Bool) :
    Gives (fun _ n => n.Acyclic) (steps s allowCompositeKeys m) := by
  rw [steps_eq]
  refine (linking_acyclic fresh declared acyclic).bind fun _ n linked => ?_
  refine (shareAliases_acyclic linked).bind fun _ n' shared => ?_
  exact (checking_plain allowCompositeKeys).bind fun _ _ _ => .pure shared

theorem steps_runs (fresh : m.version? s.self = some (.fresh s.self f)) (declared : f.Declared)
    (acyclic : s.Acyclic m) (allowCompositeKeys : Bool) :
    Runs (steps s allowCompositeKeys m) := by
  rw [steps_eq]
  refine (linking_runs fresh declared acyclic).bind (linking_acyclic fresh declared acyclic) ?_
  refine fun _ n linked => (shareAliases_runs s n).bind (shareAliases_acyclic linked) ?_
  refine fun _ n' shared => Runs.andThen ?_ fun _ => .pure n'
  exact checking_runs (checkKeys_runs fun _ _ _ _ p _ => shared.propertyName p)
    (checkDuplicates_runs shared) _ allowCompositeKeys

end Stages
end Resolution

namespace Model
open Resolution
variable {m : Model} {v : VersionId} {f : ModelFile} {dependencies : List VersionId}
  {domains : Table Key} {allowCompositeKeys : Bool}

/-- A file just loaded resolves where no class will lead back to itself. Every name is then known,
and the way from each association to a key comes to an end, if the associations bound before go to
single keys. -/
theorem resolve_of_acyclic (fresh : m.version? v = some (.fresh v f)) (declared : f.Declared)
    (acyclic : (Scope.of m v dependencies domains).Acyclic m) :
    ∃ ds n, m.resolve v dependencies domains allowCompositeKeys = .ok (ds, n) ∧
      (∀ p, (n.propertyName? p).isSome) ∧ (m.Keyed → ∀ a, n.HasAssociation a → n.Ends a) := by
  obtain ⟨⟨n, notes⟩, run⟩ :=
    steps_runs (s := .of m v dependencies domains) fresh declared acyclic allowCompositeKeys ⟨[], []⟩
  have done : m.resolve v dependencies domains allowCompositeKeys = .ok (notes.diagnostics, n) := by
    unfold resolve
    dsimp only
    rw [run]
    rfl
  have linked := steps_acyclic (s := .of m v dependencies domains) fresh declared acyclic
    allowCompositeKeys
  obtain ⟨_, -, acyclic⟩ := linked _ _ _ run
  refine ⟨_, _, done, acyclic.propertyName, fun keyed a has => ?_⟩
  have keyed := (resolve_outcome fresh declared done).aims.keyed keyed
  exact acyclic.ends keyed (keyed.association has)

namespace Chaining

/-- A class with one property, which is its key. -/
def single (name : String) (key : Property) : Class where
  name := name
  comment := "c"
  label := none
  trigram := none
  pluralName := none
  stereotype := .none
  isReference := false
  orderProperty := none
  defaultProperty := none
  parentReference := none
  parent := none
  decoratorReferences := []
  decorators := []
  properties := [key]
  home := some ⟨"App", "M"⟩
  location := some ⟨"class", 3, 1⟩

def plainKey : Property :=
  .regular ⟨"x", none, "c", ⟨"name", 3, 44⟩, true, ⟨"D", 3, 61⟩, none, false, true, none, none⟩

def keyTo (name : String) : Property :=
  .association ⟨none, "c", ⟨"association", 3, 44⟩, true, ⟨name, 3, 57⟩, none, none, .manyToOne, true,
    none, none, none⟩

/-- A file that declares nothing but classes. -/
def file (name : String) (uses : List Reference) (classes : List Class) : ModelFile where
  name := name
  path := "/model/" ++ name ++ ".tmd"
  module := "M"
  source := ""
  tags := []
  uses := uses
  domains := []
  decorators := []
  classes := classes
  endpoints := []
  aliases := []

def source : ModelFile := file "G" [] [single "A" plainKey]

def user : ModelFile :=
  file "F" [⟨"G", 2, 7⟩] [single "B" (keyTo "A"), single "C" (keyTo "B")]

/-- A file whose keys lead to the one of another file. -/
def chain : Model := ⟨#[.fresh 0 source, .fresh 1 user]⟩

/-- A class that is to be a key of itself. -/
def circle : ModelFile := file "A" [] [single "A" (keyTo "A")]

theorem declared_plainKey : plainKey.Declared 0 :=
  ⟨⟨.none, fun a made => by cases made⟩, rfl, fun a isAlias => by cases isAlias⟩

theorem declared_keyTo (name : String) : (keyTo name).Declared 0 :=
  ⟨⟨.none, fun a made => by cases made⟩, rfl, fun a isAlias => by cases isAlias⟩

theorem declared_file {name : String} {uses : List Reference} {classes : List Class}
    (each : ∀ c ∈ classes, ∃ name key, c = single name key ∧ key.Declared 0) :
    (file name uses classes).Declared := by
  have declares : ∀ c ∈ classes, Declares c.properties := by
    intro c hc
    obtain ⟨_, key, rfl, declared⟩ := each c hc
    exact Declares.nil.snoc declared
  refine ⟨⟨fun _ h => absurd h List.not_mem_nil, fun c hc => ?_,
    fun _ h => absurd h List.not_mem_nil⟩, declares, fun _ h => absurd h List.not_mem_nil⟩
  obtain ⟨_, key, rfl, declared⟩ := each c hc
  exact ⟨.none, .nil, fun p hp => ((declares _ hc).forall p hp).1⟩

theorem declared_source : source.Declared :=
  declared_file fun _ hc => ⟨"A", _, List.mem_singleton.mp hc, declared_plainKey⟩

theorem declared_user : user.Declared := by
  refine declared_file fun c hc => ?_
  rcases List.mem_cons.mp hc with rfl | hc
  · exact ⟨"B", _, rfl, declared_keyTo "A"⟩
  · exact ⟨"C", _, List.mem_singleton.mp hc, declared_keyTo "B"⟩

theorem declared_circle : circle.Declared :=
  declared_file fun _ hc => ⟨"A", _, List.mem_singleton.mp hc, declared_keyTo "A"⟩

theorem class_chain {k : Key} {c : Class} (found : chain.class? k = some c) :
    (k = ⟨0, 0⟩ ∧ c = single "A" plainKey) ∨ (k = ⟨1, 0⟩ ∧ c = single "B" (keyTo "A")) ∨
      (k = ⟨1, 1⟩ ∧ c = single "C" (keyTo "B")) := by
  have known := mem_classKeys (k := k) (by rw [found]; rfl)
  rw [show chain.classKeys = [⟨0, 0⟩, ⟨1, 0⟩, ⟨1, 1⟩] from rfl] at known
  simp only [List.mem_cons, List.not_mem_nil, or_false] at known
  rcases known with rfl | rfl | rfl
  · exact .inl ⟨rfl, (Option.some.inj found).symm⟩
  · exact .inr (.inl ⟨rfl, (Option.some.inj found).symm⟩)
  · exact .inr (.inr ⟨rfl, (Option.some.inj found).symm⟩)

theorem acyclic_chain : (Scope.of chain 1 [0] []).Acyclic chain := by
  refine .of_rank (fun k => k.version + k.index) ?_
  rintro k t ⟨c, key, found, keys, leads⟩
  rcases class_chain found with ⟨rfl, rfl⟩ | ⟨rfl, rfl⟩ | ⟨rfl, rfl⟩
  · cases keys
  · cases keys
    obtain ⟨o, means, rfl⟩ := leads
    rw [show Table.get? _ _ = some ⟨⟨0, 0⟩, "G"⟩ from rfl] at means
    cases means
    decide
  · cases keys
    obtain ⟨o, means, rfl⟩ := leads
    rw [show Table.get? _ _ = some ⟨⟨1, 0⟩, "F"⟩ from rfl] at means
    cases means
    decide

theorem keyed_chain : chain.Keyed :=
  (Keyed.empty.add declared_source.unlinked).add declared_user.unlinked

end Chaining
open Chaining

theorem resolve_of_acyclic_chain :
    user.Declared ∧ (Scope.of chain 1 [0] []).Acyclic chain ∧ chain.Keyed ∧
      ∃ ds n, chain.resolve 1 [0] [] false = .ok (ds, n) ∧
        (∀ p, (n.propertyName? p).isSome) ∧ ∀ a, n.HasAssociation a → n.Ends a := by
  refine ⟨declared_user, acyclic_chain, keyed_chain, ?_⟩
  obtain ⟨ds, n, done, named, ends⟩ :=
    @resolve_of_acyclic chain 1 user [0] [] false rfl declared_user acyclic_chain
  exact ⟨ds, n, done, named, ends keyed_chain⟩

/-- Where a class is the key of itself, resolving its file does not come to an end. -/
theorem resolve_circle :
    circle.Declared ∧
      (⟨#[.fresh 0 circle]⟩ : Model).resolve 0 [] [] false = .error .endlessName := by
  refine ⟨declared_circle, ?_⟩
  with_unfolding_all rfl

end Model
end DataModel
