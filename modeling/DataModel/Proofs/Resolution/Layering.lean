import DataModel.Proofs.Resolution.Offering
import DataModel.Proofs.Resolution.Recopying

/-!
Files in layers. Files are loaded, and each is resolved once all files that it uses are: without an
error, and for good, since no later step changes it. So what was resolved is linked with what was
resolved, whatever one of these files offers is an own class of one of them, and names stay what
they are. A field that is copied from layer to layer is in each layer what the aliases on the way
there make of it.
-/
namespace DataModel.Resolution
variable {m n : Model} {done done' : List VersionId} {v : VersionId} {dependencies : List VersionId}
  {domains : Table Key}

section Layers

/-- A file just loaded is resolved without an error, after all files that it uses. -/
structure Resolves (m : Model) (done : List VersionId) (v : VersionId)
    (dependencies : List VersionId) (domains : Table Key) (n : Model) : Prop where
  fresh : ∃ f, m.version? v = some (.fresh v f) ∧ f.Declared
  new : v ∉ done
  behind : ∀ d ∈ dependencies, d ∈ done
  result : ∃ allowCompositeKeys ds,
    m.resolve v dependencies domains allowCompositeKeys = .ok (ds, n) ∧ Clean ds

/-- A step from one model, in which some files are resolved, to another one. A file that is
resolved with errors, or before others that it uses, does not count. -/
inductive Step : Model → List VersionId → Model → List VersionId → Prop
  | load {m : Model} {done : List VersionId} (f : ModelFile) : Step m done (m.add f).1 done
  | attempt {m n : Model} {done : List VersionId} {v : VersionId} {f : ModelFile}
    {dependencies : List VersionId} {domains : Table Key} {allowCompositeKeys : Bool}
    {ds : List Diagnostic} (fresh : m.version? v = some (.fresh v f)) (new : v ∉ done)
    (result : m.resolve v dependencies domains allowCompositeKeys = .ok (ds, n)) :
    Step m done n done
  | resolve {m n : Model} {done : List VersionId} {v : VersionId} {dependencies : List VersionId}
    {domains : Table Key} (resolves : Resolves m done v dependencies domains n) :
    Step m done n (v :: done)

/-- A model that was built up step by step, and its files that are resolved. -/
inductive Built : Model → List VersionId → Prop
  | empty : Built .empty []
  | step {m n : Model} {done done' : List VersionId} (built : Built m done)
    (step : Step m done n done') : Built n done'

/-- A model in which the files that are resolved are linked with one another only; each class that
one of them offers is an own class of one of them, and holds no alias and no two properties of one
name. -/
structure Layered (m : Model) (done : List VersionId) : Prop where
  there : ∀ v ∈ done, m.Has v
  linked : ∀ v ∈ done, ∀ ver, m.version? v = some ver → ver.Linked (.among (· ∈ done))
  home : ∀ v ∈ done, ∀ k ∈ m.classes v, k.version ∈ done ∧ k ∈ m.ownClasses k.version
  distinct : ∀ v ∈ done, m.AllClasses (m.ownClasses v) fun c =>
    (∀ p ∈ c.properties, p.isAlias = false) ∧ (c.properties.map m.propertyName?).Nodup

end Layers

section Names
variable {known : VersionId → Prop} (same : ∀ v, known v → n.version? v = m.version? v)
  (linked : ∀ v, known v → ∀ ver, m.version? v = some ver → ver.Linked (.among known))
include same linked

theorem associationName?_same (fuel : Nat) {a : Association} (within : a.Linked (.among known)) :
    n.associationName? fuel a = m.associationName? fuel a := by
  induction fuel generalizing a with
  | zero => rfl
  | succ fuel ih =>
      simp only [Model.associationName?]
      cases a.givenName with
      | some name => rfl
      | none =>
          cases bound : a.target with
          | none => rfl
          | some k =>
              obtain ⟨_, -, reach⟩ := within.target k bound
              simp only [Option.bind_some]
              rw [Model.class?_congr (same k.version reach)]
              cases found : m.class? k with
              | none => rfl
              | some c =>
                  simp only [Option.map_some]
                  rcases keys : c.primaryKeys with _ | ⟨p, _ | ⟨q, rest⟩⟩
                  · rfl
                  · cases p with
                    | association key =>
                        obtain ⟨ver, there, place⟩ := Model.class?_eq_some found
                        have ofClass := (linked k.version reach ver there).file.classes c
                          (List.mem_of_getElem? place)
                        have member : Property.association key ∈ c.properties :=
                          (List.mem_filter.mp (keys ▸ List.mem_singleton_self _)).1
                        simp only [ih (ofClass.properties _ member)]
                    | _ => rfl
                  · cases p <;> rfl

/-- What is linked with some files only has the same name in models that agree on these. -/
theorem propertyName?_same {p : Property} (within : p.Linked (.among known)) :
    n.propertyName? p = m.propertyName? p := by
  cases p with
  | association a =>
      show n.associationName? _ a = m.associationName? _ a
      refine Option.ext fun name => ?_
      rw [Model.associationName?_eq_some_iff, Model.associationName?_eq_some_iff]
      simp only [associationName?_same same linked _ within]
  | _ => rfl

end Names

section Reading
variable {k : Key} {c : Class}

theorem Layered.class_linked (layered : Layered m done) (reach : k.version ∈ done)
    (found : m.class? k = some c) : c.Linked (.among (· ∈ done)) := by
  obtain ⟨ver, known, place⟩ := Model.class?_eq_some found
  exact (layered.linked k.version reach ver known).file.classes c (List.mem_of_getElem? place)

/-- Where the files that are resolved stay, so do the names in their classes. -/
theorem Layered.names (layered : Layered m done)
    (same : ∀ w ∈ done, n.version? w = m.version? w) (reach : k.version ∈ done)
    (found : m.class? k = some c) {p : Property} (inside : p ∈ c.properties) :
    n.propertyName? p = m.propertyName? p :=
  propertyName?_same same layered.linked ((layered.class_linked reach found).properties p inside)

/-- What is known of the files that are resolved is known of them where they stay. -/
theorem Layered.keep (layered : Layered m done)
    (same : ∀ w ∈ done, n.version? w = m.version? w) :
    (∀ v ∈ done, ∀ ver, n.version? v = some ver → ver.Linked (.among (· ∈ done))) ∧
      (∀ v ∈ done, ∀ k ∈ n.classes v, k.version ∈ done ∧ k ∈ n.ownClasses k.version) ∧
      ∀ v ∈ done, n.AllClasses (n.ownClasses v) fun c =>
        (∀ p ∈ c.properties, p.isAlias = false) ∧ (c.properties.map n.propertyName?).Nodup := by
  have own : ∀ w ∈ done, n.ownClasses w = m.ownClasses w := by
    intro w hw
    rw [Model.ownClasses, Model.ownClasses, same w hw]
  have offered : ∀ w ∈ done, n.classes w = m.classes w := by
    intro w hw
    rw [Model.classes, Model.classes, same w hw]
  refine ⟨fun w hw ver known => ?_, fun w hw k hk => ?_, fun w hw k hk c found => ?_⟩
  · exact layered.linked w hw ver ((same w hw).symm.trans known)
  · rw [offered w hw] at hk
    obtain ⟨reach, home⟩ := layered.home w hw k hk
    exact ⟨reach, own k.version reach ▸ home⟩
  · rw [own w hw] at hk
    have reach := (layered.home w hw k (Model.classes_of_own hk)).1
    rw [Model.class?_congr (same k.version reach)] at found
    obtain ⟨plain, once⟩ := layered.distinct w hw k hk c found
    refine ⟨plain, ?_⟩
    rwa [List.map_congr_left fun p hp => layered.names same reach found hp]

end Reading

section Steps

theorem Layered.empty : Layered .empty [] :=
  ⟨fun _ h => absurd h List.not_mem_nil, fun _ h => absurd h List.not_mem_nil,
    fun _ h => absurd h List.not_mem_nil, fun _ h => absurd h List.not_mem_nil⟩

/-- Resolving another file leaves those that are resolved as they are. -/
theorem same_of_resolve {f : ModelFile} {allowCompositeKeys : Bool} {ds : List Diagnostic}
    (fresh : m.version? v = some (.fresh v f)) (new : v ∉ done)
    (result : m.resolve v dependencies domains allowCompositeKeys = .ok (ds, n)) :
    ∀ w ∈ done, n.version? w = m.version? w := by
  intro w hw
  apply (Model.resolve_evolves fresh result).others
  rintro rfl
  exact new hw

theorem Resolves.same (resolves : Resolves m done v dependencies domains n) :
    ∀ w ∈ done, n.version? w = m.version? w := by
  obtain ⟨allow, ds, result, -⟩ := resolves.result
  obtain ⟨f, fresh, -⟩ := resolves.fresh
  exact same_of_resolve fresh resolves.new result

/-- What is resolved stays resolved, and as it is. -/
theorem Step.same (step : Step m done n done') (layered : Layered m done) :
    ∀ w ∈ done, w ∈ done' ∧ n.version? w = m.version? w := by
  intro w hw
  cases step with
  | load f => exact ⟨hw, m.version?_add_old f (layered.there w hw)⟩
  | attempt fresh new result => exact ⟨hw, same_of_resolve fresh new result w hw⟩
  | resolve resolves => exact ⟨List.mem_cons_of_mem _ hw, resolves.same w hw⟩

/-- A file that is resolved is linked with itself and those resolved before. -/
theorem Resolves.linked (resolves : Resolves m done v dependencies domains n)
    (layered : Layered m done) :
    ∀ ver, n.version? v = some ver → ver.Linked (.among (· ∈ v :: done)) := by
  obtain ⟨allow, ds, result, -⟩ := resolves.result
  obtain ⟨f, fresh, declared⟩ := resolves.fresh
  have like : Model.Like id (.among (· ∈ v :: done)) m m := by
    refine ⟨fun {w} _ => exists_movedTo ?_, fun {w ver} reach found => ?_, fun _ => rfl⟩
    · rw [id, Version.rename_id, Option.map_id]
      rfl
    · rcases List.mem_cons.mp reach with rfl | early
      · rw [fresh] at found
        cases found
        exact Version.fresh_linked declared.unlinked reach
      · exact (layered.linked w early ver found).mono
          (Horizon.among_within fun _ => List.mem_cons_of_mem v)
  have covers : Covers (.among (· ∈ v :: done)) m v dependencies domains :=
    ⟨List.mem_cons_self, fun d hd => List.mem_cons_of_mem v (resolves.behind d hd),
      fun reach _ => reach, fun reach _ _ => reach, fun _ => trivial⟩
  obtain ⟨n', result', like'⟩ := Model.resolve_same like covers result
  rw [result] at result'
  cases result'
  exact fun ver known => like'.linked List.mem_cons_self known

/-- What a resolved file offers are own classes of it, or of those resolved before. -/
theorem Resolves.home (resolves : Resolves m done v dependencies domains n)
    (layered : Layered m done) :
    ∀ k ∈ n.classes v, k.version ∈ v :: done ∧ k ∈ n.ownClasses k.version := by
  obtain ⟨allow, ds, result, -⟩ := resolves.result
  obtain ⟨f, fresh, declared⟩ := resolves.fresh
  intro k hk
  rcases (Model.resolve_outcome fresh declared result).offered k hk with own | provided
  · have here : k.version = v := (Model.homed_of_fresh fresh).classes k
      ((Model.resolve_evolves fresh result).ownClasses own)
    exact ⟨here ▸ List.mem_cons_self, here ▸ own⟩
  · obtain ⟨name, d, source, offered⟩ := provided
    obtain ⟨reach, home⟩ := layered.home d (resolves.behind d (source_of source)) k offered
    refine ⟨List.mem_cons_of_mem v reach, ?_⟩
    rw [Model.ownClasses, resolves.same k.version reach]
    exact home

/-- The references of a file that is resolved are answered. -/
theorem Resolves.answered (resolves : Resolves m done v dependencies domains n) :
    ∃ f ds ts, m.version? v = some (.fresh v f) ∧ f.Declared ∧ Clean ds ∧
      Answered (.of m v dependencies domains) m f ds n ts := by
  obtain ⟨allow, ds, result, clean⟩ := resolves.result
  obtain ⟨f, fresh, declared⟩ := resolves.fresh
  obtain ⟨ts, answered⟩ := Model.resolve_answered fresh declared result
  exact ⟨f, ds, ts, fresh, declared, clean, answered⟩

theorem Layered.resolve (layered : Layered m done)
    (resolves : Resolves m done v dependencies domains n) : Layered n (v :: done) := by
  obtain ⟨linked, home, distinct⟩ := layered.keep resolves.same
  obtain ⟨allow, ds, result, clean⟩ := resolves.result
  obtain ⟨f, fresh, declared⟩ := resolves.fresh
  have shape := (Model.resolve_evolves fresh result).keepsShape
  refine ⟨?_, ?_, ?_, ?_⟩
  · refine List.forall_mem_cons.mpr ⟨?_, fun w early => ?_⟩
    · exact shape.has.mpr (Model.has_of_version? fresh)
    · exact shape.has.mpr (layered.there w early)
  · refine List.forall_mem_cons.mpr ⟨resolves.linked layered, fun w early ver known => ?_⟩
    exact (linked w early ver known).mono (Horizon.among_within fun _ => List.mem_cons_of_mem v)
  · refine List.forall_mem_cons.mpr ⟨resolves.home layered, fun w early k hk => ?_⟩
    obtain ⟨reach, own⟩ := home w early k hk
    exact ⟨List.mem_cons_of_mem v reach, own⟩
  · exact List.forall_mem_cons.mpr
      ⟨Model.resolve_distinct fresh declared result clean, distinct⟩

theorem Step.layered (step : Step m done n done') (layered : Layered m done) :
    Layered n done' := by
  have same : ∀ w ∈ done, n.version? w = m.version? w := fun w hw => (step.same layered w hw).2
  obtain ⟨linked, home, distinct⟩ := layered.keep same
  cases step with
  | load f =>
      exact ⟨fun w hw => Model.has_add.mpr (.inr (layered.there w hw)), linked, home, distinct⟩
  | attempt fresh new result =>
      have shape := (Model.resolve_evolves fresh result).keepsShape
      exact ⟨fun w hw => shape.has.mpr (layered.there w hw), linked, home, distinct⟩
  | resolve resolves => exact layered.resolve resolves

theorem Built.layered (built : Built m done) : Layered m done := by
  induction built with
  | empty => exact .empty
  | step built step ih => exact step.layered ih

end Steps

section Chains
variable {p : Property} {name : String} {k k₀ : Key} {a : Placeholder} {as : List Placeholder}

/-- A class of one file after the other, each with an alias that selects what the alias of the one
before it makes of a field; the first class holds the field itself. The aliases are bound, and the
last one comes first. Between the turns of these files any others are loaded and resolved. -/
inductive Chain (p : Property) (name : String) (k₀ : Key) :
    Model → List VersionId → Key → List Placeholder → Prop
  | start {m : Model} {done : List VersionId} {c : Class} (built : Built m done)
    (reach : k₀.version ∈ done) (found : m.class? k₀ = some c) (inside : p ∈ c.properties)
    (field : p.isField = true) (named : m.propertyName? p = some name) :
    Chain p name k₀ m done k₀ []
  | later {m n : Model} {done done' : List VersionId} {k : Key} {as : List Placeholder}
    (chain : Chain p name k₀ m done k as) (step : Step m done n done') :
    Chain p name k₀ n done' k as
  | link {m n : Model} {done : List VersionId} {k : Key} {as : List Placeholder} {v : VersionId}
    {dependencies : List VersionId} {domains : Table Key} {i : Nat} {c : Class} {a : Placeholder}
    (chain : Chain p name k₀ m done k as) (resolves : Resolves m done v dependencies domains n)
    (found : m.class? ⟨v, i⟩ = some c) (member : .alias a ∈ c.properties)
    (means : (Scope.of m v dependencies domains).class? a.reference.name = some k)
    (selects : a.Selects (wrapped as name)) :
    Chain p name k₀ n (v :: done) ⟨v, i⟩ (a.bound (.of m v dependencies domains) :: as)

theorem Chain.built {as : List Placeholder} (chain : Chain p name k₀ m done k as) :
    Built m done := by
  induction chain with
  | start built => exact built
  | later chain step ih => exact ih.step step
  | link chain resolves _ _ _ _ ih => exact ih.step (.resolve resolves)

theorem Chain.field (chain : Chain p name k₀ m done k as) : p.isField = true := by
  induction chain with
  | start _ _ _ _ field => exact field
  | later _ _ ih => exact ih
  | link _ _ _ _ _ _ ih => exact ih

/-- A property of a name in a class of a resolved file. -/
structure Stands (m : Model) (done : List VersionId) (k : Key) (p : Property) (name : String) :
    Prop where
  reach : k.version ∈ done
  inside : ∃ c, m.class? k = some c ∧ p ∈ c.properties
  named : m.propertyName? p = some name

theorem Stands.step (stands : Stands m done k p name) (layered : Layered m done)
    (step : Step m done n done') : Stands n done' k p name := by
  obtain ⟨reach, ⟨c, found, inside⟩, named⟩ := stands
  have same : ∀ w ∈ done, n.version? w = m.version? w := fun w hw => (step.same layered w hw).2
  refine ⟨(step.same layered _ reach).1, ⟨c, ?_, inside⟩, ?_⟩
  · rw [Model.class?_congr (same k.version reach), found]
  · rw [layered.names same reach found inside, named]

/-- A class that a name means, if it is of a file resolved before, is an own class there. -/
theorem Layered.means_own (layered : Layered m done)
    (resolves : Resolves m done v dependencies domains n)
    (means : (Scope.of m v dependencies domains).class? name = some k)
    (reach : k.version ∈ done) : k ∈ m.ownClasses k.version := by
  obtain ⟨f, fresh, -⟩ := resolves.fresh
  obtain ⟨o, offer, rfl⟩ := Option.map_eq_some_iff.mp means
  rcases List.mem_append.mp (Table.mem_of_get?_ofList offer) with ofDependency | own
  · obtain ⟨d, hd, offered⟩ := List.mem_flatMap.mp ofDependency
    exact (layered.home d (resolves.behind d hd) o.key (mem_offeredClasses offered).1).2
  · have here := (Model.homed_of_fresh fresh).classes o.key (mem_offeredClasses own).1
    exact absurd (here ▸ reach) resolves.new

/-- What the alias of a file makes of a field that it selects in a class resolved before. -/
theorem Stands.link {c : Class} (stands : Stands m done k (copied as name p) (wrapped as name))
    (field : p.isField = true) (layered : Layered m done)
    (resolves : Resolves m done v dependencies domains n) {i : Nat}
    (found : m.class? ⟨v, i⟩ = some c) (member : .alias a ∈ c.properties)
    (means : (Scope.of m v dependencies domains).class? a.reference.name = some k)
    (selects : a.Selects (wrapped as name)) :
    Stands n (v :: done) ⟨v, i⟩ (composed (a.bound (.of m v dependencies domains)) as name p)
      (wrapped (a.bound (.of m v dependencies domains) :: as) name) := by
  have own := layered.means_own resolves means stands.reach
  obtain ⟨reach, ⟨d, source, inside⟩, named⟩ := stands.step layered (.resolve resolves)
  obtain ⟨f, ds, ts, fresh, declared, clean, answered⟩ := resolves.answered
  have here := (Model.mem_ownClasses_of_fresh fresh).mpr ⟨rfl, Option.isSome_of_eq_some found⟩
  have apart : k.version ≠ v := by
    rintro rfl
    exact resolves.new stands.reach
  have own' : k ∈ n.ownClasses k.version := by
    rw [Model.ownClasses, resolves.same k.version stands.reach]
    exact own
  have once := ((layered.resolve resolves).distinct k.version reach k own' d source).2
  obtain ⟨e, result', copy⟩ := answered.copied fresh clean known_of here found member means apart
    source once inside ((copied_field as name p).trans field) named selects
  rw [copyField_copied] at copy
  exact ⟨List.mem_cons_self, ⟨e, result', copy⟩, propertyName?_composed n _ as name field⟩

theorem Chain.stands (chain : Chain p name k₀ m done k as) :
    Stands m done k (copied as name p) (wrapped as name) := by
  induction chain with
  | start built reach found inside field named =>
      exact ⟨reach, ⟨_, found, inside⟩, named.trans (congrArg some (wrapped_nil name).symm)⟩
  | later chain step ih => exact ih.step chain.built.layered step
  | link chain resolves found member means selects ih =>
      exact ih.link chain.field chain.built.layered resolves found member means selects

theorem Chain.source (chain : Chain p name k₀ m done k as) : Stands m done k₀ p name := by
  induction chain with
  | start built reach found inside field named => exact ⟨reach, ⟨_, found, inside⟩, named⟩
  | later chain step ih => exact ih.step chain.built.layered step
  | link chain resolves _ _ _ _ ih => exact ih.step chain.built.layered (.resolve resolves)

/-- Each list domain that an alias on the way names is there. -/
theorem Chain.lists (chain : Chain p name k₀ m done k as) :
    ∀ b ∈ as, b.listDomain.isSome = b.listDomainReference.isSome := by
  induction chain with
  | start => exact fun b none => absurd none List.not_mem_nil
  | later _ _ ih => exact ih
  | link chain resolves found member means selects ih =>
      obtain ⟨f, ds, ts, fresh, declared, clean, answered⟩ := resolves.answered
      have here := (Model.mem_ownClasses_of_fresh fresh).mpr ⟨rfl, Option.isSome_of_eq_some found⟩
      have there := answered.list_found fresh clean declared here found member
      exact List.forall_mem_cons.mpr ⟨there, ih⟩

/-- Aliasing again and again composes: a field that is copied from layer to layer has in the last
class the name parts of all aliases around its own name, and of all else what the outermost alias
says that says something, or what the field has. No other property of that class has its name. -/
theorem aliasing_composes (chain : Chain p name k₀ m done k (a :: as)) :
    (∃ c₀, m.class? k₀ = some c₀ ∧ p ∈ c₀.properties ∧ m.propertyName? p = some name) ∧
      (∀ b ∈ a :: as, b.listDomain.isSome = b.listDomainReference.isSome) ∧
      ∃ c, m.class? k = some c ∧ composed a as name p ∈ c.properties ∧
        m.propertyName? (composed a as name p) = some (wrapped (a :: as) name) ∧
        (k ∈ m.ownClasses k.version → ∀ q ∈ c.properties,
          m.propertyName? q = some (wrapped (a :: as) name) → q = composed a as name p) := by
  obtain ⟨-, ⟨c₀, found₀, inside₀⟩, named₀⟩ := chain.source
  obtain ⟨reach, ⟨c, found, inside⟩, named⟩ := chain.stands
  refine ⟨⟨c₀, found₀, inside₀, named₀⟩, chain.lists, c, found, inside, named, ?_⟩
  intro own q hq same
  have once := (chain.built.layered.distinct k.version reach k own c found).2
  exact List.inj_on_of_nodup_map once hq inside (same.trans named.symm)

end Chains

namespace Layers
open Model.Copying Model.Mixing

def domain (name : String) (line : Nat) : Domain :=
  ⟨name, some "l", none, none, none, [], [], some ⟨"domain", line, 1⟩⟩

/-- A file with a class, and with domains that have no converters. -/
def layer (name : String) (uses : List Reference) (domains : List Domain) (entity : String)
    (properties : List Property) : ModelFile where
  name := name
  path := "/model/" ++ name ++ ".tmd"
  module := "M"
  source := ""
  tags := []
  uses := uses
  domains := domains
  decorators := []
  classes :=
    [⟨entity, "c", none, none, none, .none, false, none, none, none, none, [], [], properties,
      some ⟨"App", "M"⟩, some ⟨"class", 4, 1⟩⟩]
  endpoints := []
  aliases := []

/-- A key that is unique and required, as it stands in the file or bound. -/
def key (domain : Option Key) : Property :=
  .regular ⟨"n", some "l", "c", ⟨"name", 4, 44⟩, true, ⟨"D", 4, 61⟩, domain, true, true, some "0",
    none⟩

def inner : Placeholder :=
  { placeholder with label := some "m", leading := "P", required := some false }

def outer (listDomain : Option Key) : Placeholder :=
  { placeholder with
    label := some ""
    comment := some "k"
    reference := ⟨"X", 4, 59⟩
    included := [⟨"Pn", 4, 72⟩]
    trailing := "s"
    listDomainReference := some ⟨"L", 4, 85⟩
    listDomain := listDomain }

def once : Property :=
  .regular ⟨"Pn", some "m", "c", ⟨"alias", 4, 44⟩, false, ⟨"D", 4, 61⟩, some ⟨0, 0⟩, false, false,
    some "0", some inner⟩

def twice : Property :=
  .regular ⟨"Pns", some "m", "k", ⟨"Pn", 4, 72⟩, false, ⟨"L", 4, 85⟩, some ⟨0, 1⟩, false, false,
    some "0", some (outer (some ⟨0, 1⟩))⟩

def bottom (ps : List Property) : ModelFile := layer "A" [] [domain "D" 2, domain "L" 3] "B" ps

def middle (ps : List Property) : ModelFile := layer "C" [⟨"A", 2, 8⟩] [] "X" ps

def top (ps : List Property) : ModelFile := layer "E" [⟨"C", 2, 8⟩] [] "Y" ps

/-- Three files, each of which uses the one before it. -/
def loaded (first second third : List Property) : Model :=
  ⟨#[.fresh 0 (bottom first), .fresh 1 (middle second), .fresh 2 (top third)]⟩

def known : Table Key := [("D", ⟨0, 0⟩), ("L", ⟨0, 1⟩)]

theorem declared_layer {name : String} {uses : List Reference} {domains : List Domain}
    {entity : String} {ps : List Property} (plain : ∀ d ∈ domains, d.converters = [])
    (declares : Declares ps) : (layer name uses domains entity ps).Declared := by
  refine ⟨⟨fun d hd c hc => ?_, fun c hc => ?_, fun e he => absurd he List.not_mem_nil⟩,
    fun c hc => ?_, fun e he => absurd he List.not_mem_nil⟩
  · rw [plain d hd] at hc
    cases hc
  · cases List.mem_singleton.mp hc
    exact ⟨.none, .nil, fun p hp => (declares.forall p hp).1⟩
  · cases List.mem_singleton.mp hc
    exact declares

theorem declared_key : Declares [key none] := by
  refine Declares.nil.snoc ⟨⟨.none, ?_⟩, rfl, ?_⟩
  · rintro _ ⟨⟩
  · rintro _ ⟨⟩

theorem resolves_bottom : Resolves (loaded [key none] [.alias inner] [.alias (outer none)]) [] 0 []
    known (loaded [key (some ⟨0, 0⟩)] [.alias inner] [.alias (outer none)]) where
  fresh := ⟨_, rfl, declared_layer (by decide) declared_key⟩
  new := List.not_mem_nil
  behind := by decide
  result := ⟨false, [], by with_unfolding_all rfl, clean_nil⟩

theorem resolves_middle : Resolves (loaded [key (some ⟨0, 0⟩)] [.alias inner] [.alias (outer none)])
    [0] 1 [0] known (loaded [key (some ⟨0, 0⟩)] [once] [.alias (outer none)]) where
  fresh :=
    ⟨_, rfl, declared_layer (by decide) (Declares.nil.snoc (declared_alias (a := inner) rfl))⟩
  new := by decide
  behind := by decide
  result := ⟨false, [], by with_unfolding_all rfl, clean_nil⟩

theorem resolves_top : Resolves (loaded [key (some ⟨0, 0⟩)] [once] [.alias (outer none)]) [1, 0] 2
    [1] known (loaded [key (some ⟨0, 0⟩)] [once] [twice]) where
  fresh :=
    ⟨_, rfl, declared_layer (by decide) (Declares.nil.snoc (declared_alias (a := outer none) rfl))⟩
  new := by decide
  behind := by decide
  result := ⟨false, [], by with_unfolding_all rfl, clean_nil⟩

theorem built_bottom :
    Built (loaded [key (some ⟨0, 0⟩)] [.alias inner] [.alias (outer none)]) [0] :=
  (((Built.empty.step (.load (bottom [key none]))).step (.load (middle [.alias inner]))).step
    (.load (top [.alias (outer none)]))).step (.resolve resolves_bottom)

theorem chain_twice : Chain (key (some ⟨0, 0⟩)) "n" ⟨0, 0⟩
    (loaded [key (some ⟨0, 0⟩)] [once] [twice]) [2, 1, 0] ⟨2, 0⟩
    [outer (some ⟨0, 1⟩), inner] := by
  have first : Chain (key (some ⟨0, 0⟩)) "n" ⟨0, 0⟩ _ [0] ⟨0, 0⟩ [] :=
    .start built_bottom (by decide) rfl List.mem_cons_self rfl rfl
  have second : Chain (key (some ⟨0, 0⟩)) "n" ⟨0, 0⟩ _ [1, 0] ⟨1, 0⟩ [inner] :=
    first.link (a := inner) resolves_middle rfl List.mem_cons_self (by with_unfolding_all rfl)
      (by decide)
  exact second.link (a := outer none) resolves_top rfl List.mem_cons_self
    (by with_unfolding_all rfl) (by decide)

end Layers
open Layers

theorem aliasing_composes_twice :
    Chain (key (some ⟨0, 0⟩)) "n" ⟨0, 0⟩ (loaded [key (some ⟨0, 0⟩)] [once] [twice]) [2, 1, 0]
        ⟨2, 0⟩ [outer (some ⟨0, 1⟩), inner] ∧
      composed (outer (some ⟨0, 1⟩)) [inner] "n" (key (some ⟨0, 0⟩)) = twice ∧
      ∃ c, (loaded [key (some ⟨0, 0⟩)] [once] [twice]).class? ⟨2, 0⟩ = some c ∧
        twice ∈ c.properties := by
  have same : composed (outer (some ⟨0, 1⟩)) [inner] "n" (key (some ⟨0, 0⟩)) = twice := by decide
  obtain ⟨-, -, c, found, inside, -⟩ := aliasing_composes chain_twice
  exact ⟨chain_twice, same, c, found, same ▸ inside⟩

end DataModel.Resolution
