import DataModel.Proofs.Resolution.Codes
import DataModel.Proofs.Resolution.Naming

/-!
Names that come twice. The classes above a class are found by following its parent, that one's
parent and so on, until a class comes again; what was passed by then is closed under going on, so
no class that can be reached is missed, in whatever circle the parents go. Of the properties of a
class those are reported whose names came before, in the class or above it.
-/
namespace DataModel

/-- A class names another one as its parent. -/
def Model.Extends (m : Model) (k l : Key) : Prop := ∃ c, m.class? k = some c ∧ c.parent = some l

/-- The property belongs to another class that is reached by following parents. -/
def Model.Inherits (m : Model) (k : Key) (p : Property) : Prop :=
  ∃ l c, Relation.TransGen m.Extends k l ∧ l ≠ k ∧ m.class? l = some c ∧ p ∈ c.properties

/-- A property of a class has the name of one before it, or of one that the class inherits. -/
def Model.Repeats (m : Model) (k : Key) (before : List Property) (p : Property) : Prop :=
  ∃ q, q.isAlias = false ∧ (q ∈ before ∨ m.Inherits k q) ∧ m.propertyName? q = m.propertyName? p

/-- The names in the classes of a file, and in the classes that they inherit from, have an end. -/
def Model.NamesEnd (m : Model) (v : VersionId) : Prop :=
  ∀ k ∈ m.ownClasses v, ∀ l c, Relation.ReflTransGen m.Extends k l → m.class? l = some c →
    ∀ a, .association a ∈ c.properties → ∃ fuel, (m.associationName? fuel a).isSome

theorem Model.NamesEnd.named {m : Model} {v : VersionId} {k l : Key} {c : Class} {p : Property}
    (ends : m.NamesEnd v) (own : k ∈ m.ownClasses v) (way : Relation.ReflTransGen m.Extends k l)
    (found : m.class? l = some c) (member : p ∈ c.properties) : (m.propertyName? p).isSome := by
  cases p with
  | association a =>
      obtain ⟨fuel, known⟩ := ends k own l c way found a member
      obtain ⟨name, known⟩ := Option.isSome_iff_exists.mp known
      rw [Model.propertyName?, Model.associationName?_enough known]
      rfl
  | _ => rfl

open Classical in
/-- An error, if the property of a class is no placeholder and repeats a name. -/
noncomputable def Model.duplicate (m : Model) (v : VersionId) (k : Key) (className : String)
    (before : List Property) (p : Property) : List Diagnostic :=
  if p.isAlias = false ∧ m.Repeats k before p then
    [(Finding.duplicateProperty ((m.propertyName? p).getD "") className).diagnostic v (.property p)
      p.location]
  else []

/-- The errors for the properties of a file's classes, in order. -/
noncomputable def Model.duplicates (m : Model) (v : VersionId) : List Diagnostic :=
  (m.ownClasses v).flatMap fun k => (m.class? k).toList.flatMap fun c =>
    c.properties.zipIdx.flatMap fun (p, i) => m.duplicate v k c.name (c.properties.take i) p

namespace Resolution
variable {s : Scope} {missing : List Reference} {m n : Model} {k : Key} {c : Class} {v : VersionId}

section Ancestors
variable {seen passed : List Key} {start : Option Key}

/-- The classes that a walk passes: each is reached from the start, none of them was seen before,
and the walk goes on from the start, and from each of them, to one that it passes or that was
seen. -/
structure Passed (m : Model) (seen : List Key) (start : Option Key) (passed : List Key) : Prop where
  reached : ∀ l ∈ passed, ∃ first, start = some first ∧ Relation.ReflTransGen m.Extends first l
  new : ∀ l ∈ passed, l ∉ seen
  first : ∀ l, start = some l → (m.class? l).isSome → l ∈ seen ∨ l ∈ passed
  next : ∀ k ∈ passed, ∀ l, m.Extends k l → (m.class? l).isSome → l ∈ seen ∨ l ∈ passed

namespace Passed

/-- A walk stops where no class is, and at a class that was seen. -/
theorem stop (ended : ∀ l, start = some l → (m.class? l).isSome → l ∈ seen) :
    Passed m seen start [] where
  reached _ none' := absurd none' List.not_mem_nil
  new _ none' := absurd none' List.not_mem_nil
  first l here there := .inl (ended l here there)
  next _ none' := absurd none' List.not_mem_nil

/-- From a class that was not seen a walk goes on to its parent. -/
theorem onward (found : m.class? k = some c) (new : k ∉ seen)
    (rest : Passed m (k :: seen) c.parent passed) : Passed m seen (some k) (k :: passed) := by
  have shift : ∀ {l}, l ∈ k :: seen ∨ l ∈ passed → l ∈ seen ∨ l ∈ k :: passed := by
    simp only [List.mem_cons]
    tauto
  refine ⟨?_, ?_, ?_, ?_⟩
  · refine List.forall_mem_cons.mpr ⟨⟨k, rfl, .refl⟩, fun l member => ?_⟩
    obtain ⟨parent, bound, way⟩ := rest.reached l member
    exact ⟨k, rfl, .head ⟨c, found, bound⟩ way⟩
  · refine List.forall_mem_cons.mpr ⟨new, fun l member old => ?_⟩
    exact rest.new l member (List.mem_cons_of_mem k old)
  · rintro l here -
    cases here
    exact .inr List.mem_cons_self
  · refine List.forall_mem_cons.mpr ⟨?_, fun k' member l step there => ?_⟩
    · rintro l ⟨c', found', bound⟩ there
      rw [found] at found'
      cases found'
      exact shift (rest.first l bound there)
    · exact shift (rest.next k' member l step there)

end Passed

theorem exists_passed {fuel : Nat} (start : Option Key) (once : seen.Nodup)
    (known : ∀ l ∈ seen, (m.class? l).isSome) (enough : m.classCount < fuel + seen.length) :
    ∃ passed, Passed m seen start passed ∧
      ancestors m seen fuel start = passed.filterMap m.class? := by
  induction fuel generalizing seen start with
  | zero =>
      have fits := Model.length_le_classCount once known
      omega
  | succ fuel ih =>
      cases start with
      | none => exact ⟨[], .stop nofun, rfl⟩
      | some k =>
          rw [ancestors]
          by_cases old : k ∈ seen
          · rw [if_pos (List.contains_iff_mem.mpr old)]
            refine ⟨[], .stop fun l here _ => ?_, rfl⟩
            cases here
            exact old
          · rw [if_neg (mt List.contains_iff_mem.mp old)]
            cases found : m.class? k with
            | none =>
                refine ⟨[], .stop fun l here there => ?_, rfl⟩
                cases here
                rw [found] at there
                cases there
            | some c =>
                have known' : ∀ l ∈ k :: seen, (m.class? l).isSome :=
                  List.forall_mem_cons.mpr ⟨by rw [found]; rfl, known⟩
                obtain ⟨passed, rest, walk⟩ := ih c.parent (List.nodup_cons.mpr ⟨old, once⟩) known'
                  (by rw [List.length_cons]; omega)
                refine ⟨k :: passed, rest.onward found old, ?_⟩
                dsimp only
                rw [walk, List.filterMap_cons_some found]

/-- What a walk from the parent of a class passes is what can be reached, but the class itself. -/
theorem Passed.mem_iff (walk : Passed m [k] c.parent passed) (found : m.class? k = some c)
    {l : Key} (there : (m.class? l).isSome) :
    l ∈ passed ↔ Relation.TransGen m.Extends k l ∧ l ≠ k := by
  constructor
  · intro member
    obtain ⟨parent, bound, way⟩ := walk.reached l member
    refine ⟨.head' ⟨c, found, bound⟩ way, fun same => ?_⟩
    exact walk.new l member (List.mem_singleton.mpr same)
  · rintro ⟨way, other⟩
    -- What is behind the class, itself included, is closed under going on.
    have step : ∀ {k' l}, k' = k ∨ k' ∈ passed → m.Extends k' l → (m.class? l).isSome →
        l = k ∨ l ∈ passed := by
      rintro k' l (rfl | member) link there
      · obtain ⟨c', found', bound⟩ := link
        rw [found] at found'
        cases found'
        exact (walk.first l bound there).imp_left List.mem_singleton.mp
      · exact (walk.next k' member l link there).imp_left List.mem_singleton.mp
    have behind : l = k ∨ l ∈ passed := by
      induction way with
      | single link => exact step (.inl rfl) link there
      | @tail b _ _ link ih =>
          have known : (m.class? b).isSome := by
            obtain ⟨_, found', -⟩ := link
            rw [found']
            rfl
          by_cases back : b = k
          · exact step (.inl back) link there
          · exact step (ih known back) link there
    exact behind.resolve_left other

/-- The classes above a class are the other ones that can be reached, whatever circles there are. -/
theorem mem_ancestors (found : m.class? k = some c) {a : Class} :
    a ∈ ancestors m [k] (m.classCount + 1) c.parent ↔
      ∃ l, Relation.TransGen m.Extends k l ∧ l ≠ k ∧ m.class? l = some a := by
  obtain ⟨passed, walk, same⟩ := exists_passed c.parent (List.nodup_singleton k)
    (List.forall_mem_singleton.mpr (by rw [found]; rfl)) (Nat.lt_add_right _ (Nat.lt_succ_self _))
  rw [same, List.mem_filterMap]
  refine exists_congr fun l => ?_
  constructor
  · rintro ⟨member, there⟩
    obtain ⟨way, other⟩ := (walk.mem_iff found (by rw [there]; rfl)).mp member
    exact ⟨way, other, there⟩
  · rintro ⟨way, other, there⟩
    exact ⟨(walk.mem_iff found (by rw [there]; rfl)).mpr ⟨way, other⟩, there⟩

end Ancestors

section Names
variable {before rest : List Property} {seen : List String}

/-- The names of properties are found if they have an end. -/
theorem mapM_nameOf_adds {ps : List Property} (named : ∀ p ∈ ps, (m.propertyName? p).isSome) :
    Adds (ps.mapM (nameOf m)) (ps.filterMap m.propertyName?) 0 := by
  induction ps with
  | nil => exact .pure []
  | cons p ps ih =>
      obtain ⟨known, named⟩ := List.forall_mem_cons.mp named
      obtain ⟨name, known⟩ := Option.isSome_iff_exists.mp known
      rw [List.mapM_cons, nameOf, known, pure_bind, List.filterMap_cons_some known]
      have both := (ih named).bind (f := fun names => Pure.pure (name :: names)) (.pure _)
      exact both

/-- The names seen are those of the properties before, and of the inherited ones. -/
def Seen (m : Model) (k : Key) (before : List Property) (seen : List String) : Prop :=
  ∀ name, name ∈ seen ↔ ∃ q, q.isAlias = false ∧ (q ∈ before ∨ m.Inherits k q) ∧
    m.propertyName? q = some name

theorem inheritedNames_adds (found : m.class? k = some c)
    (named : ∀ p, m.Inherits k p → (m.propertyName? p).isSome) :
    ∃ names, Adds (inheritedNames m k c) names 0 ∧ Seen m k [] names := by
  have inherited : ∀ q, q ∈ (ancestors m [k] (m.classCount + 1) c.parent).flatMap
      (fun a => a.properties.filter (!·.isAlias)) ↔ q.isAlias = false ∧ m.Inherits k q := by
    intro q
    simp only [List.mem_flatMap, mem_ancestors found, List.mem_filter, Bool.not_eq_true',
      Model.Inherits]
    constructor
    · rintro ⟨a, ⟨l, way, other, there⟩, member, real⟩
      exact ⟨real, l, a, way, other, there, member⟩
    · rintro ⟨real, l, a, way, other, there, member⟩
      exact ⟨a, ⟨l, way, other, there⟩, member, real⟩
  refine ⟨_, mapM_nameOf_adds fun p member => named p ((inherited p).mp member).2, fun name => ?_⟩
  simp only [List.mem_filterMap, inherited, and_assoc, List.not_mem_nil, false_or]

theorem Seen.placeholder {p : Property} (h : Seen m k before seen) (isAlias : p.isAlias = true) :
    Seen m k (before ++ [p]) seen := by
  intro name
  rw [h name]
  refine exists_congr fun q => and_congr_right fun real => and_congr_left' ?_
  have other : q ≠ p := by
    rintro rfl
    rw [isAlias] at real
    cases real
  simp [other]

theorem Seen.real {p : Property} {name : String} (h : Seen m k before seen)
    (real : p.isAlias = false) (known : m.propertyName? p = some name) :
    Seen m k (before ++ [p]) (name :: seen) := by
  intro other
  rw [List.mem_cons, h other]
  constructor
  · rintro (rfl | ⟨q, real, found | found, same⟩)
    · exact ⟨p, real, .inl (by simp), known⟩
    · exact ⟨q, real, .inl (List.mem_append_left _ found), same⟩
    · exact ⟨q, real, .inr found, same⟩
  · rintro ⟨q, real, found | found, same⟩
    · rcases List.mem_append.mp found with earlier | here
      · exact .inr ⟨q, real, .inl earlier, same⟩
      · rw [List.mem_singleton.mp here, known] at same
        exact .inl (Option.some.inj same).symm
    · exact .inr ⟨q, real, .inr found, same⟩

/-- A property repeats a name if its name was seen. -/
theorem Seen.repeats {p : Property} {name : String} (h : Seen m k before seen)
    (known : m.propertyName? p = some name) : m.Repeats k before p ↔ name ∈ seen := by
  rw [h name, Model.Repeats, known]

/-- What is reported of the properties of a class behind some of them. -/
theorem checkNames_adds (named : ∀ p ∈ rest, (m.propertyName? p).isSome)
    (names : Seen m k before seen) (className : String) :
    Adds (checkNames s m className seen rest) ()
      ⟨(rest.zipIdx before.length).flatMap fun (p, i) =>
        m.duplicate s.self k className ((before ++ rest).take i) p, []⟩ := by
  induction rest generalizing before seen with
  | nil => exact .pure ()
  | cons p rest ih =>
      obtain ⟨known, named⟩ := List.forall_mem_cons.mp named
      obtain ⟨name, known⟩ := Option.isSome_iff_exists.mp known
      have onward : ∀ {seen}, Seen m k (before ++ [p]) seen → _ := ih named
      rw [List.length_append, List.length_singleton, List.append_assoc, List.singleton_append]
        at onward
      rw [checkNames, List.zipIdx_cons, List.flatMap_cons]
      dsimp only
      rw [List.take_left, Model.duplicate, names.repeats known]
      cases kind : p.isAlias with
      | true =>
          rw [if_pos rfl, if_neg (by simp), List.nil_append]
          exact onward (names.placeholder kind)
      | false =>
          have later := onward (names.real kind known)
          rw [if_neg (by simp), nameOf, known, pure_bind, Option.getD_some]
          by_cases again : name ∈ seen
          · rw [if_pos (List.contains_iff_mem.mpr again), if_pos ⟨rfl, again⟩]
            have both := (report_adds s (.duplicateProperty name className) (.property p)
              p.location).bind (f := fun _ => checkNames s m className (name :: seen) rest) later
            exact both
          · rw [if_neg (mt List.contains_iff_mem.mp again), if_neg fun both => again both.2]
            exact later

/-- Just the properties that repeat a name are reported. -/
theorem checkDuplicates_adds (ends : m.NamesEnd s.self) :
    Adds (checkDuplicates s m) () ⟨m.duplicates s.self, []⟩ := by
  refine .forM fun k own => ?_
  cases found : m.class? k with
  | none => exact .pure ()
  | some c =>
      obtain ⟨names, adds, seen⟩ := inheritedNames_adds found fun p ⟨l, a, way, _, there, member⟩ =>
        ends.named own way.to_reflTransGen there member
      have checked := checkNames_adds (s := s) (fun p member => ends.named own .refl found member)
        seen c.name
      have both := adds.bind (f := fun names => checkNames s m c.name names c.properties) checked
      rw [zero_add] at both
      rw [Option.toList_some, List.flatMap_singleton]
      exact both

end Names

section Reporting

/-- The diagnostics of a code that is not reported. -/
theorem Reports.filter {α : Type} {codes : List Code} {x : Noting α} (h : Reports codes x)
    (code : Code) (other : code ∉ codes) :
    Gives (fun ds _ => ds.filter (·.code == code) = []) x := by
  refine Gives.mono h fun ds _ listed => List.filter_eq_nil_iff.mpr fun d hd same => ?_
  exact other (eq_of_beq same ▸ listed d hd)

theorem duplicates_filter (ends : m.NamesEnd s.self) :
    (m.duplicates s.self).filter (·.code == .duplicateProperty) = m.duplicates s.self := by
  have codes := (checkDuplicates_adds ends).gives (checkDuplicates_reports s m)
  exact List.filter_eq_self.mpr fun d hd => beq_iff_eq.mpr (List.mem_singleton.mp (codes d hd))

/-- Of the checks only that for duplicates reports them. -/
theorem checking_duplicates (ends : m.NamesEnd s.self) (allowCompositeKeys : Bool) :
    Gives (fun ds _ => ds.filter (·.code == .duplicateProperty) = m.duplicates s.self)
      (checking s missing allowCompositeKeys m) := by
  have duplicates : Gives (fun ds _ =>
      ds.filter (·.code == .duplicateProperty) = m.duplicates s.self) (checkDuplicates s m) := by
    intro first _ last done
    rw [checkDuplicates_adds ends first] at done
    cases done
    exact ⟨_, rfl, duplicates_filter ends⟩
  have classes : Gives (fun ds _ =>
      ds.filter (·.code == .duplicateProperty) = m.duplicates s.self)
      (checkingClasses s allowCompositeKeys m) := by
    cases allowCompositeKeys with
    | true => exact duplicates
    | false =>
        have keys := (checkKeys_reports s m).filter .duplicateProperty (by decide)
        refine keys.bind fun ds _ none' => ?_
        refine duplicates.mono fun ds' _ some' => ?_
        rw [List.filter_append, none', some', List.nil_append]
  have uses : Reports [.unusedUse, .unsortedUse]
      (checkUnusedUses s missing m >>= fun _ => checkUsesOrder s missing m) :=
    ((checkUnusedUses_reports s _ m).mono (by decide)).andThen fun _ =>
      (checkUsesOrder_reports s _ m).mono (by decide)
  rw [checking_eq]
  refine classes.bind fun ds _ some' => ?_
  refine (uses.filter .duplicateProperty (by decide)).mono fun ds' _ none' => ?_
  rw [List.filter_append, none', some', List.append_nil]

theorem checking_runs_of_names (ends : m.NamesEnd s.self) (missing : List Reference)
    (allowCompositeKeys : Bool) :
    Runs (checking s missing allowCompositeKeys m) :=
  checking_runs (checkKeys_runs fun _ own _ found _ member => ends.named own .refl found member)
    (fun first => ⟨_, checkDuplicates_adds ends first⟩) missing allowCompositeKeys

/-- The steps before the checks. -/
def preparing (s : Scope) (m : Model) : Noting Model := linking s m >>= shareAliases s

/-- Where no class leads back to itself through its key, the steps before the checks come to their
end, and every name has one. -/
theorem preparing_runs {f : ModelFile} (fresh : m.version? s.self = some (.fresh s.self f))
    (declared : f.Declared) (acyclic : s.Acyclic m) :
    ∃ n last, (preparing s m).run ⟨[], []⟩ = .ok (n, last) ∧ n.NamesEnd s.self := by
  have linked := linking_acyclic fresh declared acyclic
  have runs : Runs (preparing s m) := (linking_runs fresh declared acyclic).bind linked
    fun _ n _ => shareAliases_runs s n
  have ends : Gives (fun _ n => n.Acyclic) (preparing s m) :=
    linked.bind fun _ _ acyclic => shareAliases_acyclic acyclic
  obtain ⟨⟨n, last⟩, done⟩ := runs ⟨[], []⟩
  obtain ⟨_, -, acyclic⟩ := ends _ _ _ done
  refine ⟨n, last, done, fun k _ l c _ _ a _ => ⟨n.classCount + 1, acyclic.associationName a⟩⟩

theorem steps_eq_preparing (s : Scope) (allowCompositeKeys : Bool) (m : Model) :
    steps s allowCompositeKeys m =
      preparing s m >>= fun n => checking s (missingUses m s) allowCompositeKeys n >>= fun _ =>
        pure n :=
  (steps_eq s allowCompositeKeys m).trans (bind_assoc ..).symm

/-- What the steps before the checks can find. -/
def preparingCodes : List Code :=
  .missingFile :: .missingEndpoint :: .missingProperty :: bindingCodes

theorem preparing_reports (s : Scope) (m : Model) :
    Reports preparingCodes (preparing s m) := by
  have collapsed : Reports preparingCodes (collapseAll s m) := collapseAll_only m
  refine Reports.andThen (.andThen ((checkUses_reports m s).mono (by decide)) fun _ => ?_) fun n =>
    (shareAliases_reports s n).mono (by decide)
  refine collapsed.andThen fun m₁ => ((bind_reports s m₁).mono (by decide)).andThen fun m₂ => ?_
  exact (expandAll_reports s m₂).mono (by decide)

end Reporting

end Resolution

namespace Model
open Resolution

/-- Once aliases are expanded and shared, the check for duplicates comes to its end where names
have one, and it reports just the properties that repeat a name; so does resolving the file. A file
just loaded comes that far, and its names have an end, where no class will lead back to itself
through its key; classes may lead back to themselves through their parents. -/
theorem duplicates_reported (m : Model) (v : VersionId) (dependencies : List VersionId)
    (domains : Table Key) :
    (∀ f, m.version? v = some (.fresh v f) → f.Declared →
      (Scope.of m v dependencies domains).Acyclic m →
        ∃ n first, (preparing (.of m v dependencies domains) m).run ⟨[], []⟩ = .ok (n, first) ∧
          n.NamesEnd v) ∧
    ∀ n first, (preparing (.of m v dependencies domains) m).run ⟨[], []⟩ = .ok (n, first) →
      n.NamesEnd v →
        (∀ notes, (checkDuplicates (.of m v dependencies domains) n).run notes =
          .ok ((), ⟨notes.diagnostics ++ n.duplicates v, notes.usedFiles⟩)) ∧
        ∀ allowCompositeKeys, ∃ ds,
          m.resolve v dependencies domains allowCompositeKeys = .ok (ds, n) ∧
            ds.filter (·.code == .duplicateProperty) = n.duplicates v := by
  let s := Scope.of m v dependencies domains
  refine ⟨fun f => preparing_runs (s := s), fun n first prepared ends => ?_⟩
  refine ⟨checkDuplicates_adds (s := s) ends, fun allowCompositeKeys => ?_⟩
  obtain ⟨⟨_, last⟩, checked⟩ := checking_runs_of_names (s := s) ends
    (missingUses m s) allowCompositeKeys first
  obtain ⟨ds, added, none'⟩ :=
    (preparing_reports s m).filter .duplicateProperty (by decide) _ _ _ prepared
  obtain ⟨ds', added', some'⟩ := checking_duplicates (s := s) ends allowCompositeKeys _ _ _ checked
  have run : (steps s allowCompositeKeys m).run ⟨[], []⟩ = .ok (n, last) := by
    rw [steps_eq_preparing, run_then prepared, run_then checked]
    rfl
  refine ⟨last.diagnostics, ?_, ?_⟩
  · unfold resolve
    dsimp only
    rw [run]
    rfl
  · rw [added', added, List.nil_append, List.filter_append, none', some', List.nil_append]
    rfl

namespace Circling
open Chaining

def value (name : String) (isKey : Bool) (domain : Option Key) : Property :=
  .regular ⟨name, none, "c", ⟨"name", 3, 44⟩, isKey, ⟨"D", 3, 61⟩, domain, false, true, none, none⟩

/-- A link to a class, which names the property. -/
def link (target : Option Key) : Property :=
  .association ⟨none, "c", ⟨"association", 3, 80⟩, false, ⟨"C", 3, 93⟩, target, none, .manyToOne,
    true, none, none, none⟩

def below (name above : String) (parent : Option Key) (properties : List Property) : Class :=
  { single name plainKey with
    parentReference := some ⟨above, 3, 30⟩
    parent := parent
    properties := properties }

/-- Two classes that extend each other and a class that extends itself, before or after they are
bound. -/
def circles (key : Nat → Option Key) : Model :=
  ⟨#[.fresh 0 (file "F" []
    [below "A" "B" (key 1) [value "Cy" false (key 0)], below "B" "A" (key 0) [link (key 2)],
      below "C" "C" (key 2) [value "y" true (key 0)]])]⟩

def circled : Model := circles fun i => some ⟨0, i⟩

def scope : Scope := .of (circles fun _ => none) 0 [] [("D", ⟨0, 0⟩)]

/-- What is noted before the checks: where each of the links was found. -/
def noted : Notes := ⟨[], List.replicate 6 "F"⟩

theorem prepared :
    (preparing scope (circles fun _ => none)).run ⟨[], []⟩ = .ok (circled, noted) := by
  with_unfolding_all rfl

def repeated (name className : String) (p : Property) : Diagnostic :=
  (Finding.duplicateProperty name className).diagnostic 0 (.property p) p.location

theorem namesEnd : circled.NamesEnd 0 := by
  intro _ _ l c _ found a member
  have known := mem_classKeys (k := l) (by rw [found]; rfl)
  rw [show circled.classKeys = [⟨0, 0⟩, ⟨0, 1⟩, ⟨0, 2⟩] from rfl] at known
  simp only [List.mem_cons, List.not_mem_nil, or_false] at known
  refine ⟨2, ?_⟩
  rcases known with rfl | rfl | rfl
  · cases found
    simp [below, value] at member
  · cases found
    rw [below, link, List.mem_singleton, Property.association.injEq] at member
    subst member
    rfl
  · cases found
    simp [below, value] at member

end Circling
open Circling

/-- Of two classes that extend each other each one repeats the names of the other. -/
theorem duplicates_reported_circles :
    (preparing scope (circles fun _ => none)).run ⟨[], []⟩ = .ok (circled, noted) ∧
      circled.NamesEnd 0 ∧ circled.duplicates 0 =
        [repeated "Cy" "A" (value "Cy" false (some ⟨0, 0⟩)),
          repeated "Cy" "B" (link (some ⟨0, 2⟩))] := by
  obtain ⟨checked, -⟩ :=
    (duplicates_reported _ 0 [] [("D", ⟨0, 0⟩)]).2 circled noted prepared namesEnd
  have reported : (checkDuplicates scope circled).run ⟨[], []⟩ =
      .ok ((), ⟨[repeated "Cy" "A" (value "Cy" false (some ⟨0, 0⟩)),
        repeated "Cy" "B" (link (some ⟨0, 2⟩))], []⟩) := by
    with_unfolding_all rfl
  have same := (checked ⟨[], []⟩).symm.trans reported
  rw [Except.ok.injEq, Prod.mk.injEq, Notes.mk.injEq] at same
  exact ⟨prepared, namesEnd, same.2.1⟩

end Model
end DataModel
