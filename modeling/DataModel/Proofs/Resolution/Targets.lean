import DataModel.Proofs.Model.Keys
import DataModel.Proofs.Resolution.Placeholders

/-!
Where the links of a file go. While a file is resolved, an association is bound to a class with a
single primary key or to none, and what the file declares itself goes to nothing but what its names
mean. Copies are no keys, so a class keeps its primary keys whatever is expanded in it.
-/
namespace DataModel

section Links

/-- The class that a property goes to. -/
def Property.target? : Property → Option Key
  | .association a => a.target
  | .composition c => c.target
  | .regular _ | .alias _ => none

/-- The name of the class that a property goes to. -/
def Property.targetReference? : Property → Option Reference
  | .association a => some a.reference
  | .composition c => some c.reference
  | .regular _ | .alias _ => none

/-- What a class name means in a scope. -/
def Resolution.Scope.Means (s : Resolution.Scope) (name : String) (k : Key) : Prop :=
  ∃ o, s.classes.get? name = some o ∧ o.key = k

/-- A property that is no copy goes to what its name means, or nowhere. -/
def Property.Meant (s : Resolution.Scope) (p : Property) : Prop :=
  p.origin? = none → Answers s.Means p.target? p.targetReference?

structure Class.Meant (s : Resolution.Scope) (c : Class) : Prop where
  parent : Answers s.Means c.parent c.parentReference
  properties : ∀ p ∈ c.properties, p.Meant s

def Endpoint.Meant (s : Resolution.Scope) (e : Endpoint) : Prop := ∀ p ∈ e.properties, p.Meant s

end Links

namespace Resolution
variable {s : Scope} {m n : Model}

/-- A model on its way from another one in which a file is resolved. -/
structure Aims (s : Scope) (m n : Model) : Prop where
  keys : m.KeepsKeys n
  keyed : m.Keyed → n.Keyed
  classes : ∀ k c, k.version = s.self → n.class? k = some c → c.Meant s
  endpoints : ∀ k e, k.version = s.self → n.endpoint? k = some e → e.Meant s

namespace Aims

theorem same {n' : Model} (h : Aims s m n) (classes : ∀ k, n'.class? k = n.class? k)
    (endpoints : ∀ k, n'.endpoint? k = n.endpoint? k) : Aims s m n' where
  keys := h.keys.trans (.ofClasses classes)
  keyed keyed := (h.keyed keyed).same classes endpoints
  classes k c home found := h.classes k c home (classes k ▸ found)
  endpoints k e home found := h.endpoints k e home (endpoints k ▸ found)

theorem setClass (h : Aims s m n) {k : Key} {c d : Class} (found : n.class? k = some c)
    (count : d.primaryKeys.length = c.primaryKeys.length)
    (keyed : ∀ p ∈ d.properties, p ∈ c.properties ∨ (n.Keyed → p.Keyed n))
    (meant : c.Meant s → d.Meant s) : Aims s m (n.setClass k d) where
  keys := h.keys.trans (.setClass found count)
  keyed before := by
    have now := h.keyed before
    refine now.setClass found count fun p hp => ?_
    rcases keyed p hp with old | new
    · exact now.classes found p old
    · exact new now
  classes l e home there := by
    rw [Model.class?_setClass] at there
    split at there
    · next here =>
      subst here
      obtain ⟨_, -, rfl⟩ := Option.map_eq_some_iff.mp there
      exact meant (h.classes k c home found)
    · exact h.classes l e home there
  endpoints l e home there := by
    rw [Model.endpoint?_setClass] at there
    exact h.endpoints l e home there

theorem setEndpoint (h : Aims s m n) {k : Key} {e d : Endpoint} (found : n.endpoint? k = some e)
    (keyed : ∀ p ∈ d.properties, p ∈ e.properties ∨ (n.Keyed → p.Keyed n))
    (meant : e.Meant s → d.Meant s) : Aims s m (n.setEndpoint k d) where
  keys := h.keys.trans (.ofClasses fun l => n.class?_setEndpoint k l d)
  keyed before := by
    have now := h.keyed before
    refine now.setEndpoint fun p hp => ?_
    rcases keyed p hp with old | new
    · exact now.endpoints found p old
    · exact new now
  classes l c home there := by
    rw [Model.class?_setEndpoint] at there
    exact h.classes l c home there
  endpoints l c home there := by
    rw [Model.endpoint?_setEndpoint] at there
    split at there
    · next here =>
      subst here
      obtain ⟨_, -, rfl⟩ := Option.map_eq_some_iff.mp there
      exact meant (h.endpoints k e home found)
    · exact h.endpoints l c home there

/-- A file just loaded goes nowhere. -/
theorem start {f : ModelFile} (fresh : m.version? s.self = some (.fresh s.self f))
    (unlinked : f.Unlinked) : Aims s m m := by
  have nowhere : ∀ p : Property, p.Linked .none → p.Meant s := by
    intro p linked _
    cases p with
    | association a => exact linked.target.mono False.elim
    | composition c => exact linked.target.mono False.elim
    | regular p => exact Answers.none
    | «alias» a => exact Answers.none
  refine ⟨.refl m, id, fun k c home found => ?_, fun k e home found => ?_⟩
  · have linked := unlinked.classes c (Model.class_at_fresh fresh home found)
    exact ⟨linked.parent.mono False.elim, fun p hp => nowhere p (linked.properties p hp)⟩
  · have linked := unlinked.endpoints e (Model.endpoint_at_fresh fresh home found)
    intro p hp
    rcases List.mem_append.mp hp with param | returned
    · exact nowhere p (linked.params p param)
    · exact nowhere p (linked.returns p (Option.mem_toList.mp returned))

end Aims

section Loops

/-- A loop keeps what each of its steps keeps. -/
theorem forOwnClasses_invariant {I : Model → Prop} {f : Model → Key → Class → Noting Class}
    (start : I m) (each : ∀ n k c, I n → n.class? k = some c →
      Gives (fun _ d => I (n.setClass k d)) (f n k c)) :
    Gives (fun _ n => I n) (forOwnClasses s f m) := by
  unfold forOwnClasses
  refine Gives.foldlM (I := fun _ _ n => I n) start fun before k after ds n _ holds => ?_
  cases found : n.class? k with
  | none => exact .pure holds
  | some c => exact (each n k c holds found).bind fun _ d kept => .pure kept

theorem forOwnEndpoints_invariant {I : Model → Prop} {f : Model → Endpoint → Noting Endpoint}
    (start : I m) (each : ∀ n k e, I n → n.endpoint? k = some e →
      Gives (fun _ d => I (n.setEndpoint k d)) (f n e)) :
    Gives (fun _ n => I n) (forOwnEndpoints s f m) := by
  unfold forOwnEndpoints
  refine Gives.foldlM (I := fun _ _ n => I n) start fun before k after ds n _ holds => ?_
  cases found : n.endpoint? k with
  | none => exact .pure holds
  | some e => exact (each n k e holds found).bind fun _ d kept => .pure kept

end Loops

section Binding

theorem findClass_means (subject : Subject) (r : Reference) :
    Gives (fun _ k => Answers s.Means k (some r)) (findClass s subject r) := by
  refine (findClass_gives s subject r).mono fun _ found given key bound => ⟨r, rfl, ?_⟩
  rw [given.1] at bound
  exact Option.map_eq_some_iff.mp bound

/-- An association is bound to what its name means if that has a single key. -/
theorem bindTarget_aims (a : Association) :
    Gives (fun _ b => Property.Keyed n (.association b) ∧ Property.Meant s (.association b))
      (bindTarget n s a) := by
  have nowhere : Property.Keyed n (.association { a with target := none }) ∧
      Property.Meant s (.association { a with target := none }) :=
    ⟨(fun _ bound => nomatch bound), fun _ => Answers.none⟩
  unfold bindTarget
  refine (findClass_means _ a.reference).bind fun _ found means => ?_
  cases found with
  | none => exact .pure nowhere
  | some k =>
      dsimp only
      split
      · next single =>
        refine .pure ⟨?_, fun _ => means⟩
        rintro _ ⟨⟩
        have one := beq_iff_eq.mp single
        cases known : n.class? k with
        | none =>
            rw [known] at one
            cases one
        | some c =>
            rw [known] at one
            exact ⟨c, known, one⟩
      · exact (report_gives s _ _ _).bind fun _ _ _ => .pure nowhere

theorem bindProperty_aims (p : Property) :
    Gives (fun _ q => q.Keyed n ∧ q.Meant s) (bindProperty n s p) := by
  cases p with
  | regular p =>
      exact (findDomain_gives n s _ _).bind fun _ _ _ => .pure ⟨trivial, fun _ => Answers.none⟩
  | association a => exact (bindTarget_aims a).bind fun _ b aims => .pure aims
  | composition c =>
      refine (findClass_means _ c.reference).bind fun _ target means => ?_
      cases c.domainKindReference with
      | none => exact .pure ⟨trivial, fun _ => means⟩
      | some r =>
          exact (findDomain_gives n s _ r).bind fun _ kind _ => .pure ⟨trivial, fun _ => means⟩
  | «alias» a =>
      simp only [bindProperty]
      cases a.listDomainReference with
      | none => exact .pure ⟨trivial, fun _ => Answers.none⟩
      | some r =>
          exact (findDomain_gives n s _ r).bind fun _ _ _ =>
            .pure ⟨trivial, fun _ => Answers.none⟩

theorem bindProperties_aims (ps : List Property) :
    Gives (fun _ qs => ∀ q ∈ qs, q.Keyed n ∧ q.Meant s) (ps.mapM (bindProperty n s)) := by
  refine (Gives.mapM (P := fun _ q => q.Keyed n ∧ q.Meant s) (Q := fun _ _ => True) fun p _ =>
    (bindProperty_aims p).mono fun _ _ aims => ⟨aims, fun _ => trivial⟩).mono ?_
  exact fun _ qs all => forall_of_forall₂ all.1

/-- What a step of binding makes of a class. -/
structure AimsClass (s : Scope) (n : Model) (c d : Class) : Prop where
  keyed : ∀ p ∈ d.properties, p ∈ c.properties ∨ (n.Keyed → p.Keyed n)
  meant : c.Meant s → d.Meant s

theorem bindParent_aims (k : Key) (c : Class) :
    Gives (fun _ d => AimsClass s n c d) (bindParent s n k c) := by
  unfold bindParent
  cases given : c.parentReference with
  | none => exact .pure ⟨fun _ => .inl, id⟩
  | some r =>
      refine (findClass_means _ r).bind fun _ parent means => .pure ⟨fun _ => .inl, fun meant => ?_⟩
      exact ⟨given ▸ means, meant.properties⟩

theorem bindDecorators_aims (k : Key) (c : Class) :
    Gives (fun _ d => AimsClass s n c d) (bindDecorators s n k c) := by
  unfold bindDecorators
  refine (Gives.mapM (P := fun _ _ => True) (Q := fun _ _ => True) fun r _ =>
    (findDecorator_gives s _ r).mono fun _ _ _ => ⟨trivial, fun _ => trivial⟩).bind ?_
  exact fun _ _ _ => .pure ⟨fun _ => .inl, fun meant => ⟨meant.parent, meant.properties⟩⟩

theorem bindClassProperties_aims (k : Key) (c : Class) :
    Gives (fun _ d => AimsClass s n c d) (bindClassProperties s n k c) := by
  refine (bindProperties_aims c.properties).bind fun _ ps aims => .pure ⟨fun p hp => ?_, ?_⟩
  · exact .inr fun _ => (aims p hp).1
  · exact fun meant => ⟨meant.parent, fun p hp => (aims p hp).2⟩

theorem bindEndpointProperties_aims (e : Endpoint) :
    Gives (fun _ d => ∀ p ∈ d.properties, p.Keyed n ∧ p.Meant s)
      (bindEndpointProperties s n e) := by
  refine (bindProperties_aims e.params).bind fun _ params aims => ?_
  cases e.returns with
  | none =>
      refine .pure fun p hp => aims p ?_
      rwa [Endpoint.properties, Option.toList_none, List.append_nil] at hp
  | some p =>
      rw [Option.mapM_some, bind_map_left]
      refine (bindProperty_aims p).bind fun _ q aim => .pure fun p' hp => ?_
      rcases List.mem_append.mp hp with param | returned
      · exact aims p' param
      · rw [List.mem_singleton.mp returned]
        exact aim

theorem forOwnClasses_aims {f : Model → Key → Class → Noting Class}
    (unbound : ∀ n k c, Gives (fun _ d => d.unbound = c.unbound) (f n k c))
    (each : ∀ n k c, Gives (fun _ d => AimsClass s n c d) (f n k c)) (start : Aims s m n) :
    Gives (fun _ n' => Aims s m n') (forOwnClasses s f n) := by
  refine forOwnClasses_invariant start fun n k c aims found => ?_
  refine ((unbound n k c).and (each n k c)).mono fun _ d made => ?_
  exact aims.setClass found (Class.keysCount_of_unbound made.1) made.2.keyed made.2.meant

theorem bind_aims (start : Aims s m n) : Gives (fun _ n' => Aims s m n') (bind s n) := by
  unfold bind
  refine (forOwnClasses_aims (fun _ => bindParent_unbound) (fun _ => bindParent_aims)
    start).bind fun _ n₁ first => ?_
  refine (forOwnClasses_aims (fun _ => bindDecorators_unbound) (fun _ => bindDecorators_aims)
    first).bind fun _ n₂ second => ?_
  refine (forOwnClasses_aims (fun _ => bindClassProperties_unbound)
    (fun _ => bindClassProperties_aims) second).bind fun _ n₃ third => ?_
  refine (forOwnEndpoints_invariant third fun n k e aims found => ?_).bind fun _ n₄ fourth => ?_
  · refine (bindEndpointProperties_aims e).mono fun _ d made => ?_
    exact aims.setEndpoint found (fun p hp => .inr fun _ => (made p hp).1)
      fun _ p hp => (made p hp).2
  · exact bindConverters_gives.mono fun _ n₅ fifth => fourth.same fifth.2.1 fifth.2.2.1

end Binding

section Expanding

theorem copyField_keyed {p : Property} (keyed : p.Keyed n) (a : Placeholder) (name : String)
    (location : Reference) : (copyField a name location p).Keyed n := by
  cases p with
  | association p => exact keyed
  | _ => trivial

/-- Copies go where the copied properties go. -/
theorem copies_aims (a : Placeholder) :
    Gives (fun _ new => ∀ ps, new = some ps → ∀ p ∈ ps, CopyOf a p ∧ (n.Keyed → p.Keyed n))
      (copies s n a) := by
  refine ((copies_made a).and (copies_from a)).mono fun _ new given ps made p hp => ?_
  refine ⟨(given.1.1 ps made).1 p hp, fun keyed => ?_⟩
  obtain ⟨o, c, -, found, from'⟩ := given.2 ps made
  obtain ⟨q, hq, name, location, rfl⟩ := from' p hp
  exact copyField_keyed (keyed.classes found q hq) a name location

theorem CopyOf.meant {a : Placeholder} {p : Property} (copy : CopyOf a p) : p.Meant s := by
  intro original
  rw [copy.origin] at original
  cases original

theorem CopyOf.filter_isPrimaryKey {a : Placeholder} {new : List Property}
    (copies : ∀ p ∈ new, CopyOf a p) : new.filter (·.isPrimaryKey) = [] := by
  rw [List.filter_eq_nil_iff]
  intro p hp
  rw [(copies p hp).plain]
  exact Bool.false_ne_true

/-- A placeholder is no key, and neither are the copies in its place. -/
theorem splice_primaryKeys {a : Placeholder} {new : List Property}
    (copies : ∀ p ∈ new, CopyOf a p) (ps : List Property) :
    (splice a new ps).filter (·.isPrimaryKey) = ps.filter (·.isPrimaryKey) := by
  induction ps with
  | nil => rfl
  | cons p ps ih =>
      rw [splice]
      split
      · next here =>
        have plain : p.isPrimaryKey = false := by
          cases p with
          | «alias» b => rfl
          | _ => cases beq_iff_eq.mp here
        rw [List.filter_append, CopyOf.filter_isPrimaryKey copies, List.nil_append,
          List.filter_cons, plain]
        rfl
      · rw [List.filter_cons, List.filter_cons, ih]

theorem put_primaryKeys {a : Placeholder} {new : List Property} (copies : ∀ p ∈ new, CopyOf a p)
    (site : Site) (k : Key) : ((site.put n a new).class? k).map (·.primaryKeys) =
      (n.class? k).map (·.primaryKeys) := by
  cases site with
  | ofClass l =>
      rw [Site.put]
      cases found : n.class? l with
      | none => rfl
      | some c =>
          dsimp only
          rw [Model.class?_setClass]
          split
          · next here =>
            subst here
            rw [found]
            exact congrArg some (splice_primaryKeys copies c.properties)
          · rfl
  | ofParams l =>
      rw [Site.put]
      cases n.endpoint? l with
      | none => rfl
      | some e => exact congrArg (Option.map (·.primaryKeys)) (n.class?_setEndpoint l k _)
  | ofReturn l =>
      rw [Site.put]
      cases n.endpoint? l with
      | none => rfl
      | some e =>
          cases new with
          | nil => rfl
          | cons p rest => exact congrArg (Option.map (·.primaryKeys)) (n.class?_setEndpoint l k _)

/-- Expanding changes the primary keys of no class, wherever it starts from. -/
theorem expandAll_primaryKeys (s : Scope) (m : Model) :
    Gives (fun _ n => ∀ k, (n.class? k).map (·.primaryKeys) = (m.class? k).map (·.primaryKeys))
      (expandAll s m) := by
  unfold expandAll
  refine Gives.foldlM (I := fun _ _ (n : Model) => ∀ k, (n.class? k).map (·.primaryKeys) =
    (m.class? k).map (·.primaryKeys)) (fun _ => rfl) ?_
  rintro before ⟨site, a⟩ after ds n - kept
  refine (copies_aims a).bind fun _ new made => ?_
  cases new with
  | none => exact .pure kept
  | some ps =>
      refine .pure fun k => (put_primaryKeys (fun p hp => (made ps rfl p hp).1) site k).trans ?_
      exact kept k

theorem put_aims (aims : Aims s m n) {a : Placeholder} {new : List Property}
    (made : ∀ p ∈ new, CopyOf a p ∧ (n.Keyed → p.Keyed n)) (site : Site) :
    Aims s m (site.put n a new) := by
  have spliced : ∀ {ps : List Property} p, p ∈ splice a new ps →
      p ∈ ps ∨ (n.Keyed → p.Keyed n) :=
    fun p hp => (mem_splice hp).symm.imp_right fun copy => (made p copy).2
  cases site with
  | ofClass k =>
      rw [Site.put]
      cases found : n.class? k with
      | none => exact aims
      | some c =>
          refine aims.setClass found ?_ spliced fun meant => ⟨meant.parent, fun p hp => ?_⟩
          · exact congrArg List.length
              (splice_primaryKeys (fun p hp => (made p hp).1) c.properties)
          · rcases mem_splice hp with copy | old
            · exact (made p copy).1.meant
            · exact meant.properties p old
  | ofParams k =>
      rw [Site.put]
      cases found : n.endpoint? k with
      | none => exact aims
      | some e =>
          refine aims.setEndpoint found (fun p hp => ?_) fun meant p hp => ?_
          · rcases List.mem_append.mp hp with param | returned
            · exact (spliced p param).imp_left (List.mem_append_left _)
            · exact .inl (List.mem_append_right _ returned)
          · rcases List.mem_append.mp hp with param | returned
            · rcases mem_splice param with copy | old
              · exact (made p copy).1.meant
              · exact meant p (List.mem_append_left _ old)
            · exact meant p (List.mem_append_right _ returned)
  | ofReturn k =>
      rw [Site.put]
      cases found : n.endpoint? k with
      | none => exact aims
      | some e =>
          cases new with
          | nil => exact aims
          | cons q rest =>
              have first := made q List.mem_cons_self
              refine aims.setEndpoint found (fun p hp => ?_) fun meant p hp => ?_
              · rcases List.mem_append.mp hp with param | returned
                · exact .inl (List.mem_append_left _ param)
                · exact .inr (List.mem_singleton.mp returned ▸ first.2)
              · rcases List.mem_append.mp hp with param | returned
                · exact meant p (List.mem_append_left _ param)
                · exact List.mem_singleton.mp returned ▸ first.1.meant

theorem expandAll_aims (start : Aims s m n) : Gives (fun _ n' => Aims s m n') (expandAll s n) := by
  unfold expandAll
  refine Gives.foldlM (I := fun _ _ n => Aims s m n) start ?_
  rintro before ⟨site, a⟩ after ds n - aims
  refine (copies_aims a).bind fun _ new made => ?_
  cases new with
  | none => exact .pure aims
  | some ps => exact .pure (put_aims aims (made ps rfl) site)

end Expanding

end Resolution
end DataModel
