import DataModel.Proofs.Model.Complete
import DataModel.Proofs.Resolution.Noting
import DataModel.Resolution.Resolve

/-!
What resolving a file does to the model. No other version changes, and of the file itself only
what is bound; and if no error is reported, nothing of it is left unbound.
-/
namespace DataModel

theorem forall_of_forall₂ {α β : Type} {P : β → Prop} {xs : List α} {ys : List β}
    (h : List.Forall₂ (fun _ y => P y) xs ys) : ∀ y ∈ ys, P y := by
  intro y hy
  obtain ⟨i, bound, rfl⟩ := List.getElem_of_mem hy
  exact h.get (h.length_eq ▸ bound) bound

theorem length_filterMap_of_forall₂ {α β : Type} {xs : List α} {found : List (Option β)}
    (h : List.Forall₂ (fun _ k => k.isSome) xs found) :
    (found.filterMap id).length = xs.length := by
  induction h with
  | nil => rfl
  | cons first rest ih =>
      obtain ⟨k, rfl⟩ := Option.isSome_iff_exists.mp first
      exact congrArg (· + 1) ih

theorem rel_refl {α : Type} {R : α → α → Prop} (refl : ∀ a, R a a) :
    ∀ o : Option α, Option.Rel R o o
  | none => .none
  | some a => .some (refl a)

theorem rel_trans {α : Type} {R : α → α → Prop} (trans : ∀ {a b c}, R a b → R b c → R a c) :
    ∀ {o o' o₂ : Option α}, Option.Rel R o o' → Option.Rel R o' o₂ → Option.Rel R o o₂
  | _, _, _, .none, .none => .none
  | _, _, _, .some first, .some second => .some (trans first second)

namespace Resolution
variable {s : Scope} {m : Model}

section Loops

/-- A step that changes only classes of the resolved file. -/
structure ChangesClasses (v : VersionId) (m m' : Model) : Prop extends Model.Rebinds v m m' where
  endpoints : ∀ k, m'.endpoint? k = m.endpoint? k
  domains : ∀ k, m'.domain? k = m.domain? k

structure ChangesEndpoints (v : VersionId) (m m' : Model) : Prop extends Model.Rebinds v m m' where
  classes : ∀ k, m'.class? k = m.class? k
  domains : ∀ k, m'.domain? k = m.domain? k

theorem ChangesClasses.refl (v : VersionId) (m : Model) : ChangesClasses v m m :=
  ⟨.refl v m, fun _ => rfl, fun _ => rfl⟩

theorem ChangesClasses.trans {v : VersionId} {m' n : Model} (h : ChangesClasses v m m')
    (h' : ChangesClasses v m' n) : ChangesClasses v m n :=
  ⟨h.toRebinds.trans h'.toRebinds, fun k => (h'.endpoints k).trans (h.endpoints k),
    fun k => (h'.domains k).trans (h.domains k)⟩

theorem ChangesEndpoints.refl (v : VersionId) (m : Model) : ChangesEndpoints v m m :=
  ⟨.refl v m, fun _ => rfl, fun _ => rfl⟩

theorem ChangesClasses.set {v : VersionId} {n : Model} (h : ChangesClasses v m n) {k : Key}
    {c c' : Class} (home : k.version = v) (found : n.class? k = some c) (same : c'.bare = c.bare) :
    ChangesClasses v m (n.setClass k c') := by
  refine ⟨h.toRebinds.trans (Model.rebinds_setClass home found same), fun l => ?_, fun l => ?_⟩
  · exact (n.endpoint?_setClass k l c').trans (h.endpoints l)
  · exact (n.domain?_setClass k l c').trans (h.domains l)

theorem ChangesEndpoints.set {v : VersionId} {n : Model} (h : ChangesEndpoints v m n) {k : Key}
    {e e' : Endpoint} (home : k.version = v) (found : n.endpoint? k = some e)
    (same : e'.bare = e.bare) : ChangesEndpoints v m (n.setEndpoint k e') := by
  refine ⟨h.toRebinds.trans (Model.rebinds_setEndpoint home found same), fun l => ?_, fun l => ?_⟩
  · exact (n.class?_setEndpoint k l e').trans (h.classes l)
  · exact (n.domain?_setEndpoint k l e').trans (h.domains l)

/-- A loop over the own classes gives them all, if it finds no error, a stronger property. -/
theorem forOwnClasses_gives {f : Model → Key → Class → Noting Class} {T T' : Class → Prop}
    (home : m.Homed s.self) (back : ∀ c, T' c → T c)
    (each : ∀ n k c, ChangesClasses s.self m n → n.class? k = some c →
      Gives (fun ds c' => c'.bare = c.bare ∧ (Clean ds → T c → T' c')) (f n k c)) :
    Gives (fun ds m' => ChangesClasses s.self m m' ∧ (Clean ds →
        m.AllClasses (m.ownClasses s.self) T → m'.AllClasses (m.ownClasses s.self) T'))
      (forOwnClasses s f m) := by
  unfold forOwnClasses
  generalize own : m.ownClasses s.self = ks
  have start := ChangesClasses.refl s.self m
  refine (Gives.foldlM (I := fun before ds n => ChangesClasses s.self m n ∧ (Clean ds →
    m.AllClasses ks T → n.AllClasses ks T ∧ n.AllClasses before T')) ?_ ?_).mono ?_
  · exact ⟨start, fun _ all => ⟨all, .nil⟩⟩
  · intro before k after ds n split holds
    have member : k ∈ ks := by rw [split]; simp
    have homed : k.version = s.self := home.classes k (own ▸ member)
    cases found : n.class? k with
    | none =>
        refine .pure ⟨holds.1, fun clean all => ?_⟩
        rw [List.append_nil] at clean
        obtain ⟨kept, done⟩ := holds.2 clean all
        refine ⟨kept, done.snoc fun c hc => ?_⟩
        rw [found] at hc
        cases hc
    | some c =>
        refine (each n k c holds.1 found).bind fun ds' c' given => ?_
        refine .pure ⟨holds.1.set homed found given.1, fun clean all => ?_⟩
        rw [List.append_nil, clean_append] at clean
        obtain ⟨kept, done⟩ := holds.2 clean.1 all
        have new : T' c' := given.2 clean.2 (kept k member c found)
        refine ⟨kept.setClass (back c' new), (done.setClass new).snoc fun d hd => ?_⟩
        exact Model.class?_setClass_self hd ▸ new
  · exact fun ds n holds => ⟨holds.1, fun clean all => (holds.2 clean all).2⟩

theorem forOwnEndpoints_gives {f : Model → Endpoint → Noting Endpoint} {T T' : Endpoint → Prop}
    (home : m.Homed s.self) (back : ∀ e, T' e → T e)
    (each : ∀ n e, ChangesEndpoints s.self m n →
      Gives (fun ds e' => e'.bare = e.bare ∧ (Clean ds → T e → T' e')) (f n e)) :
    Gives (fun ds m' => ChangesEndpoints s.self m m' ∧ (Clean ds →
        m.AllEndpoints (m.ownEndpoints s.self) T → m'.AllEndpoints (m.ownEndpoints s.self) T'))
      (forOwnEndpoints s f m) := by
  unfold forOwnEndpoints
  generalize own : m.ownEndpoints s.self = ks
  have start := ChangesEndpoints.refl s.self m
  refine (Gives.foldlM (I := fun before ds n => ChangesEndpoints s.self m n ∧ (Clean ds →
    m.AllEndpoints ks T → n.AllEndpoints ks T ∧ n.AllEndpoints before T')) ?_ ?_).mono ?_
  · exact ⟨start, fun _ all => ⟨all, .nil⟩⟩
  · intro before k after ds n split holds
    have member : k ∈ ks := by rw [split]; simp
    have homed : k.version = s.self := home.endpoints k (own ▸ member)
    cases found : n.endpoint? k with
    | none =>
        refine .pure ⟨holds.1, fun clean all => ?_⟩
        rw [List.append_nil] at clean
        obtain ⟨kept, done⟩ := holds.2 clean all
        refine ⟨kept, done.snoc fun e he => ?_⟩
        rw [found] at he
        cases he
    | some e =>
        refine (each n e holds.1).bind fun ds' e' given => ?_
        refine .pure ⟨holds.1.set homed found given.1, fun clean all => ?_⟩
        rw [List.append_nil, clean_append] at clean
        obtain ⟨kept, done⟩ := holds.2 clean.1 all
        have new : T' e' := given.2 clean.2 (kept k member e found)
        refine ⟨kept.setEndpoint (back e' new), (done.setEndpoint new).snoc fun d hd => ?_⟩
        exact Model.endpoint?_setEndpoint_self hd ▸ new
  · exact fun ds n holds => ⟨holds.1, fun clean all => (holds.2 clean all).2⟩

/-- A loop over the own classes changes every class as its steps do. -/
theorem forOwnClasses_keeps {f : Model → Key → Class → Noting Class} {K : Class → Class → Prop}
    (refl : ∀ c, K c c) (trans : ∀ {a b c}, K a b → K b c → K a c)
    (each : ∀ n k c, Gives (fun _ c' => K c c') (f n k c)) :
    Gives (fun _ n => ∀ k, Option.Rel K (m.class? k) (n.class? k)) (forOwnClasses s f m) := by
  unfold forOwnClasses
  refine Gives.foldlM (I := fun _ _ (n : Model) => ∀ k, Option.Rel K (m.class? k) (n.class? k))
    (fun k => rel_refl refl _) fun before k after ds n _ kept => ?_
  cases found : n.class? k with
  | none => exact .pure kept
  | some c =>
      refine (each n k c).bind fun ds' c' step => .pure fun l => ?_
      rw [Model.class?_setClass]
      split
      · next here =>
        subst here
        have before := kept k
        rw [found] at before
        rw [found, Option.map_some]
        exact rel_trans (R := K) trans before (.some step)
      · exact kept l

theorem forOwnEndpoints_keeps {f : Model → Endpoint → Noting Endpoint}
    {K : Endpoint → Endpoint → Prop} (refl : ∀ e, K e e)
    (trans : ∀ {a b c}, K a b → K b c → K a c)
    (each : ∀ n e, Gives (fun _ e' => K e e') (f n e)) :
    Gives (fun _ n => ∀ k, Option.Rel K (m.endpoint? k) (n.endpoint? k))
      (forOwnEndpoints s f m) := by
  unfold forOwnEndpoints
  refine Gives.foldlM (I := fun _ _ (n : Model) => ∀ k, Option.Rel K (m.endpoint? k) (n.endpoint? k))
    (fun k => rel_refl refl _) fun before k after ds n _ kept => ?_
  cases found : n.endpoint? k with
  | none => exact .pure kept
  | some e =>
      refine (each n e).bind fun ds' e' step => .pure fun l => ?_
      rw [Model.endpoint?_setEndpoint]
      split
      · next here =>
        subst here
        have before := kept k
        rw [found] at before
        rw [found, Option.map_some]
        exact rel_trans (R := K) trans before (.some step)
      · exact kept l

end Loops
section Binding

def ParentBound (c : Class) : Prop := c.parentReference.isSome → c.parent.isSome

def HeadBound (c : Class) : Prop :=
  ParentBound c ∧ c.decorators.length = c.decoratorReferences.length

theorem bindParent_gives (k : Key) (c : Class) :
    Gives (fun ds c' => c'.bare = c.bare ∧ (Clean ds → True → ParentBound c'))
      (bindParent s m k c) := by
  unfold bindParent
  cases given : c.parentReference with
  | none =>
      refine .pure ⟨rfl, fun _ _ refers => ?_⟩
      rw [given] at refers
      cases refers
  | some r =>
      refine (findClass_gives s (.class k) r).bind fun ds parent found => ?_
      refine .pure ⟨by simp only [Class.bare, given], fun clean _ _ => ?_⟩
      exact found.2 (clean_append.mp clean).1

theorem bindDecorators_gives (k : Key) (c : Class) :
    Gives (fun ds c' => c'.bare = c.bare ∧ (Clean ds → ParentBound c → HeadBound c'))
      (bindDecorators s m k c) := by
  unfold bindDecorators
  refine (Gives.mapM (P := fun _ _ => True) (Q := fun _ k => k.isSome) fun r _ =>
    (findDecorator_gives s (.class k) r).mono fun ds k found => ⟨trivial, found.2⟩).bind ?_
  intro ds found all
  refine .pure ⟨rfl, fun clean parent => ⟨parent, ?_⟩⟩
  exact length_filterMap_of_forall₂ (all.2 (clean_append.mp clean).1)

theorem bindTarget_gives (a : Association) :
    Gives (fun ds b => Clean ds → b.target.isSome) (bindTarget m s a) := by
  unfold bindTarget
  refine (findClass_gives s _ a.reference).bind fun ds found given => ?_
  cases found with
  | none =>
      refine .pure fun clean => ?_
      exact absurd (given.2 (clean_append.mp clean).1) Bool.false_ne_true
  | some k =>
      dsimp only
      split
      · exact .pure fun _ => rfl
      · refine (report_error rfl).bind fun ds' _ reported => .pure fun clean => ?_
        rw [List.append_nil, clean_append] at clean
        exact absurd clean.2 reported

theorem bindProperty_gives (p : Property) :
    Gives (fun ds q => Clean ds → q.Complete) (bindProperty m s p) := by
  cases p with
  | regular p =>
      refine (findDomain_gives m s _ p.domainReference).bind fun ds domain found => ?_
      exact .pure fun clean => found.2 (clean_append.mp clean).1
  | association a =>
      refine (bindTarget_gives a).bind fun ds b bound => ?_
      exact .pure fun clean => bound (clean_append.mp clean).1
  | composition c =>
      refine (findClass_gives s _ c.reference).bind fun ds target found => ?_
      cases given : c.domainKindReference with
      | none =>
          refine .pure fun clean => ⟨found.2 (clean_append.mp clean).1, fun refers => ?_⟩
          cases refers
      | some r =>
          refine (findDomain_gives m s _ r).bind fun ds' kind found' => .pure fun clean => ?_
          rw [List.append_nil, clean_append] at clean
          exact ⟨found.2 clean.1, fun _ => found'.2 clean.2⟩
  | «alias» a =>
      simp only [bindProperty]
      cases given : a.listDomainReference with
      | none =>
          refine .pure fun _ refers => ?_
          rw [given] at refers
          cases refers
      | some r =>
          refine (findDomain_gives m s _ r).bind fun ds listDomain found => ?_
          exact .pure fun clean _ => found.2 (clean_append.mp clean).1

theorem bindProperties_gives (ps : List Property) :
    Gives (fun ds qs => Clean ds → ∀ q ∈ qs, q.Complete) (ps.mapM (bindProperty m s)) := by
  refine (Gives.mapM (P := fun _ _ => True) (Q := fun _ q => q.Complete) fun p _ =>
    (bindProperty_gives p).mono fun ds q bound => ⟨trivial, bound⟩).mono ?_
  exact fun ds qs all clean => forall_of_forall₂ (all.2 clean)

theorem bindClassProperties_gives (k : Key) (c : Class) :
    Gives (fun ds c' => c'.bare = c.bare ∧ (Clean ds → HeadBound c → c'.Complete))
      (bindClassProperties s m k c) := by
  refine (bindProperties_gives c.properties).bind fun ds ps all => ?_
  exact .pure ⟨rfl, fun clean head => ⟨head.1, head.2, all (clean_append.mp clean).1⟩⟩

theorem bindEndpointProperties_gives (e : Endpoint) :
    Gives (fun ds e' => e'.bare = e.bare ∧ (Clean ds → True → e'.Complete))
      (bindEndpointProperties s m e) := by
  refine (bindProperties_gives e.params).bind fun ds params all => ?_
  cases e.returns with
  | none =>
      refine .pure ⟨rfl, fun clean _ => ⟨all (clean_append.mp clean).1, ?_⟩⟩
      exact fun _ given => by cases given
  | some p =>
      rw [Option.mapM_some, map_eq_pure_bind, bind_assoc]
      refine (bindProperty_gives p).bind fun ds' q bound => ?_
      rw [pure_bind]
      refine .pure ⟨rfl, fun clean _ => ?_⟩
      rw [List.append_nil, clean_append] at clean
      refine ⟨all clean.1, ?_⟩
      rintro _ ⟨⟩
      exact bound clean.2

theorem bindConverter_gives (subject : Subject) (c : Converter) :
    Gives (fun ds c' => c'.bare = c.bare ∧ (Clean ds → c'.Complete)) (do
      let found ← c.targetReferences.mapM (findDomain m s subject)
      return { c with targets := found.filterMap id }) := by
  refine (Gives.mapM (P := fun _ _ => True) (Q := fun _ k => k.isSome) fun r _ =>
    (findDomain_gives m s subject r).mono fun ds k found => ⟨trivial, found.2⟩).bind ?_
  intro ds found all
  refine .pure ⟨rfl, fun clean => ?_⟩
  exact length_filterMap_of_forall₂ (all.2 (clean_append.mp clean).1)

theorem map_of_forall₂ {α β γ : Type} {f : α → γ} {g : β → γ} {xs : List α} {ys : List β}
    (h : List.Forall₂ (fun x y => g y = f x) xs ys) : ys.map g = xs.map f := by
  induction h with
  | nil => rfl
  | cons first rest ih => rw [List.map_cons, List.map_cons, first, ih]

/-- Binding the converters changes nothing but domains. -/
theorem bindConverters_gives :
    Gives (fun ds m' => Model.Rebinds s.self m m' ∧ (∀ k, m'.class? k = m.class? k) ∧
        (∀ k, m'.endpoint? k = m.endpoint? k) ∧
        (Clean ds → ∀ i d, m'.domain? ⟨s.self, i⟩ = some d → d.Complete))
      (bindConverters s m) := by
  unfold bindConverters
  dsimp only
  refine (Gives.mapM (P := fun (p : Domain × Nat) d => d.bare = p.1.bare)
    (Q := fun _ d => d.Complete) ?_).bind ?_
  · rintro ⟨d, i⟩ -
    refine (Gives.mapM fun c _ => bindConverter_gives (.domain ⟨s.self, i⟩) c).bind ?_
    intro ds converters all
    refine .pure ⟨?_, fun clean => forall_of_forall₂ (all.2 (clean_append.mp clean).1)⟩
    simp only [Domain.bare, map_of_forall₂ all.1]
  · intro ds bound all
    refine .pure ⟨?_, ?_, ?_, ?_⟩
    · refine Model.rebinds_modifyFile fun f known => ?_
      have same := map_of_forall₂ (f := fun p : Domain × Nat => p.1.bare) all.1
      rw [known] at same
      simp only [Option.map_some, Option.getD_some] at same
      rw [map_zipIdx_fst Domain.bare] at same
      simp only [ModelFile.bare, same]
    · intro k
      refine Model.class?_modifyFile m s.self ?_ k
      exact fun _ => rfl
    · intro k
      refine Model.endpoint?_modifyFile m s.self ?_ k
      exact fun _ => rfl
    · intro clean i d found
      rw [Model.domain?, Model.file?_modifyFile, if_pos rfl] at found
      cases known : m.file? s.self with
      | none =>
          rw [known] at found
          cases found
      | some f =>
          rw [known] at found
          exact forall_of_forall₂ (all.2 (clean_append.mp clean).1) d
            (List.mem_of_getElem? found)

/-- Binding a file without an error leaves nothing of it unbound. -/
theorem bind_gives (home : m.Homed s.self) :
    Gives (fun ds m' => Model.Rebinds s.self m m' ∧ (Clean ds →
        m'.AllClasses (m.ownClasses s.self) Class.Complete ∧
        m'.AllEndpoints (m.ownEndpoints s.self) Endpoint.Complete ∧
        ∀ i d, m'.domain? ⟨s.self, i⟩ = some d → d.Complete))
      (bind s m) := by
  unfold bind
  refine (forOwnClasses_gives home (T := fun _ => True) (fun _ _ => trivial) fun _ k c _ _ =>
    bindParent_gives k c).bind fun ds₁ m₁ first => ?_
  have toFirst := first.1.toRebinds
  refine (forOwnClasses_gives (toFirst.homed home) (fun c head => head.1) fun _ k c _ _ =>
    bindDecorators_gives k c).bind fun ds₂ m₂ second => ?_
  have toSecond := toFirst.trans second.1.toRebinds
  refine (forOwnClasses_gives (toSecond.homed home) (fun c whole => ⟨whole.parent, whole.decorators⟩)
    fun _ k c _ _ => bindClassProperties_gives k c).bind fun ds₃ m₃ third => ?_
  have toThird := toSecond.trans third.1.toRebinds
  refine (forOwnEndpoints_gives (toThird.homed home) (T := fun _ => True) (fun _ _ => trivial)
    fun _ e _ => bindEndpointProperties_gives e).bind fun ds₄ m₄ fourth => ?_
  have toFourth := toThird.trans fourth.1.toRebinds
  refine bindConverters_gives.mono fun ds₅ m₅ fifth => ⟨toFourth.trans fifth.1, fun clean => ?_⟩
  simp only [clean_append] at clean
  obtain ⟨clean₁, clean₂, clean₃, clean₄, clean₅⟩ := clean
  rw [toFirst.ownClasses] at second
  rw [toSecond.ownClasses] at third
  rw [toThird.ownEndpoints] at fourth
  have classes := third.2 clean₃ (second.2 clean₂ (first.2 clean₁ fun _ _ _ _ => trivial))
  refine ⟨fun k hk c found => ?_, fun k hk e found => ?_, fifth.2.2.2 clean₅⟩
  · rw [fifth.2.1, fourth.1.classes] at found
    exact classes k hk c found
  · rw [fifth.2.2.1] at found
    exact fourth.2 clean₄ (fun _ _ _ _ => trivial) k hk e found

theorem checkUses_gives (m : Model) (s : Scope) :
    Gives (fun ds _ => Clean ds → ∀ use ∈ m.uses s.self, s.dependencies.has use.name)
      (checkUses m s) := by
  rw [checkUses, missingUses, filter_forM]
  refine .forM fun use _ => ?_
  split
  · exact (report_error rfl).mono fun ds _ reported clean => absurd clean reported
  · next there => exact .pure fun _ => by simpa using there

end Binding
end Resolution
end DataModel
