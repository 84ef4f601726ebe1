import DataModel.Proofs.Model.Rearranging
import DataModel.Proofs.Resolution.Collapsing
import DataModel.Proofs.Resolution.Stages

/-!
Resolving a file whose classes come in another order. Every step but one takes each class by itself
or looks only at what is the same in both orders. The exception is expanding: an alias copies the
properties of its class as they are at the moment, and those that are still aliases are not copied.
So a class must not come before another one that it copies from in one order and behind it in the
other, if that other one holds aliases itself.
-/
namespace DataModel.Resolution
variable {s s' : Scope} {m m' n n' : Model} {v : VersionId} {f : ModelFile} {cs : List Class}

section Notes
variable {σ : Key → Key}

/-- Notes that are the same but for their order and the keys of classes. -/
structure Notes.Shuffles (σ : Key → Key) (a a' : Notes) : Prop where
  files : a'.usedFiles.Perm a.usedFiles
  said : a'.diagnostics.Perm (a.diagnostics.map (Diagnostic.relink σ))

namespace Notes.Shuffles
variable {a a' b b' : Notes}

theorem zero : Shuffles σ 0 0 := ⟨.refl _, .refl _⟩

theorem add (h : Shuffles σ a a') (next : Shuffles σ b b') : Shuffles σ (a + b) (a' + b') := by
  refine ⟨next.files.append h.files, ?_⟩
  show (a'.diagnostics ++ b'.diagnostics).Perm ((a.diagnostics ++ b.diagnostics).map _)
  rw [List.map_append]
  exact h.said.append next.said

theorem sum {ks ks' : List Key} {F G : Key → Notes} (perm : ks'.Perm (ks.map σ))
    (each : ∀ k ∈ ks, Shuffles σ (F k) (G (σ k))) :
    Shuffles σ (ks.map F).sum (ks'.map G).sum := by
  have inOrder : Shuffles σ (ks.map F).sum ((ks.map σ).map G).sum := by
    clear perm
    induction ks with
    | nil => exact zero
    | cons k ks ih =>
        obtain ⟨first, rest⟩ := List.forall_mem_cons.mp each
        simp only [List.map_cons, List.sum_cons]
        exact first.add (ih rest)
  have files : ∀ ks : List Key, (ks.map G).sum.usedFiles.Perm (ks.flatMap fun k => (G k).usedFiles) := by
    intro ks
    induction ks with
    | nil => exact .refl _
    | cons k ks ih =>
        rw [List.map_cons, List.sum_cons, List.flatMap_cons]
        exact (List.perm_append_comm).trans (ih.append_left _)
  have said : ∀ ks : List Key, (ks.map G).sum.diagnostics = ks.flatMap fun k => (G k).diagnostics := by
    intro ks
    induction ks with
    | nil => rfl
    | cons k ks ih =>
        rw [List.map_cons, List.sum_cons, List.flatMap_cons, ← ih]
        rfl
  refine ⟨?_, ?_⟩
  · exact (files ks').trans ((perm.flatMap_right _).trans ((files _).symm.trans inOrder.files))
  · have ordered := inOrder.said
    rw [said] at ordered ⊢
    exact (perm.flatMap_right _).trans ordered

end Notes.Shuffles

/-- Two runs that take the classes of a file in different orders. -/
def rearranging (σ : Key → Key) (injective : σ.Injective) : Mirror where
  key := σ
  injective := injective
  subject t t' := t' = t.relink σ
  relinked _ := rfl
  notes := Notes.Shuffles σ
  zero := .zero
  add := .add
  used _ := ⟨.refl _, .refl _⟩
  files h _ := h.files.contains_eq
  report f v r about := ⟨.refl _, by rw [about]; exact .refl _⟩
  order ks ks' := ks'.Perm (ks.map σ)
  perm := id
  tally := .sum

end Notes

section Scopes

/-- What a list of pairs says of a name, if no name comes twice. -/
theorem get?_ofList_iff {α : Type} {pairs : List (String × α)} (once : (pairs.map Prod.fst).Nodup)
    {name : String} {a : α} : (Table.ofList pairs).get? name = some a ↔ (name, a) ∈ pairs := by
  refine ⟨Table.mem_of_get?_ofList, fun member => ?_⟩
  induction pairs with
  | nil => cases member
  | cons p rest ih =>
      obtain ⟨new, once⟩ := List.nodup_cons.mp once
      rw [← List.singleton_append, Table.get?_ofList_append]
      rcases List.mem_cons.mp member with rfl | later
      · have absent : (Table.ofList rest).get? name = none :=
          Table.get?_eq_none_iff.mpr fun known => new (Table.mem_keys_ofList.mp known)
        rw [absent, Option.none_or]
        exact (Table.get?_cons name a [] name).trans (if_pos rfl)
      · rw [ih once later, Option.some_or]

theorem get?_ofList_perm {α : Type} {pairs pairs' : List (String × α)}
    (once : (pairs.map Prod.fst).Nodup) (perm : pairs'.Perm pairs) (name : String) :
    (Table.ofList pairs').get? name = (Table.ofList pairs).get? name := by
  refine Option.ext fun a => ?_
  rw [get?_ofList_iff once, get?_ofList_iff ((perm.map _).nodup_iff.mpr once), perm.mem_iff]

theorem filterMap_getElem? {α β : Type} (xs : List α) (g : α → β) :
    ((List.range xs.length).filterMap fun i => xs[i]?.map g) = xs.map g := by
  have all : ((List.range xs.length).map fun i => xs[i]?.map g) = xs.map fun a => some (g a) := by
    refine List.ext_getElem (by simp) fun i inside _ => ?_
    have bound : i < xs.length := by simpa using inside
    simp [bound]
  have found := congrArg (List.filterMap id) all
  rw [List.filterMap_map, List.filterMap_map] at found
  exact found.trans (List.filterMap_eq_map (f := g) ▸ rfl)

/-- The names on offer by a file just loaded. -/
theorem offeredNames_of_fresh (fresh : m.version? v = some (.fresh v f)) (file : String) :
    (offeredClasses m (m.ownClasses v) file).map Prod.fst = f.classes.map (·.name) := by
  have read : ∀ i, m.class? ⟨v, i⟩ = f.classes[i]? := by
    intro i
    rw [Model.class?, Model.file?, fresh]
    rfl
  rw [← filterMap_getElem? f.classes (·.name), Model.ownClasses_of_fresh fresh, Model.classes, fresh,
    offeredClasses, List.map_filterMap]
  simp only [Option.map_some, Option.getD_some, Version.fresh, List.filterMap_map]
  refine List.filterMap_congr fun i _ => ?_
  simp only [Function.comp_apply, read, Option.map_map]
  rfl

/-- An offer under another key. -/
def Offer.relink (σ : Key → Key) (o : Offer) : Offer := { o with key := σ o.key }

theorem ownOffers_rearranged (h : Model.Rearranges v f cs m m') (file : String) :
    (offeredClasses m' (m'.ownClasses v) file).Perm
      ((offeredClasses m (m.ownClasses v) file).map fun p =>
        (p.1, p.2.relink (Key.rearranged v f.classes cs))) := by
  refine (h.ownClasses.filterMap _).trans (List.Perm.of_eq ?_)
  rw [List.filterMap_map, offeredClasses, List.map_filterMap]
  refine List.filterMap_congr fun k _ => ?_
  simp only [Function.comp_apply, h.class?, Option.map_map]
  rfl

/-- What other files offer does not lie in the rearranged one. -/
theorem otherOffers_rearranged (h : Model.Rearranges v f cs m m') {d : VersionId} (other : d ≠ v)
    (file : String) :
    offeredClasses m' (m'.classes d) file = (offeredClasses m (m.classes d) file).map fun p =>
      (p.1, p.2.relink (Key.rearranged v f.classes cs)) := by
  have keys : m'.classes d = m.classes d := by rw [Model.classes, Model.classes, h.others other]
  rw [keys, offeredClasses, offeredClasses, List.map_filterMap]
  refine List.filterMap_congr fun k hk => ?_
  have away := h.offered_other other hk
  rw [Option.map_map, Model.class?_congr (h.others away)]
  refine congrArg (Option.map · (m.class? k)) (funext fun c => ?_)
  simp only [Function.comp_apply, Offer.relink, Key.rearranged_other away]

theorem rearranging_scopes (h : Model.Rearranges v f cs m m') {dependencies : List VersionId}
    (apart : v ∉ dependencies) (domains : Table Key) :
    (rearranging (Key.rearranged v f.classes cs) h.injective).Scopes
      (.of m v dependencies domains) (.of m' v dependencies domains) := by
  have decorators : offeredDecorators m' = offeredDecorators m := by
    funext w
    rw [offeredDecorators, offeredDecorators, h.fileName, h.reading fun _ _ => rfl]
  refine ⟨rfl, ?_, fun name => ?_, ?_, rfl⟩
  · simp only [Scope.of, h.fileName]
  · show (Table.ofList _).get? name = ((Table.ofList _).get? name).map _
    rw [Table.get?_ofList_append, Table.get?_ofList_append, Option.map_or, h.fileName]
    refine congrArg₂ Option.or ?_ ?_
    · have once : (((offeredClasses m (m.ownClasses v) (m.fileName v)).map fun p =>
          (p.1, p.2.relink (Key.rearranged v f.classes cs))).map Prod.fst).Nodup := by
        rw [List.map_map]
        exact offeredNames_of_fresh h.fresh _ ▸ h.names
      rw [get?_ofList_perm once (ownOffers_rearranged h _), Table.ofList_mapValues,
        Table.get?_mapValues]
      rfl
    · have others : dependencies.flatMap (fun d => offeredClasses m' (m'.classes d) (m.fileName d)) =
          (dependencies.flatMap fun d => offeredClasses m (m.classes d) (m.fileName d)).map fun p =>
            (p.1, p.2.relink (Key.rearranged v f.classes cs)) := by
        rw [List.map_flatMap]
        refine List.flatMap_congr fun d hd => otherOffers_rearranged h ?_ _
        exact fun same => apart (same ▸ hd)
      rw [others, Table.ofList_mapValues, Table.get?_mapValues]
      rfl
  · simp only [Scope.of, decorators]

end Scopes

section Beginnings

theorem awaits_unlinked {σ : Key → Key} {injective : σ.Injective} {p : Property}
    (unlinked : p.Linked .none) : (rearranging σ injective).Awaits p p := by
  refine ⟨rfl, ?_⟩
  show Subject.property p = Subject.property (p.relink σ)
  rw [unlinked.relink False.elim]

theorem awaitsAll_unlinked {σ : Key → Key} {injective : σ.Injective} {ps : List Property}
    (unlinked : ∀ p ∈ ps, p.Linked .none) :
    List.Forall₂ (rearranging σ injective).Awaits ps ps :=
  List.forall₂_same.mpr fun p hp => awaits_unlinked (unlinked p hp)

theorem awaitsClass_unlinked {σ : Key → Key} {injective : σ.Injective} {c : Class}
    (unlinked : c.Linked .none) : (rearranging σ injective).AwaitsClass c c := by
  refine ⟨?_, awaitsAll_unlinked unlinked.properties⟩
  have parent : c.parent = none := by
    cases given : c.parent with
    | none => rfl
    | some k =>
        obtain ⟨r, -, allows⟩ := unlinked.parent k given
        exact allows.elim
  show c.unbound = c.unbound.relink σ
  simp [Class.unbound, Class.relink, parent, unanswered]

theorem awaitsEndpoint_unlinked {σ : Key → Key} {injective : σ.Injective} {e : Endpoint}
    (unlinked : e.Linked .none) : (rearranging σ injective).AwaitsEndpoint e e := by
  refine ⟨rfl, awaitsAll_unlinked unlinked.params, ?_⟩
  cases given : e.returns with
  | none => exact .none
  | some p => exact .some (awaits_unlinked (unlinked.returns p given))

/-- The two runs begin with the same file, not yet bound. -/
theorem rearranging_begins (h : Model.Rearranges s.self f cs m m') (self : s'.self = s.self)
    (unlinked : f.Unlinked) :
    (rearranging (Key.rearranged s.self f.classes cs) h.injective).Begins s s' m m' where
  home := Model.homed_of_fresh h.fresh
  home' := self ▸ Model.homed_of_fresh h.fresh'
  once := Model.nodup_ownClasses_of_fresh h.fresh
  order := by
    rw [self]
    exact h.ownClasses
  onceEndpoints := Model.nodup_ownEndpoints_of_fresh h.fresh
  sameEndpoints := by rw [self, h.ownEndpoints]
  files := h.fileName
  counted k := congrArg (Option.map _) (h.class? k)
  classes k hk := by
    obtain ⟨c, found⟩ := Option.isSome_iff_exists.mp
      ((Model.mem_ownClasses_of_fresh h.fresh).mp hk).2
    have declared := unlinked.classes c (Model.class_of_fresh h.fresh hk found)
    exact ⟨c, c, found, (h.class? k).trans found, awaitsClass_unlinked declared⟩
  otherClasses k hk := by
    show m'.class? (k.rearranged s.self f.classes cs) = _
    by_cases here : k.version = s.self
    · rw [Model.mem_ownClasses_of_fresh h.fresh, and_iff_right here,
        Option.not_isSome_iff_eq_none] at hk
      rw [h.class?, hk]
      rfl
    · rw [Key.rearranged_other here]
      exact h.relink_other here
  endpoints k hk := by
    obtain ⟨e, found⟩ := Option.isSome_iff_exists.mp
      ((Model.mem_ownEndpoints_of_fresh h.fresh).mp hk).2
    have declared := unlinked.endpoints e (Model.endpoint_of_fresh h.fresh hk found)
    exact ⟨e, e, found, (h.endpoint? k).trans found, awaitsEndpoint_unlinked declared⟩
  otherEndpoints k hk := by
    by_cases here : k.version = s.self
    · rw [Model.mem_ownEndpoints_of_fresh h.fresh, and_iff_right here,
        Option.not_isSome_iff_eq_none] at hk
      rw [h.endpoint?, hk]
      rfl
    · exact h.relink_otherEndpoint here
  domains := by
    refine ⟨?_, fun k _ => h.domain? k⟩
    exact h.reading (fun _ _ => rfl) s.self

end Beginnings

section Sides

/-- In both orders, a class stands on the same side of another one that it copies from, if that
other one holds aliases itself. -/
def KeepsSides (cs cs' : List Class) : Prop :=
  ∀ c ∈ cs, ∀ d ∈ cs, c ≠ d →
    (∃ a ∈ c.properties.filterMap Property.alias?, a.reference.name = d.name) →
    d.properties.filterMap Property.alias? ≠ [] →
    (cs.idxOf d < cs.idxOf c ↔ cs'.idxOf d < cs'.idxOf c)

instance (cs cs' : List Class) : Decidable (KeepsSides cs cs') := by
  unfold KeepsSides
  infer_instance

theorem KeepsSides.symm {cs cs' : List Class} (perm : cs'.Perm cs) (h : KeepsSides cs cs') :
    KeepsSides cs' cs := fun c hc d hd other copies holds =>
  (h c (perm.mem_iff.mp hc) d (perm.mem_iff.mp hd) other copies holds).symm

/-- The own classes before another one are those with smaller numbers. -/
theorem mem_before_iff (fresh : m.version? v = some (.fresh v f)) {before after : List Key} {k l : Key}
    (split : m.ownClasses v = before ++ k :: after) :
    l ∈ before ↔ l.version = v ∧ l.index < k.index := by
  have numbered : m.ownClasses v = (List.range f.classes.length).map fun i => ⟨v, i⟩ := by
    rw [Model.ownClasses_of_fresh fresh, Model.classes, fresh]
    rfl
  rw [numbered] at split
  have bound : before.length < f.classes.length := by
    have length := congrArg List.length split
    rw [List.length_map, List.length_range, List.length_append, List.length_cons] at length
    omega
  have here : k = ⟨v, before.length⟩ := by
    have found := congrArg (·[before.length]?) split
    simpa [bound] using found.symm
  have early : before = (List.range before.length).map fun i => ⟨v, i⟩ := by
    have taken := congrArg (List.take before.length) split
    rw [List.take_left, ← List.map_take, List.take_range, Nat.min_eq_left bound.le] at taken
    exact taken.symm
  rw [early, here]
  obtain ⟨w, i⟩ := l
  simp [and_comm, eq_comm]

theorem idxOf_of_getElem? {α : Type} [DecidableEq α] {xs : List α} (once : xs.Nodup) {i : Nat}
    {a : α} (found : xs[i]? = some a) : xs.idxOf a = i := by
  have member := List.mem_of_getElem? found
  exact (List.getElem?_inj (List.idxOf_lt_length_of_mem member) once).mp
    ((List.getElem?_idxOf member).trans found.symm)

/-- Where a class of the file stands, in one order and in the other. -/
theorem placed_of_fresh (h : Model.Rearranges v f cs m m') {k : Key} {c : Class}
    (home : k.version = v) (found : m.class? k = some c) :
    f.classes.idxOf c = k.index ∧ (k.rearranged v f.classes cs).index = cs.idxOf c := by
  have here : f.classes[k.index]? = some c := by
    rw [Model.class?, home, Model.file?, h.fresh] at found
    exact found
  refine ⟨idxOf_of_getElem? h.once here, ?_⟩
  rw [Key.rearranged, if_pos home, place, here]
  rfl

theorem sameSide_of_keeps (h : Model.Rearranges v f cs m m') {k l : Key} {c d : Class}
    (found : m.class? k = some c) (found' : m.class? l = some d)
    (keeps : k.version = v → l.version = v →
      (f.classes.idxOf d < f.classes.idxOf c ↔ cs.idxOf d < cs.idxOf c)) :
    SameSide (Key.rearranged v f.classes cs) (m.ownClasses v) (m'.ownClasses v) l k := by
  intro before after before' after' split split'
  rw [mem_before_iff h.fresh split, mem_before_iff h.fresh' split', Key.version_rearranged]
  refine and_congr_right fun own => ?_
  have home : k.version = v := by
    refine ((Model.mem_ownClasses_of_fresh h.fresh).mp ?_).1
    rw [split]
    exact List.mem_append_right _ List.mem_cons_self
  obtain ⟨first, second⟩ := placed_of_fresh h home found
  obtain ⟨first', second'⟩ := placed_of_fresh h own found'
  rw [second, second', ← first, ← first']
  exact keeps home own

theorem aliases_of_unbound {ps qs : List Property}
    (same : qs.map Property.unbound = ps.map Property.unbound) {a : Placeholder}
    (member : a ∈ qs.filterMap Property.alias?) :
    ∃ b ∈ ps.filterMap Property.alias?, b.reference = a.reference := by
  have read := read_of_unbound (fun p => p.alias?.map (·.reference)) (fun p => by
    rw [Property.alias?_unbound, Option.map_map]
    rfl) same
  obtain ⟨q, hq, isAlias⟩ := List.mem_filterMap.mp member
  have inside : some a.reference ∈ ps.map fun p => p.alias?.map (·.reference) := by
    rw [← read]
    exact List.mem_map.mpr ⟨q, hq, by rw [isAlias]; rfl⟩
  obtain ⟨p, hp, refers⟩ := List.mem_map.mp inside
  obtain ⟨b, isAlias', same⟩ := Option.map_eq_some_iff.mp refers
  exact ⟨b, List.mem_filterMap.mpr ⟨p, hp, isAlias'⟩, same⟩

/-- Expanding finds every class on the same side of those that it depends on. -/
theorem sides_kept (h : Model.Rearranges s.self f cs m m') (keeps : KeepsSides f.classes cs)
    (named : ∀ {name o}, s.classes.get? name = some o →
      ∃ c, m.class? o.key = some c ∧ c.name = name) (bound : Rebinding s.self m n) {k l : Key}
    (feeds : Feeds s n l k) :
    SameSide (Key.rearranged s.self f.classes cs) (m.ownClasses s.self) (m'.ownClasses s.self) l k := by
  obtain ⟨c, d, o, found, found', rfl, other, ⟨a, ha, offer⟩, holds⟩ := feeds
  obtain ⟨c₀, before, same⟩ := bound.class_before found
  obtain ⟨d₀, before', same'⟩ := bound.class_before found'
  refine sameSide_of_keeps h before before' fun home own => ?_
  have member : ∀ {k : Key} {c : Class}, k.version = s.self → m.class? k = some c →
      c ∈ f.classes := fun home found =>
    Model.class_of_fresh h.fresh
      ((Model.mem_ownClasses_of_fresh h.fresh).mpr ⟨home, by rw [found]; rfl⟩) found
  refine keeps c₀ (member home before) d₀ (member own before') ?_ ?_ ?_
  · rintro rfl
    have place := (placed_of_fresh h home before).1
    rw [(placed_of_fresh h own before').1] at place
    exact other (Key.ext (own.trans home.symm) place)
  · obtain ⟨b, hb, refers⟩ := aliases_of_unbound (congrArg Class.properties same) ha
    obtain ⟨d', found₀, name⟩ := named offer
    cases before'.symm.trans found₀
    exact ⟨b, hb, refers ▸ name.symm⟩
  · obtain ⟨b, hb⟩ := List.exists_mem_of_ne_nil _ holds
    obtain ⟨b', hb', -⟩ := aliases_of_unbound (congrArg Class.properties same') hb
    exact List.ne_nil_of_mem hb'

end Sides

section Whole
variable {allowCompositeKeys : Bool} {ks : List Key}

/-- A file with its classes in another order is declared just as well. -/
theorem declared_rearranged (declared : f.Declared) (perm : cs.Perm f.classes) :
    ModelFile.Declared { f with classes := cs } where
  unlinked :=
    { declared.unlinked with classes := fun c hc => declared.unlinked.classes c (perm.mem_iff.mp hc) }
  classes c hc := declared.classes c (perm.mem_iff.mp hc)
  endpoints := declared.endpoints

theorem linking_rearranged (h : Model.Rearranges s.self f cs m m') (declared : f.Declared)
    (keeps : KeepsSides f.classes cs)
    (scopes : (rearranging (Key.rearranged s.self f.classes cs) h.injective).Scopes s s')
    (named : ∀ {name o}, s.classes.get? name = some o →
      ∃ c, m.class? o.key = some c ∧ c.name = name) :
    (rearranging (Key.rearranged s.self f.classes cs) h.injective).Reflects
      (fun n n' => (rearranging (Key.rearranged s.self f.classes cs) h.injective).Models n n' ∧
        Model.Rebinds s.self m n ∧ Model.Rebinds s.self m' n')
      (linking s m) (linking s' m') := by
  have self := scopes.self
  have undone := undone_of_declared h.fresh declared
  have undone' := undone_of_declared h.fresh' (declared_rearranged declared h.perm)
  unfold linking
  rw [collapseAll_undone undone, collapseAll_undone (self ▸ undone'), pure_bind, pure_bind]
  refine (checkUses_reflects scopes (h.uses _)).bind fun _ _ _ => ?_
  have begins := rearranging_begins h self declared.unlinked
  refine (bind_reflects scopes begins).bind ?_
  rintro n n' ⟨models, bound, bound'⟩
  have listed := (listed_of_fresh h.fresh).shape bound.evolves.keepsShape bound.ownClasses
    bound.ownEndpoints
  have once := nodup_slots_bound h.fresh declared bound
  refine (expandAll_reflects scopes (begins.toAlike.rebinds bound.toRebinds bound'.toRebinds) models
    listed.there listed.thereEndpoints once fun l k feeds => ?_).mono ?_
  · rw [self] at bound' ⊢
    rw [bound.ownClasses, bound'.ownClasses]
    exact sides_kept h keeps named bound feeds
  · rintro m₃ m₃' ⟨models', step, step'⟩
    rw [self] at bound' step'
    exact ⟨models', bound.toRebinds.trans step, bound'.toRebinds.trans step'⟩

/-- What a file offers before it takes anything: its own classes, all of different names. -/
theorem offered_of_rebinds (fresh : m.version? v = some (.fresh v f))
    (names : (f.classes.map (·.name)).Nodup) (step : Model.Rebinds v m n) :
    ∃ ver, n.version? v = some ver ∧ ver.classes = m.ownClasses v ∧ ver.sharedClasses = [] ∧
      (ver.classes.map (className? n)).Nodup := by
  have bare := step.bare
  rw [fresh] at bare
  obtain ⟨ver, known, same⟩ := Option.map_eq_some_iff.mp bare
  have classes : ver.bare.classes = (Version.fresh v f).bare.classes := by rw [same]
  have shares : ver.bare.sharedClasses = (Version.fresh v f).bare.sharedClasses := by rw [same]
  have own : ver.classes = m.ownClasses v := by
    rw [Model.ownClasses_of_fresh fresh, Model.classes, fresh]
    exact classes
  refine ⟨ver, known, own, shares, ?_⟩
  have named : ver.classes.map (className? n) = f.classes.map fun c => some c.name := by
    refine (congrArg _ (classes : ver.classes = _)).trans ?_
    refine List.ext_getElem (by simp [Version.bare, Version.fresh]) fun i inside _ => ?_
    have bound : i < f.classes.length := by simpa [Version.bare, Version.fresh] using inside
    have read : className? n ⟨v, i⟩ = some f.classes[i].name := by
      rw [className?, step.evolves.keepsShape.className, Model.class?, Model.file?, fresh]
      simp [Version.fresh, bound]
    simpa [Version.bare, Version.fresh] using read
  rw [named]
  exact List.Nodup.of_map (Option.getD · "") (by rwa [List.map_map])

/-- Both files take the same, and keep the same own classes. -/
theorem shared_rearranged (h : Model.Rearranges v f cs m m') (step : Model.Rebinds v m n)
    (step' : Model.Rebinds v m' n')
    (names : ∀ k, className? n' (k.rearranged v f.classes cs) = className? n k) (es : List Key)
    (foreign : ∀ k ∈ ks, k.version ≠ v) :
    ((shared n v ks es).ownClasses v).Nodup ∧ ((shared n' v ks es).ownClasses v).Perm
      (((shared n v ks es).ownClasses v).map (Key.rearranged v f.classes cs)) := by
  obtain ⟨ver, known, own, none, once⟩ := offered_of_rebinds h.fresh h.names step
  obtain ⟨ver', known', own', none', once'⟩ := offered_of_rebinds h.fresh' h.symm.names step'
  have stays : ∀ k, k ∈ (shared n v ks es).ownClasses v ↔
      k ∈ m.ownClasses v ∧ ∀ l ∈ ks, className? n l ≠ className? n k := by
    intro k
    rw [mem_ownClasses_shared known none once, own]
    refine and_congr_right fun member => and_iff_right fun taken => foreign k taken ?_
    exact ((Model.mem_ownClasses_of_fresh h.fresh).mp member).1
  have stays' : ∀ k, k ∈ (shared n' v ks es).ownClasses v ↔
      k ∈ m'.ownClasses v ∧ ∀ l ∈ ks, className? n' l ≠ className? n' k := by
    intro k
    rw [mem_ownClasses_shared known' none' once', own']
    refine and_congr_right fun member => and_iff_right fun taken => foreign k taken ?_
    exact ((Model.mem_ownClasses_of_fresh h.fresh').mp member).1
  have same : ∀ l ∈ ks, className? n' l = className? n l := by
    intro l hl
    rw [← names l, Key.rearranged_other (foreign l hl)]
  have single := nodup_ownClasses_shared known once ks es
  refine ⟨single, (List.perm_ext_iff_of_nodup (nodup_ownClasses_shared known' once' ks es)
    (single.map h.injective)).mpr fun k' => ?_⟩
  rw [stays', h.ownClasses.mem_iff, List.mem_map, List.mem_map]
  constructor
  · rintro ⟨⟨k, member, rfl⟩, apart⟩
    refine ⟨k, (stays k).mpr ⟨member, fun l hl => ?_⟩, rfl⟩
    rw [← same l hl, ← names k]
    exact apart l hl
  · rintro ⟨k, member, rfl⟩
    obtain ⟨inside, apart⟩ := (stays k).mp member
    refine ⟨⟨k, inside, rfl⟩, fun l hl => ?_⟩
    rw [same l hl, names k]
    exact apart l hl

/-- Other files offer the same in both runs. -/
theorem offers_rearranged (h : Model.Rearranges s.self f cs m m')
    (apart : ∀ {name d}, s.dependencies.get? name = some d → d ≠ s.self)
    (step : Model.Rebinds s.self m n) (step' : Model.Rebinds s.self m' n') :
    SameOffers s n n' := by
  have versions : ∀ {d}, d ≠ s.self → n'.version? d = n.version? d := fun other =>
    (step'.others other).trans ((h.others other).trans (step.others other).symm)
  refine ⟨apart, fun source => ⟨?_, fun k hk => ?_⟩, fun source => ⟨?_, fun k hk => ?_⟩, ?_, ?_⟩
  · rw [Model.classes, Model.classes, versions (apart source)]
  · have away : k.version ≠ s.self := by
      refine h.offered_other (apart source) ?_
      rwa [Model.classes, ← step.others (apart source)]
    rw [className?, className?, Model.class?_congr (versions away)]
  · rw [Model.endpoints, Model.endpoints, versions (apart source)]
  · rw [endpointName?, endpointName?, step'.evolves.keepsShape.endpointName,
      step.evolves.keepsShape.endpointName, h.endpoint?]
  · rw [fileName_rebinds step, fileName_rebinds step', h.fileName]
  · rw [step'.evolves.keepsShape.reading (fun _ => rfl),
      step.evolves.keepsShape.reading (fun _ => rfl), h.reading fun _ _ => rfl]

/-- All steps in both runs. -/
theorem steps_rearranged (h : Model.Rearranges s.self f cs m m') (declared : f.Declared)
    (keeps : KeepsSides f.classes cs)
    (scopes : (rearranging (Key.rearranged s.self f.classes cs) h.injective).Scopes s s')
    (named : ∀ {name o}, s.classes.get? name = some o →
      ∃ c, m.class? o.key = some c ∧ c.name = name)
    (apart : ∀ {name d}, s.dependencies.get? name = some d → d ≠ s.self) {last : Notes}
    (done : (steps s allowCompositeKeys m).run 0 = .ok (n, last)) :
    ∃ n' last', (steps s' allowCompositeKeys m').run 0 = .ok (n', last') ∧
      Notes.Shuffles (Key.rearranged s.self f.classes cs) last last' ∧
      (∀ k, n'.class? (k.rearranged s.self f.classes cs) =
        (n.class? k).map (Class.relink (Key.rearranged s.self f.classes cs))) ∧
      ∀ k, n'.endpoint? k =
        (n.endpoint? k).map (Endpoint.relink (Key.rearranged s.self f.classes cs)) := by
  rw [steps_eq] at done ⊢
  obtain ⟨m₃, last₁, run₁, done⟩ := run_bind done
  obtain ⟨m₄, last₂, run₂, done⟩ := run_bind done
  obtain ⟨_, last₃, run₃, done⟩ := run_bind done
  cases done
  obtain ⟨m₃', last₁', run₁', ⟨models, step, step'⟩, compare₁⟩ :=
    (linking_rearranged h declared keeps scopes named).run .zero run₁
  obtain ⟨m₄', last₂', run₂', ⟨ks, es, offered, rfl, rfl⟩, compare₂⟩ :=
    (shareAliases_reflects scopes (offers_rearranged h apart step step')).run compare₁ run₂
  have foreign : ∀ k ∈ ks, k.version ≠ s.self := by
    intro k hk
    obtain ⟨name, d, source, offer⟩ := offered k hk
    refine h.offered_other (apart source) ?_
    rwa [Model.classes, ← step.others (apart source)]
  have heads : ∀ k, className? m₃' (k.rearranged s.self f.classes cs) = className? m₃ k := by
    intro k
    have same : m₃'.class? (k.rearranged s.self f.classes cs) = _ := models.classes k
    rw [className?, className?, same, Option.map_map]
    rfl
  obtain ⟨once, order⟩ := shared_rearranged h step step' heads es foreign
  have classes : ∀ k, (shared m₃' s.self ks es).class? (k.rearranged s.self f.classes cs) =
      ((shared m₃ s.self ks es).class? k).map
        (Class.relink (Key.rearranged s.self f.classes cs)) := by
    intro k
    rw [class?_of_files file?_shared, class?_of_files file?_shared]
    exact models.classes k
  have uses : (shared m₃' s.self ks es).uses s.self = (shared m₃ s.self ks es).uses s.self := by
    rw [Model.uses, Model.uses, file?_shared, file?_shared, ← Model.uses, ← Model.uses,
      step'.evolves.keepsShape.uses, step.evolves.keepsShape.uses, h.uses]
  obtain ⟨last', run₃', compare₃⟩ := checking_run scopes classes once (by rwa [scopes.self]) uses
    compare₂ run₃
  refine ⟨_, last', ?_, compare₃, classes, fun k => ?_⟩
  · rw [run_then run₁', run_then run₂', missingUses_mirrored scopes (h.uses _), run_then run₃']
    rfl
  · rw [endpoint?_of_files file?_shared, endpoint?_of_files file?_shared]
    exact models.endpoints k

end Whole
end DataModel.Resolution

namespace DataModel.Model
open Resolution
variable {m m' n : Model} {v : VersionId} {f : ModelFile} {cs : List Class}
  {dependencies : List VersionId} {domains : Table Key} {allowCompositeKeys : Bool}
  {ds : List Diagnostic}

/-- Two runs that end alike: with the same classes and endpoints up to the keys of classes, in which
properties have the same names, and the same diagnostics up to their order; or both get stuck. -/
inductive EndsAlike (σ : Key → Key) : Except Stuck (List Diagnostic × Model) →
    Except Stuck (List Diagnostic × Model) → Prop
  | done {ds ds' : List Diagnostic} {n n' : Model}
    (said : ds'.Perm (ds.map (Diagnostic.relink σ)))
    (classes : ∀ k, n'.class? (σ k) = (n.class? k).map (Class.relink σ))
    (endpoints : ∀ k, n'.endpoint? k = (n.endpoint? k).map (Endpoint.relink σ))
    (names : ∀ p : Property, n'.propertyName? (p.relink σ) = n.propertyName? p) :
    EndsAlike σ (.ok (ds, n)) (.ok (ds', n'))
  | stuck (e : Stuck) : EndsAlike σ (.error e) (.error e)

theorem resolve_follows (h : Rearranges v f cs m m') (declared : f.Declared)
    (apart : v ∉ dependencies) (keeps : KeepsSides f.classes cs)
    (done : m.resolve v dependencies domains allowCompositeKeys = .ok (ds, n)) :
    EndsAlike (Key.rearranged v f.classes cs) (.ok (ds, n))
      (m'.resolve v dependencies domains allowCompositeKeys) := by
  obtain ⟨_, notes, run, same⟩ := resolve_run done
  cases same
  have sources : ∀ {name d}, (Scope.of m v dependencies domains).dependencies.get? name = some d →
      d ≠ v := fun found same => apart (same ▸ source_of found)
  obtain ⟨n', notes', run', compare, classes, endpoints⟩ :=
    steps_rearranged (s := .of m v dependencies domains) h declared keeps
      (rearranging_scopes h apart domains) named_of sources run
  have resolved : m'.resolve v dependencies domains allowCompositeKeys =
      .ok (notes'.diagnostics, n') := by
    unfold resolve
    exact congrArg (fun r => r >>= fun p => .ok (p.2.diagnostics, p.1)) run'
  rw [resolved]
  exact .done compare.said classes endpoints (propertyName?_relink
    (headsAlike_of (μ := rearranging _ h.injective) classes))

/-- The order of the classes in a file does not matter, as long as no class moves to the other side
of one that copies from it and holds aliases itself. -/
theorem resolve_any_section_order (h : Rearranges v f cs m m') (declared : f.Declared)
    (apart : v ∉ dependencies) (keeps : KeepsSides f.classes cs) :
    EndsAlike (Key.rearranged v f.classes cs)
      (m.resolve v dependencies domains allowCompositeKeys)
      (m'.resolve v dependencies domains allowCompositeKeys) := by
  cases run : m.resolve v dependencies domains allowCompositeKeys with
  | ok r => exact resolve_follows h declared apart keeps run
  | error e =>
      -- were only the first run stuck, it would have to follow the second one
      cases run' : m'.resolve v dependencies domains allowCompositeKeys with
      | ok r' =>
          have back := resolve_follows h.symm (declared_rearranged declared h.perm) apart
            (keeps.symm h.perm) run'
          rw [run] at back
          cases back
      | error e' =>
          cases e
          cases e'
          exact .stuck _

namespace Chained

def domain : Domain := ⟨"D", some "l", none, none, none, [], [], some ⟨"domain", 3, 1⟩⟩

/-- A class with one property, in a section of its own. -/
def holder (name : String) (line : Nat) (p : Property) : Class :=
  ⟨name, "c", none, none, none, .none, false, none, none, none, none, [], [], [p],
    some ⟨"App", "M"⟩, some ⟨"class", line, 1⟩⟩

def placeholder (line : Nat) (target : String) : Placeholder where
  label := none
  comment := none
  location := ⟨"alias", line, 44⟩
  slot := 0
  reference := ⟨target, line, 59⟩
  included := []
  excluded := []
  leading := ""
  trailing := ""
  required := none
  listDomainReference := none
  listDomain := none

def field (location : Reference) (answer : Option Key) (copied : Option Placeholder) : Property :=
  .regular
    ⟨"n", none, "c", location, false, ⟨"D", 5, 61⟩, answer, false, false, none, copied⟩

def z : Class := holder "Z" 5 (field ⟨"name", 5, 44⟩ none none)

def y : Class := holder "Y" 7 (.alias (placeholder 7 "Z"))

def x : Class := holder "X" 9 (.alias (placeholder 9 "Y"))

/-- A file of these classes, where `X` copies from `Y` and `Y` from `Z`. -/
def file (cs : List Class) : ModelFile where
  name := "A"
  path := "/model/A.tmd"
  module := "M"
  source := ""
  tags := []
  uses := []
  domains := [domain]
  decorators := []
  classes := cs
  endpoints := []
  aliases := []

def loaded (cs : List Class) : Model := ⟨#[.fresh 0 (file cs)]⟩

def known : Table Key := [("D", ⟨0, 0⟩)]

def zResolved : Class := holder "Z" 5 (field ⟨"name", 5, 44⟩ (some ⟨0, 0⟩) none)

def yResolved : Class :=
  holder "Y" 7 (field ⟨"alias", 7, 44⟩ (some ⟨0, 0⟩) (some (placeholder 7 "Z")))

def xResolved : Class :=
  holder "X" 9 (field ⟨"alias", 9, 44⟩ (some ⟨0, 0⟩) (some (placeholder 9 "Y")))

theorem declared_chain : (file [z, y, x]).Declared := by
  have here : ∀ {p : Property}, p.Declared 0 → Declares [p] := fun h => Declares.nil.snoc h
  have fieldDeclared : (field ⟨"name", 5, 44⟩ none none).Declared 0 :=
    ⟨⟨.none, fun a origin => by cases origin⟩, rfl, fun a isAlias => by cases isAlias⟩
  have placeholderDeclared : ∀ line target,
      (Property.alias (placeholder line target)).Declared 0 := fun line target =>
    ⟨(.none : (placeholder line target).Linked .none), rfl, fun a isAlias => by
      cases isAlias
      rfl⟩
  have declares : ∀ c ∈ [z, y, x], Declares c.properties := by
    intro c hc
    simp only [List.mem_cons, List.not_mem_nil, or_false] at hc
    rcases hc with rfl | rfl | rfl
    · exact here fieldDeclared
    · exact here (placeholderDeclared 7 "Z")
    · exact here (placeholderDeclared 9 "Y")
  have parentless : ∀ c ∈ [z, y, x], c.parent = none ∧ c.decorators = [] := by
    decide
  refine ⟨⟨fun d hd => ?_, fun c hc => ?_, fun e he => absurd he List.not_mem_nil⟩, declares,
    fun e he => absurd he List.not_mem_nil⟩
  · cases List.mem_singleton.mp hd
    exact fun c hc => absurd hc List.not_mem_nil
  · obtain ⟨parent, decorators⟩ := parentless c hc
    exact ⟨parent ▸ .none, decorators ▸ .nil, fun p hp => ((declares c hc).forall p hp).1⟩

theorem rearranges_chain {cs : List Class} (perm : cs.Perm [z, y, x]) :
    Rearranges 0 (file [z, y, x]) cs (loaded [z, y, x]) (loaded cs) where
  fresh := rfl
  fresh' := rfl
  others {w} other := by
    rw [version?, version?, loaded, loaded, Array.getElem?_eq_none, Array.getElem?_eq_none]
    all_goals exact Nat.pos_of_ne_zero other
  linked {w ver} other known := by
    rw [version?, loaded, Array.getElem?_eq_none (Nat.pos_of_ne_zero other)] at known
    cases known
  perm := perm
  names := by decide

theorem resolve_chain : (loaded [z, y, x]).resolve 0 [] known false =
    .ok ([], loaded [zResolved, yResolved, xResolved]) := by
  with_unfolding_all rfl

theorem resolve_chain_reversed : (loaded [x, y, z]).resolve 0 [] known false =
    .ok ([], loaded [{ xResolved with properties := [] }, yResolved, zResolved]) := by
  with_unfolding_all rfl

end Chained
open Chained

theorem resolve_any_section_order_chain :
    (file [z, y, x]).Declared ∧
      Rearranges 0 (file [z, y, x]) [y, z, x] (loaded [z, y, x]) (loaded [y, z, x]) ∧
      KeepsSides [z, y, x] [y, z, x] ∧
      EndsAlike (Key.rearranged 0 [z, y, x] [y, z, x])
        ((loaded [z, y, x]).resolve 0 [] known false)
        ((loaded [y, z, x]).resolve 0 [] known false) :=
  ⟨declared_chain, rearranges_chain (by decide), by decide,
    resolve_any_section_order (rearranges_chain (by decide)) declared_chain (by decide) (by decide)⟩

/-- Where `X` comes before `Y`, it finds nothing there to copy, as `Y` still holds its alias. -/
theorem section_order_of_chain :
    (file [z, y, x]).Declared ∧
      Rearranges 0 (file [z, y, x]) [x, y, z] (loaded [z, y, x]) (loaded [x, y, z]) ∧
      ¬ EndsAlike (Key.rearranged 0 [z, y, x] [x, y, z])
        ((loaded [z, y, x]).resolve 0 [] known false)
        ((loaded [x, y, z]).resolve 0 [] known false) := by
  refine ⟨declared_chain, rearranges_chain (by decide), ?_⟩
  rw [resolve_chain, resolve_chain_reversed]
  rintro ⟨-, classes, -, -⟩
  exact absurd (classes ⟨0, 2⟩) (by decide)

end DataModel.Model
