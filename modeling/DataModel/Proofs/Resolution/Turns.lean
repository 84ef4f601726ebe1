import DataModel.Proofs.Resolution.LookingUp
import DataModel.Proofs.Resolution.Spreading

/-!
Turns. The aliases of a file are expanded one after the other, each in the model that those before
it left. A turn changes nothing but the place of its alias. So each class, each list of parameters
and each return value ends up with what its own aliases were expanded to, and an alias whose class
has no turn any more was expanded as that class is in the end.
-/
namespace DataModel.Resolution
variable {s : Scope} {m n : Model} {v : VersionId}

section Names

/-- The names listed by an alias that its class does not have, if it is known. -/
def missed (s : Scope) (m : Model) (a : Placeholder) : List Reference :=
  ((s.target? m a.reference).map (absent m a)).getD []

theorem missed_congr {a : Placeholder}
    (target : s.target? n a.reference = s.target? m a.reference)
    (names : n.propertyName? = m.propertyName?) : missed s n a = missed s m a := by
  unfold missed absent firstNamed?
  rw [target, names]

theorem told_filter (c : Code) (ds : List Diagnostic) :
    told [c] (ds.filter (·.code == c)) = told [c] ds := by
  rw [told, told, List.filter_filter]
  congr 1
  refine List.filter_congr fun d _ => ?_
  by_cases same : d.code = c <;> simp [same]

theorem told_reports {f : Finding} (error : f.isError = true) (v : VersionId) (t : Subject)
    (rs : List Reference) :
    told [f.code] (rs.map fun r => f.diagnostic v t (some r)) = rs.map (f.code, ·) := by
  induction rs with
  | nil => rfl
  | cons r rs ih =>
      have split : told [f.code] ([f.diagnostic v t (some r)] ++
          rs.map fun r => f.diagnostic v t (some r)) = _ := told_append
      rw [ih, told_report error (List.mem_singleton_self _)] at split
      exact split

theorem told_absences (a : Placeholder) :
    told [.missingProperty] (absences s m a) =
      (missed s m a).map (Code.missingProperty, ·) := by
  unfold absences missed
  cases s.target? m a.reference with
  | none => rfl
  | some c => exact told_reports (f := .missingProperty c.name) rfl _ _ _

/-- Expanding an alias looks its class up, and tells of the names in it that the class lacks. -/
theorem copies_tells (a : Placeholder) :
    Gives (fun ds made => ExpandsTo s n a made ∧
        told lookupCodes ds =
          failures [.of .missingClass (s.class? a.reference.name) a.reference] ∧
        told [.missingProperty] ds = (missed s n a).map (Code.missingProperty, ·))
      (copies s n a) := by
  have looked : Gives (fun ds _ => told lookupCodes ds =
      failures [.of .missingClass (s.class? a.reference.name) a.reference]) (copies s n a) := by
    unfold copies
    refine Gives.bind (findClass_looksUp _ a.reference) ?_
    rintro ds _ ⟨rfl, first⟩
    have quiet : ∀ ds', told lookupCodes ds' = [] → told lookupCodes (ds ++ ds') =
        failures [.of .missingClass (s.class? a.reference.name) a.reference] := by
      intro ds' none
      rw [told_append, none, List.append_nil, first]
    cases (s.class? a.reference.name).bind n.class? with
    | none => exact .pure (quiet [] rfl)
    | some c =>
        refine (named_gives n c.properties).bind ?_
        rintro _ qs ⟨rfl, -⟩
        refine (select_reports s a c.name qs).bind fun ds' chosen reported => .pure ?_
        rw [List.nil_append, List.append_nil]
        exact quiet ds' (told_other reported (by decide))
  refine ((copies_expands a).and looked).mono fun ds made given => ⟨given.1.1, given.2, ?_⟩
  rw [← told_filter, given.1.2.1, told_absences]

end Names

section Turns

/-- What an alias is given is made for it. -/
theorem ExpandsTo.copyOf {a : Placeholder} {new : List Property}
    (h : ExpandsTo s m a (some new)) : ∀ p ∈ new, CopyOf a p := by
  cases h with
  | copied target all made =>
      intro p hp
      obtain ⟨i, bound, rfl⟩ := List.getElem_of_mem hp
      have copy := made.get (made.length_eq ▸ bound) bound
      obtain ⟨name, -, same, -⟩ := copy.made
      have source := List.get_mem ((selectedOf m a _).filter (·.isField)) ⟨i, made.length_eq ▸ bound⟩
      rw [List.get_eq_getElem] at same
      exact same ▸ copyField_copyOf a name _ (List.mem_filter.mp source).2

/-- A model in which an alias was given what it is expanded to. -/
def Site.give (m : Model) (a : Placeholder) (site : Site) : Option (List Property) → Model
  | none => m
  | some new => site.put m a new

/-- The turn of an alias: the model that it is expanded in, and what it is expanded to. -/
structure Turn where
  moment : Model
  site : Site
  placeholder : Placeholder
  made : Option (List Property)

/-- The turns that placeholders take one after the other, from one model to another. -/
inductive Turns (s : Scope) : Model → List (Site × Placeholder) → List Turn → Model → Prop
  | done {m : Model} : Turns s m [] [] m
  | take {m n : Model} {site : Site} {a : Placeholder} {made : Option (List Property)}
    {rest : List (Site × Placeholder)} {turns : List Turn} (expands : ExpandsTo s m a made)
    (later : Turns s (site.give m a made) rest turns n) :
    Turns s m ((site, a) :: rest) (⟨m, site, a, made⟩ :: turns) n

/-- Expanding placeholders one after the other gives each its turn. -/
theorem foldlM_turns (xs : List (Site × Placeholder)) (m : Model) :
    Gives (fun ds n => ∃ turns, Turns s m xs turns n ∧
        told lookupCodes ds = failures (xs.map fun x =>
          .of .missingClass (s.class? x.2.reference.name) x.2.reference) ∧
        told [.missingProperty] ds = turns.flatMap fun t =>
          (missed s t.moment t.placeholder).map (Code.missingProperty, ·))
      (xs.foldlM (fun n x => expandAt s x.1 n x.2) m) := by
  induction xs generalizing m with
  | nil => exact .pure ⟨[], .done, rfl, rfl⟩
  | cons x xs ih =>
      obtain ⟨site, a⟩ := x
      have step : expandAt s site m a = copies s m a >>= fun made => pure (site.give m a made) := by
        refine bind_congr fun made => ?_
        cases made <;> rfl
      rw [List.foldlM_cons, step, bind_assoc]
      refine (copies_tells a).bind fun ds made given => ?_
      rw [pure_bind]
      refine (ih (site.give m a made)).mono ?_
      rintro ds' n ⟨turns, later, looked, names⟩
      refine ⟨⟨m, site, a, made⟩ :: turns, .take given.1 later, ?_, ?_⟩
      · rw [told_append, given.2.1, looked, List.map_cons, ← failures_append]
        rfl
      · rw [told_append, given.2.2, names, List.flatMap_cons]

end Turns

section Places

/-- Where an alias is given something, no other class changes. -/
theorem class?_give {site : Site} {k : Key} (apart : site ≠ .ofClass k) (a : Placeholder)
    (made : Option (List Property)) : (site.give m a made).class? k = m.class? k := by
  cases made with
  | none => rfl
  | some new =>
      have list : (Site.ofClass k).list? (site.put m a new) = (Site.ofClass k).list? m :=
        list?_put_other apart a new
      obtain ⟨change, -, changed⟩ := class?_put (n := m) site a new k
      rw [Site.give, changed]
      rw [Site.list?, Site.list?, changed, Option.map_map] at list
      cases known : m.class? k with
      | none => rfl
      | some c =>
          rw [known] at list
          exact congrArg (fun ps => some { c with properties := ps }) (Option.some.inj list)

theorem give_hull (site : Site) (a : Placeholder) (made : Option (List Property)) (k : Key) :
    ((site.give m a made).class? k).map (fun c => { c with properties := [] }) =
      (m.class? k).map fun c => { c with properties := [] } := by
  cases made with
  | none => rfl
  | some new =>
      obtain ⟨change, -, changed⟩ := class?_put (n := m) site a new k
      rw [Site.give, changed, Option.map_map]
      rfl

/-- Putting copies somewhere changes of endpoints only what they take and, at its own place, what
they return. -/
theorem endpoint?_put (site : Site) (a : Placeholder) (new : List Property) (k : Key) :
    ∃ (takes : List Property → List Property) (gives : Option Property → Option Property),
      (site ≠ .ofReturn k → gives = id) ∧
      (site.put m a new).endpoint? k = (m.endpoint? k).map fun e =>
        { e with params := takes e.params, returns := gives e.returns } := by
  have same : ∀ o : Option Endpoint,
      o = o.map fun e => { e with params := id e.params, returns := id e.returns } :=
    fun o => by cases o <;> rfl
  cases site with
  | ofClass l =>
      rw [Site.put]
      cases m.class? l with
      | none => exact ⟨id, id, fun _ => rfl, same _⟩
      | some c =>
          dsimp only
          rw [Model.endpoint?_setClass]
          exact ⟨id, id, fun _ => rfl, same _⟩
  | ofParams l =>
      rw [Site.put]
      cases found : m.endpoint? l with
      | none => exact ⟨id, id, fun _ => rfl, same _⟩
      | some e =>
          dsimp only
          rw [Model.endpoint?_setEndpoint]
          split
          · next here =>
            subst here
            rw [found]
            exact ⟨splice a new, id, fun _ => rfl, rfl⟩
          · exact ⟨id, id, fun _ => rfl, same _⟩
  | ofReturn l =>
      rw [Site.put]
      split
      · next e p found _ =>
        rw [Model.endpoint?_setEndpoint]
        split
        · next here =>
          subst here
          rw [found]
          exact ⟨id, fun _ => some p, fun apart => absurd rfl apart, rfl⟩
        · exact ⟨id, id, fun _ => rfl, same _⟩
      · exact ⟨id, id, fun _ => rfl, same _⟩

theorem give_endpoint_hull (site : Site) (a : Placeholder) (made : Option (List Property))
    (k : Key) :
    ((site.give m a made).endpoint? k).map (fun e => { e with params := [], returns := none }) =
      (m.endpoint? k).map fun e => { e with params := [], returns := none } := by
  cases made with
  | none => rfl
  | some new =>
      obtain ⟨takes, gives, -, changed⟩ := endpoint?_put (m := m) site a new k
      rw [Site.give, changed, Option.map_map]
      rfl

theorem list?_give_other {site other : Site} (apart : other ≠ site) (a : Placeholder)
    (made : Option (List Property)) : site.list? (other.give m a made) = site.list? m := by
  cases made with
  | none => rfl
  | some new => exact list?_put_other apart a new

/-- The value that an endpoint returns. -/
def returned? (m : Model) (k : Key) : Option Property := (m.endpoint? k).bind (·.returns)

theorem returned?_give_other {site : Site} {k : Key} (apart : site ≠ .ofReturn k)
    (a : Placeholder) (made : Option (List Property)) :
    returned? (site.give m a made) k = returned? m k := by
  cases made with
  | none => rfl
  | some new =>
      obtain ⟨takes, gives, kept, changed⟩ := endpoint?_put (m := m) site a new k
      rw [Site.give, returned?, changed, kept apart, returned?]
      cases m.endpoint? k <;> rfl

/-- A return value is replaced by the first copy, if there is one. -/
theorem returned?_give {k : Key} {p : Property} (held : returned? m k = some p) (a : Placeholder)
    (made : Option (List Property)) :
    returned? ((Site.ofReturn k).give m a made) k = some ((made.bind List.head?).getD p) := by
  obtain ⟨e, found, -⟩ := Option.bind_eq_some_iff.mp held
  rcases made with _ | _ | ⟨q, rest⟩
  · exact held
  · rw [Site.give, Site.put, found]
    exact held
  · rw [Site.give, Site.put, found]
    dsimp only [List.head?_cons]
    rw [returned?, endpoint?_setEndpoint_found found]
    rfl

end Places

namespace Turns
variable {xs : List (Site × Placeholder)} {turns : List Turn}

/-- Each placeholder has one turn, and they keep their order. -/
theorem placeholders (h : Turns s m xs turns n) :
    turns.map (fun t => (t.site, t.placeholder)) = xs := by
  induction h with
  | done => rfl
  | take expands later ih => rw [List.map_cons, ih]

theorem expands (h : Turns s m xs turns n) :
    ∀ t ∈ turns, ExpandsTo s t.moment t.placeholder t.made := by
  induction h with
  | done => exact fun t ht => absurd ht List.not_mem_nil
  | take expands later ih => exact List.forall_mem_cons.mpr ⟨expands, ih⟩

/-- No turn changes a name. -/
theorem keeps (h : Turns s m xs turns n) : KeepsPlain m n := by
  induction h with
  | done => exact .refl _
  | @take m n site a made rest turns expands later ih =>
      cases made with
      | none => exact ih
      | some new => exact (keepsPlain_put site expands.copyOf).trans ih

theorem class_other {k : Key} (h : Turns s m xs turns n)
    (apart : ∀ x ∈ xs, x.1 ≠ .ofClass k) : n.class? k = m.class? k := by
  induction h with
  | done => rfl
  | take expands later ih =>
      obtain ⟨first, rest⟩ := List.forall_mem_cons.mp apart
      exact (ih rest).trans (class?_give first _ _)

theorem classHulls (h : Turns s m xs turns n) (k : Key) :
    (n.class? k).map (fun c => { c with properties := [] }) =
      (m.class? k).map fun c => { c with properties := [] } := by
  induction h with
  | done => rfl
  | take expands later ih => exact ih.trans (give_hull _ _ _ k)

theorem endpointHulls (h : Turns s m xs turns n) (k : Key) :
    (n.endpoint? k).map (fun e => { e with params := [], returns := none }) =
      (m.endpoint? k).map fun e => { e with params := [], returns := none } := by
  induction h with
  | done => rfl
  | take expands later ih => exact ih.trans (give_endpoint_hull _ _ _ k)

theorem domains (h : Turns s m xs turns n) (k : Key) : n.domain? k = m.domain? k := by
  induction h with
  | done => rfl
  | @take m n site a made rest turns expands later ih =>
      cases made with
      | none => exact ih
      | some new => exact ih.trans (put_domain? site a new k)

/-- A list in which some aliases were given copies, once the others have had their turns. -/
theorem list {site : Site} {ps qs : List Property} {made : Placeholder → Option (List Property)}
    (h : Turns s m xs turns n) (held : site.list? m = some qs) (spreads : Spreads made ps qs)
    (once : (ps.filterMap Property.alias?).Nodup) (onceTurns : xs.Nodup)
    (waiting : ∀ a, (site, a) ∈ xs → a ∈ ps.filterMap Property.alias? ∧ made a = none) :
    ∃ given, site.list? n = some (ps.flatMap (spread given)) ∧
      (∀ t ∈ turns, t.site = site → given t.placeholder = t.made) ∧
      ∀ a, (site, a) ∉ xs → given a = made a := by
  induction h generalizing qs made with
  | done => exact ⟨made, held.trans (congrArg some spreads.whole),
      fun t ht => absurd ht List.not_mem_nil, fun _ _ => rfl⟩
  | @take m n other a result rest turns expands later ih =>
      obtain ⟨new, onceTurns⟩ := List.nodup_cons.mp onceTurns
      by_cases here : other = site
      · subst here
        obtain ⟨member, unmade⟩ := waiting a List.mem_cons_self
        have apart : ∀ b, (other, b) ∈ rest → b ≠ a := by
          rintro b hb rfl
          exact new hb
        have waits := fun b hb => waiting b (List.mem_cons_of_mem (other, a) hb)
        cases result with
        | none =>
            obtain ⟨given, list, same, kept⟩ := ih held spreads onceTurns waits
            refine ⟨given, list, ?_, fun b hb => kept b fun later => hb (.tail _ later)⟩
            exact List.forall_mem_cons.mpr ⟨fun _ => (kept a new).trans unmade, same⟩
        | some cs =>
            have held' : other.list? (other.give m a (some cs)) = some (splice a cs qs) := by
              rw [Site.give, list?_put_self, held, Option.map_some]
            obtain ⟨given, list, same, kept⟩ := ih held'
              (spreads.update once member unmade expands.copyOf) onceTurns fun b hb => by
                rw [Function.update_of_ne (apart b hb)]
                exact waits b hb
            refine ⟨given, list, List.forall_mem_cons.mpr ⟨fun _ => ?_, same⟩, fun b hb => ?_⟩
            · rw [kept a new, Function.update_self]
            · have notHere : b ≠ a := fun same => hb (same ▸ List.mem_cons_self)
              rw [kept b fun later => hb (.tail _ later), Function.update_of_ne notHere]
      · have held' : site.list? (other.give m a result) = some qs :=
          (list?_give_other here a result).trans held
        obtain ⟨given, list, same, kept⟩ := ih held' spreads onceTurns fun b hb =>
          waiting b (.tail _ hb)
        refine ⟨given, list, ?_, fun b hb => kept b fun later => hb (.tail _ later)⟩
        exact List.forall_mem_cons.mpr ⟨fun same => absurd same here, same⟩

theorem returned_other {k : Key} (h : Turns s m xs turns n)
    (apart : ∀ x ∈ xs, x.1 ≠ .ofReturn k) : returned? n k = returned? m k := by
  induction h with
  | done => rfl
  | take expands later ih =>
      obtain ⟨first, rest⟩ := List.forall_mem_cons.mp apart
      exact (ih rest).trans (returned?_give_other first _ _)

/-- A return value that is an alias has one turn. -/
theorem returned {k : Key} {p : Property} (h : Turns s m xs turns n)
    (held : returned? m k = some p) (onceTurns : xs.Nodup)
    (alone : ∀ a, (.ofReturn k, a) ∈ xs → p.alias? = some a) :
    ∃ given, returned? n k = some (((spread given p).head?).getD p) ∧
      ∀ t ∈ turns, t.site = .ofReturn k → given t.placeholder = t.made := by
  induction h with
  | done =>
      refine ⟨fun _ => none, ?_, fun t ht => absurd ht List.not_mem_nil⟩
      rw [held, spread]
      cases p.alias? <;> rfl
  | @take m n other a result rest turns expands later ih =>
      obtain ⟨new, onceTurns⟩ := List.nodup_cons.mp onceTurns
      by_cases here : other = .ofReturn k
      · subst here
        have isAlias := alone a List.mem_cons_self
        have gone : ∀ x ∈ rest, x.1 ≠ .ofReturn k := by
          rintro ⟨_, b⟩ hb rfl
          have same := isAlias.symm.trans (alone b (.tail _ hb))
          cases same
          exact new hb
        refine ⟨fun _ => result, ?_, List.forall_mem_cons.mpr ⟨fun _ => rfl, fun t ht same => ?_⟩⟩
        · rw [returned_other later gone, returned?_give held, spread, isAlias]
          cases result <;> rfl
        · have member := List.mem_map_of_mem (f := fun t => (t.site, t.placeholder)) ht
          rw [later.placeholders] at member
          exact absurd same (gone _ member)
      · have held' := (returned?_give_other here a result).trans held
        obtain ⟨given, value, same⟩ := ih held' onceTurns fun b hb => alone b (.tail _ hb)
        exact ⟨given, value, List.forall_mem_cons.mpr ⟨fun same => absurd same here, same⟩⟩

/-- An alias whose class has no turn any more was expanded as that class is in the end. -/
theorem settled (h : Turns s m xs turns n) {before after : List Turn} {t : Turn}
    (split : turns = before ++ t :: after)
    (last : ∀ u ∈ t :: after, ∀ k, s.class? t.placeholder.reference.name = some k →
      u.site ≠ .ofClass k) :
    s.target? n t.placeholder.reference = s.target? t.moment t.placeholder.reference ∧
      n.propertyName? = t.moment.propertyName? := by
  induction h generalizing before with
  | done => simp at split
  | @take m n site a result rest turns expands later ih =>
      cases before with
      | cons u before =>
          obtain ⟨rfl, inside⟩ := List.cons.inj split
          exact ih inside
      | nil =>
          obtain ⟨rfl, rfl⟩ := List.cons.inj split
          have whole := Turns.take expands later
          refine ⟨?_, whole.keeps.names⟩
          unfold Scope.target?
          refine Option.bind_congr fun o offer => ?_
          refine whole.class_other fun x hx => ?_
          have found : s.class? a.reference.name = some o.key := by rw [Scope.class?, offer]; rfl
          rw [← whole.placeholders] at hx
          obtain ⟨u, hu, rfl⟩ := List.mem_map.mp hx
          exact last u hu o.key found

end Turns

section Whole
variable {turns : List Turn}

theorem aliases_of_mem {site : Site} {a : Placeholder} (member : (site, a) ∈ placeholders m v) :
    a ∈ site.aliases m := by
  rw [placeholders_eq] at member
  obtain ⟨other, -, place⟩ := List.mem_flatMap.mp member
  obtain ⟨b, hb, same⟩ := List.mem_map.mp place
  cases same
  exact hb

/-- Where no list holds an alias twice, no alias stands at one place twice. -/
theorem nodup_placeholders (listed : Listed m v)
    (classes : m.AllClasses (m.ownClasses v) fun c => (slots c.properties).Nodup)
    (params : m.AllEndpoints (m.ownEndpoints v) fun e => (slots e.params).Nodup) :
    (placeholders m v).Nodup := by
  rw [placeholders_eq]
  refine List.nodup_flatMap.mpr ⟨fun site own => ?_, ?_⟩
  · refine List.Nodup.map (fun _ _ same => (Prod.mk.inj same).2) ?_
    cases site with
    | ofClass k =>
        rw [Site.aliases]
        cases found : m.class? k with
        | none => exact List.nodup_nil
        | some c => exact nodup_of_slots (classes k (mem_sites.mp own) c found)
    | ofParams k =>
        rw [Site.aliases]
        cases found : m.endpoint? k with
        | none => exact List.nodup_nil
        | some e => exact nodup_of_slots (params k (mem_sites.mp own) e found)
    | ofReturn k =>
        rw [Site.aliases, ← toList_alias]
        cases ((m.endpoint? k).bind (·.returns)).bind (·.alias?) with
        | none => exact List.nodup_nil
        | some a => exact List.nodup_singleton a
  · refine (nodup_sites listed).imp fun apart x here there => ?_
    obtain ⟨a, -, rfl⟩ := List.mem_map.mp here
    obtain ⟨b, -, same⟩ := List.mem_map.mp there
    exact apart (congrArg Prod.fst same).symm

/-- Expanding the aliases of a file gives each its turn. -/
theorem expandAll_turns (s : Scope) (m : Model) :
    Gives (fun ds n => ∃ turns, Turns s m (placeholders m s.self) turns n ∧
        told lookupCodes ds = failures ((placeholders m s.self).map fun x =>
          .of .missingClass (s.class? x.2.reference.name) x.2.reference) ∧
        told [.missingProperty] ds = turns.flatMap fun t =>
          (missed s t.moment t.placeholder).map (Code.missingProperty, ·))
      (expandAll s m) := foldlM_turns (placeholders m s.self) m

/-- A list ends up with what its aliases were expanded to. -/
theorem Turns.spreads {site : Site} {ps : List Property}
    (h : Turns s m (Resolution.placeholders m v) turns n)
    (once : (Resolution.placeholders m v).Nodup) (held : site.list? m = some ps)
    (onceHere : (ps.filterMap Property.alias?).Nodup) :
    ∃ given, site.list? n = some (ps.flatMap (spread given)) ∧
      ∀ t ∈ turns, t.site = site → given t.placeholder = t.made := by
  obtain ⟨given, list, same, -⟩ := h.list held (.start ps) onceHere once fun a ha =>
    ⟨Site.aliases_eq held ▸ aliases_of_mem ha, rfl⟩
  exact ⟨given, list, same⟩

/-- What the turns of a file's aliases make of a class. -/
theorem Turns.class_eq {k : Key} {c : Class} (h : Turns s m (Resolution.placeholders m v) turns n)
    (once : (Resolution.placeholders m v).Nodup) (found : m.class? k = some c)
    (onceHere : (slots c.properties).Nodup) :
    ∃ given, n.class? k = some { c with properties := c.properties.flatMap (spread given) } ∧
      ∀ t ∈ turns, t.site = .ofClass k → given t.placeholder = t.made := by
  have held : (Site.ofClass k).list? m = some c.properties := by rw [Site.list?, found]; rfl
  obtain ⟨given, list, same⟩ := h.spreads once held (nodup_of_slots onceHere)
  obtain ⟨d, result, properties⟩ := Option.map_eq_some_iff.mp list
  have hulls := h.classHulls k
  rw [result, found] at hulls
  have whole : d = { c with properties := d.properties } :=
    congrArg (fun e : Class => { e with properties := d.properties }) (Option.some.inj hulls)
  exact ⟨given, by rw [result, whole, properties], same⟩

/-- What the turns of a file's aliases make of an endpoint. -/
theorem Turns.endpoint_eq {k : Key} {e : Endpoint}
    (h : Turns s m (Resolution.placeholders m v) turns n)
    (once : (Resolution.placeholders m v).Nodup) (found : m.endpoint? k = some e)
    (onceHere : (slots e.params).Nodup) :
    ∃ taken given, n.endpoint? k = some { e with
        params := e.params.flatMap (spread taken)
        returns := e.returns.map fun p => ((spread given p).head?).getD p } ∧
      (∀ t ∈ turns, t.site = .ofParams k → taken t.placeholder = t.made) ∧
      ∀ t ∈ turns, t.site = .ofReturn k → given t.placeholder = t.made := by
  have held : (Site.ofParams k).list? m = some e.params := by rw [Site.list?, found]; rfl
  obtain ⟨taken, list, sameParams⟩ := h.spreads once held (nodup_of_slots onceHere)
  obtain ⟨d, result, params⟩ := Option.map_eq_some_iff.mp list
  have hulls := h.endpointHulls k
  rw [result, found] at hulls
  have whole : d = { e with params := d.params, returns := d.returns } :=
    congrArg (fun e : Endpoint => { e with params := d.params, returns := d.returns })
      (Option.some.inj hulls)
  have before : returned? m k = e.returns := by rw [returned?, found]; rfl
  have after : returned? n k = d.returns := by rw [returned?, result]; rfl
  have inReturn : ∀ a, (Site.ofReturn k, a) ∈ Resolution.placeholders m v →
      ∃ p, e.returns = some p ∧ p.alias? = some a := by
    intro a ha
    have member := aliases_of_mem ha
    rw [Site.aliases, found, Option.bind_some, List.mem_filterMap] at member
    obtain ⟨p, hp, isAlias⟩ := member
    exact ⟨p, Option.mem_toList.mp hp, isAlias⟩
  cases returns : e.returns with
  | none =>
      have same := h.returned_other fun x hx here => by
        obtain ⟨p, given, -⟩ := inReturn x.2 (here ▸ hx)
        rw [returns] at given
        cases given
      refine ⟨taken, fun _ => none, ?_, sameParams, fun t ht here => ?_⟩
      · rw [result, whole, params, ← after, same, before, returns]
        rfl
      · have member := List.mem_map_of_mem (f := fun t => (t.site, t.placeholder)) ht
        rw [h.placeholders] at member
        obtain ⟨p, given, -⟩ := inReturn t.placeholder (here ▸ member)
        rw [returns] at given
        cases given
  | some p =>
      obtain ⟨given, value, sameReturn⟩ := h.returned (before.trans returns) once fun a ha => by
        obtain ⟨q, given, isAlias⟩ := inReturn a ha
        rw [returns] at given
        cases given
        exact isAlias
      refine ⟨taken, given, ?_, sameParams, sameReturn⟩
      rw [result, whole, params, ← after, value]
      rfl

end Whole
end DataModel.Resolution
