import DataModel.Proofs.Resolution.Codes
import DataModel.Proofs.Resolution.Collapsing
import DataModel.Proofs.Resolution.Meaning
import DataModel.Proofs.Resolution.Naming
import DataModel.Proofs.Resolution.Repeating
import DataModel.Proofs.Resolution.Selecting

/-!
A list of properties through all steps. Its aliases are expanded between those of the lists before
it and those of the lists behind it. Neither touches the list, nor a class that holds no alias, nor
any name; so each of its aliases gets what it selects of its class as that is in the end.
-/
namespace DataModel.Resolution
variable {s : Scope} {m n : Model}

section Sites

/-- The list of properties at a site; a return value is none. -/
def Site.list? (m : Model) : Site → Option (List Property)
  | .ofClass k => (m.class? k).map (·.properties)
  | .ofParams k => (m.endpoint? k).map (·.params)
  | .ofReturn _ => none

/-- Putting copies somewhere changes the properties of at most one class. -/
theorem class?_put (site : Site) (a : Placeholder) (new : List Property) (k : Key) :
    ∃ change, (change = id ∨ change = splice a new) ∧ (site.put n a new).class? k =
      (n.class? k).map fun c => { c with properties := change c.properties } := by
  have same : ∀ o : Option Class, o = o.map fun c => { c with properties := id c.properties } :=
    fun o => by cases o <;> rfl
  cases site with
  | ofClass l =>
      rw [Site.put]
      cases found : n.class? l with
      | none => exact ⟨id, .inl rfl, same _⟩
      | some c =>
          dsimp only
          rw [Model.class?_setClass]
          split
          · next here =>
            subst here
            rw [found]
            exact ⟨splice a new, .inr rfl, rfl⟩
          · exact ⟨id, .inl rfl, same _⟩
  | ofParams l =>
      rw [Site.put]
      cases n.endpoint? l with
      | none => exact ⟨id, .inl rfl, same _⟩
      | some e =>
          dsimp only
          rw [Model.class?_setEndpoint]
          exact ⟨id, .inl rfl, same _⟩
  | ofReturn l =>
      rw [Site.put]
      split
      · rw [Model.class?_setEndpoint]
        exact ⟨id, .inl rfl, same _⟩
      · exact ⟨id, .inl rfl, same _⟩

theorem list?_put_self (site : Site) (a : Placeholder) (new : List Property) :
    site.list? (site.put n a new) = (site.list? n).map (splice a new) := by
  cases site with
  | ofClass k =>
      rw [Site.put, Site.list?, Site.list?]
      cases found : n.class? k with
      | none => simp [found]
      | some c => simp [class?_setClass_found found]
  | ofParams k =>
      rw [Site.put, Site.list?, Site.list?]
      cases found : n.endpoint? k with
      | none => simp [found]
      | some e => simp [endpoint?_setEndpoint_found found]
  | ofReturn k => rfl

theorem list?_put_other {site other : Site} (apart : other ≠ site) (a : Placeholder)
    (new : List Property) : site.list? (other.put n a new) = site.list? n := by
  cases other with
  | ofClass l =>
      rw [Site.put]
      cases n.class? l with
      | none => rfl
      | some c =>
          cases site with
          | ofClass k =>
              have keys : l ≠ k := fun same => apart (congrArg Site.ofClass same)
              simp [Site.list?, Model.class?_setClass, keys]
          | ofParams k => simp [Site.list?, Model.endpoint?_setClass]
          | ofReturn k => rfl
  | ofParams l =>
      rw [Site.put]
      cases n.endpoint? l with
      | none => rfl
      | some e =>
          cases site with
          | ofClass k => simp [Site.list?, Model.class?_setEndpoint]
          | ofParams k =>
              have keys : l ≠ k := fun same => apart (congrArg Site.ofParams same)
              simp [Site.list?, Model.endpoint?_setEndpoint, keys]
          | ofReturn k => rfl
  | ofReturn l =>
      rw [Site.put]
      split
      · next e p found _ =>
        cases site with
        | ofClass k => simp [Site.list?, Model.class?_setEndpoint]
        | ofParams k =>
            rw [Site.list?, Site.list?, Model.endpoint?_setEndpoint]
            split
            · next same =>
              subst same
              rw [found]
              rfl
            · rfl
        | ofReturn k => rfl
      · rfl

/-- The sites of a version, in the order in which they are expanded. -/
def sites (m : Model) (v : VersionId) : List Site :=
  (m.ownClasses v).map .ofClass ++
    (m.ownEndpoints v).flatMap fun k => [.ofParams k, .ofReturn k]

/-- The aliases at a site. -/
def Site.aliases (m : Model) : Site → List Placeholder
  | .ofClass k => (((m.class? k).map (·.properties)).getD []).filterMap Property.alias?
  | .ofParams k => (((m.endpoint? k).map (·.params)).getD []).filterMap Property.alias?
  | .ofReturn k => ((m.endpoint? k).bind (·.returns)).toList.filterMap Property.alias?

theorem mem_sites {v : VersionId} {site : Site} : site ∈ sites m v ↔ site.Own m v := by
  cases site <;> simp [sites, Site.Own]

theorem nodup_sites {v : VersionId} (listed : Listed m v) : (sites m v).Nodup := by
  refine List.nodup_append.mpr ⟨?_, ?_, ?_⟩
  · exact listed.once.map fun _ _ same => Site.ofClass.inj same
  · refine List.nodup_flatMap.mpr ⟨fun k _ => by simp, listed.onceEndpoints.imp fun apart => ?_⟩
    simp [Function.onFun, apart.symm]
  · intro site hc other he same
    obtain ⟨k, -, rfl⟩ := List.mem_map.mp hc
    obtain ⟨l, -, place⟩ := List.mem_flatMap.mp he
    simp [← same] at place

theorem toList_alias (o : Option Property) :
    (o.bind (·.alias?)).toList = o.toList.filterMap Property.alias? := by
  cases o with
  | none => rfl
  | some p => cases isAlias : p.alias? <;> simp [isAlias]

theorem placeholders_eq (m : Model) (v : VersionId) : placeholders m v =
    (sites m v).flatMap fun site => (site.aliases m).map (Prod.mk site) := by
  rw [placeholders, sites, List.flatMap_append, List.flatMap_map, List.flatMap_assoc]
  congr 1
  · exact List.flatMap_congr fun k _ => filterMap_site _ _
  · refine List.flatMap_congr fun k _ => ?_
    rw [List.flatMap_cons, List.flatMap_singleton, Site.aliases, Site.aliases]
    cases m.endpoint? k with
    | none => rfl
    | some e =>
        exact congrArg₂ (· ++ ·) (filterMap_site _ e.params)
          (congrArg (List.map _) (toList_alias e.returns))

theorem Site.aliases_eq {site : Site} {ps : List Property} (held : site.list? m = some ps) :
    site.aliases m = ps.filterMap Property.alias? := by
  cases site with
  | ofClass k => rw [Site.aliases, show (m.class? k).map (·.properties) = some ps from held,
      Option.getD_some]
  | ofParams k => rw [Site.aliases, show (m.endpoint? k).map (·.params) = some ps from held,
      Option.getD_some]
  | ofReturn k => cases held

/-- One of several lists in a row stands between the others. -/
theorem flatMap_split {α β : Type} {xs : List α} (once : xs.Nodup) {a : α} (member : a ∈ xs)
    (g : α → List β) : ∃ before after : List α, xs.flatMap g = before.flatMap g ++ (g a ++ after.flatMap g) ∧
      ∀ b ∈ before ++ after, b ≠ a := by
  obtain ⟨before, after, rfl⟩ := List.append_of_mem member
  refine ⟨before, after, by rw [List.flatMap_append, List.flatMap_cons], ?_⟩
  rintro b hb rfl
  rcases List.mem_append.mp hb with early | late
  · exact notMem_before once rfl early
  · exact notMem_after once rfl late

/-- The placeholders of a list stand together, between those of other lists. -/
theorem placeholders_split {v : VersionId} (listed : Listed m v) {site : Site} (own : site.Own m v)
    {ps : List Property} (held : site.list? m = some ps) :
    ∃ before after, placeholders m v =
        before ++ ((ps.filterMap Property.alias?).map (Prod.mk site) ++ after) ∧
      ∀ x ∈ before ++ after, x.1 ≠ site := by
  obtain ⟨before, after, split, others⟩ := flatMap_split (nodup_sites listed)
    (mem_sites.mpr own) fun site => (site.aliases m).map (Prod.mk site)
  refine ⟨before.flatMap fun site => (site.aliases m).map (Prod.mk site),
    after.flatMap fun site => (site.aliases m).map (Prod.mk site), ?_, fun x hx same => ?_⟩
  · rw [placeholders_eq, split, Site.aliases_eq held]
  · rw [← List.flatMap_append] at hx
    obtain ⟨other, member, place⟩ := List.mem_flatMap.mp hx
    obtain ⟨a, -, rfl⟩ := List.mem_map.mp place
    exact others other member same

end Sites

section Kept

/-- What expanding other lists leaves as it is: the heads of classes, and all of those without an
alias. -/
structure KeepsPlain (m n : Model) : Prop where
  heads : ∀ k, (n.class? k).map (fun c => (c.name, c.primaryKeys)) =
    (m.class? k).map fun c => (c.name, c.primaryKeys)
  plain : ∀ k c, m.class? k = some c → (∀ p ∈ c.properties, p.alias? = none) →
    n.class? k = some c

theorem KeepsPlain.refl (m : Model) : KeepsPlain m m := ⟨fun _ => rfl, fun _ _ found _ => found⟩

theorem KeepsPlain.trans {n' : Model} (h : KeepsPlain m n) (h' : KeepsPlain n n') :
    KeepsPlain m n' :=
  ⟨fun k => (h'.heads k).trans (h.heads k), fun k c found plain =>
    h'.plain k c (h.plain k c found plain) plain⟩

theorem KeepsPlain.of_class? (same : ∀ k, n.class? k = m.class? k) : KeepsPlain m n :=
  ⟨fun k => by rw [same], fun k _ found _ => (same k).trans found⟩

theorem KeepsPlain.names (h : KeepsPlain m n) : n.propertyName? = m.propertyName? :=
  funext (Model.propertyName?_congr h.heads)

/-- A name means the same class, if that holds no alias. -/
theorem KeepsPlain.target? (h : KeepsPlain m n) {r : Reference}
    (plain : ∀ c, s.target? m r = some c → ∀ p ∈ c.properties, p.alias? = none) :
    s.target? n r = s.target? m r := by
  unfold Scope.target? at plain ⊢
  cases offer : s.classes.get? r.name with
  | none => rfl
  | some o =>
      rw [offer] at plain
      simp only [Option.bind_some] at plain ⊢
      cases found : m.class? o.key with
      | none =>
          have heads := h.heads o.key
          rw [found, Option.map_none, Option.map_eq_none_iff] at heads
          exact heads
      | some c => exact h.plain o.key c found (plain c found)

theorem keepsPlain_put (site : Site) {a : Placeholder} {new : List Property}
    (copies : ∀ p ∈ new, CopyOf a p) : KeepsPlain n (site.put n a new) := by
  refine ⟨fun k => ?_, fun k c found plain => ?_⟩
  · obtain ⟨change, which, changed⟩ := class?_put (n := n) site a new k
    rw [changed, Option.map_map]
    refine Option.map_congr fun c _ => ?_
    have keys : (change c.properties).filter (·.isPrimaryKey) = c.primaryKeys := by
      rcases which with rfl | rfl
      · rfl
      · exact splice_primaryKeys copies c.properties
    exact congrArg (Prod.mk c.name) keys
  · obtain ⟨change, which, changed⟩ := class?_put (n := n) site a new k
    have same : change c.properties = c.properties := by
      rcases which with rfl | rfl
      · rfl
      · have apart : ∀ p ∈ c.properties, p.alias? ≠ some a := fun p hp => by
          rw [plain p hp]
          exact nofun
        have whole : splice a new (c.properties ++ []) = c.properties ++ splice a new [] :=
          splice_append_left apart
        rwa [splice, List.append_nil] at whole
    rw [changed, found, Option.map_some, same]

end Kept

section Loops

/-- Expanding the placeholders of other lists touches none of one list. -/
theorem expand_others {site : Site} {xs : List (Site × Placeholder)}
    (others : ∀ x ∈ xs, x.1 ≠ site) :
    Gives (fun ds n' => site.list? n' = site.list? n ∧ KeepsPlain n n' ∧
        ∀ d ∈ ds, ∃ x ∈ xs, d.subject = some (.property (.alias x.2)))
      (xs.foldlM (fun n x => expandAt s x.1 n x.2) n) := by
  refine Gives.foldlM (I := fun _ ds n' => site.list? n' = site.list? n ∧ KeepsPlain n n' ∧
    ∀ d ∈ ds, ∃ x ∈ xs, d.subject = some (.property (.alias x.2))) ?_ ?_
  · exact ⟨rfl, .refl n, fun _ none => absurd none List.not_mem_nil⟩
  · rintro before ⟨other, a⟩ after ds n₁ split ⟨same, keeps, about⟩
    have member : (other, a) ∈ xs := by rw [split]; simp
    refine ((copies_expands a).and (copies_made a)).bind fun ds' new given => ?_
    have about' : ∀ d ∈ ds ++ (ds' ++ []), ∃ x ∈ xs, d.subject = some (.property (.alias x.2)) := by
      rw [List.append_nil]
      exact List.forall_mem_append.mpr ⟨about, fun d hd => ⟨_, member, given.1.2.2 d hd⟩⟩
    cases new with
    | none => exact .pure ⟨same, keeps, about'⟩
    | some ps =>
        refine .pure ⟨?_, keeps.trans (keepsPlain_put other (given.2.1 ps rfl).1), about'⟩
        exact (list?_put_other (others _ member) a ps).trans same

/-- Expanding the placeholders of a list gives each of them what it selects, and reports what its
class lacks. -/
theorem expand_own {site : Site} {ps : List Property} (held : site.list? n = some ps)
    (once : (ps.filterMap Property.alias?).Nodup)
    (plain : ∀ a ∈ ps.filterMap Property.alias?, ∀ c, s.target? n a.reference = some c →
      ∀ p ∈ c.properties, p.alias? = none) :
    Gives (fun ds n' => KeepsPlain n n' ∧ ∃ made,
        site.list? n' = some (ps.flatMap (spread made)) ∧
        (∀ a ∈ ps.filterMap Property.alias?, ExpandsTo s n a (made a)) ∧
        ds.filter (·.code == Code.missingProperty) =
          (ps.filterMap Property.alias?).flatMap (absences s n))
      ((ps.filterMap Property.alias?).foldlM (expandAt s site) n) := by
  refine (Gives.foldlM (I := fun before ds n' => KeepsPlain n n' ∧ ∃ made qs,
    site.list? n' = some qs ∧ Spreads made ps qs ∧ (∀ a ∉ before, made a = none) ∧
    (∀ a ∈ before, ExpandsTo s n a (made a)) ∧
    ds.filter (·.code == Code.missingProperty) = before.flatMap (absences s n)) ?_ ?_).mono ?_
  · exact ⟨.refl n, _, ps, held, .start ps, fun _ _ => rfl,
      fun _ none => absurd none List.not_mem_nil, rfl⟩
  · rintro before a after ds n₁ split ⟨keeps, made, qs, list, spreads, unmade, expands, reported⟩
    have member : a ∈ ps.filterMap Property.alias? := by rw [split]; simp
    have new := notMem_before once split
    have target := keeps.target? (plain a member)
    refine ((copies_expands a).and (copies_made a)).bind fun ds' result given => ?_
    have expanded : ExpandsTo s n a result := given.1.1.congr target.symm keeps.names.symm
    have reported' : (ds ++ (ds' ++ [])).filter (·.code == Code.missingProperty) =
        (before ++ [a]).flatMap (absences s n) := by
      rw [List.append_nil, List.filter_append, reported, given.1.2.1,
        absences_congr target keeps.names, List.flatMap_append, List.flatMap_singleton]
    cases result with
    | none =>
        refine .pure ⟨keeps, made, qs, list, spreads, fun b hb => unmade b fun early =>
          hb (List.mem_append_left _ early), fun b hb => ?_, reported'⟩
        rcases List.mem_append.mp hb with early | here
        · exact expands b early
        · rw [List.mem_singleton.mp here, unmade a new]
          exact expanded
    | some cs =>
        have copies := (given.2.1 cs rfl).1
        refine .pure ⟨keeps.trans (keepsPlain_put site copies),
          Function.update made a (some cs), splice a cs qs, ?_,
          spreads.update once member (unmade a new) copies, ?_, ?_, reported'⟩
        · rw [list?_put_self, list, Option.map_some]
        · intro b hb
          rw [List.mem_append, List.mem_singleton, not_or] at hb
          rw [Function.update_of_ne hb.2]
          exact unmade b hb.1
        · intro b hb
          by_cases here : b = a
          · rw [here, Function.update_self]
            exact expanded
          · rw [List.mem_append, List.mem_singleton] at hb
            rw [Function.update_of_ne here]
            exact expands b (hb.resolve_right here)
  · rintro ds n' ⟨keeps, made, qs, list, spreads, -, expands, reported⟩
    exact ⟨keeps, made, list.trans (congrArg some spreads.whole), expands, reported⟩

end Loops

section Whole

theorem expandAll_spreads {site : Site} {ps : List Property} (listed : Listed m s.self)
    (own : site.Own m s.self) (held : site.list? m = some ps)
    (once : (ps.filterMap Property.alias?).Nodup)
    (plain : ∀ a ∈ ps.filterMap Property.alias?, ∀ c, s.target? m a.reference = some c →
      ∀ p ∈ c.properties, p.alias? = none) :
    Gives (fun ds n => ∃ made before after,
        site.list? n = some (ps.flatMap (spread made)) ∧
        (∀ a ∈ ps.filterMap Property.alias?, ExpandsTo s n a (made a)) ∧
        ds.filter (·.code == Code.missingProperty) =
          before ++ ((ps.filterMap Property.alias?).flatMap (absences s n) ++ after) ∧
        ∀ d ∈ before ++ after, ∃ x ∈ placeholders m s.self, x.1 ≠ site ∧
          d.subject = some (.property (.alias x.2)))
      (expandAll s m) := by
  obtain ⟨before, after, split, others⟩ := placeholders_split listed own held
  have start : expandAll s m =
      (before ++ ((ps.filterMap Property.alias?).map (Prod.mk site) ++ after)).foldlM
        (fun n x => expandAt s x.1 n x.2) m := by
    rw [← split]
    rfl
  rw [start, List.foldlM_append]
  have apart : ∀ {xs : List (Site × Placeholder)}, (∀ x ∈ xs, x ∈ before ++ after) →
      ∀ {ds : List Diagnostic}, (∀ d ∈ ds, ∃ x ∈ xs, d.subject = some (.property (.alias x.2))) →
      ∀ d ∈ ds.filter (·.code == Code.missingProperty), ∃ x ∈ placeholders m s.self, x.1 ≠ site ∧
        d.subject = some (.property (.alias x.2)) := by
    intro xs inside ds about d hd
    obtain ⟨x, hx, subject⟩ := about d (List.mem_filter.mp hd).1
    have whole : x ∈ placeholders m s.self := by
      rw [split]
      rcases List.mem_append.mp (inside x hx) with early | late
      · exact List.mem_append_left _ early
      · exact List.mem_append_right _ (List.mem_append_right _ late)
    exact ⟨x, whole, others x (inside x hx), subject⟩
  refine (expand_others fun x hx => others x (List.mem_append_left _ hx)).bind ?_
  rintro ds₁ n₁ ⟨same₁, keeps₁, about₁⟩
  rw [List.foldlM_append, foldlM_map]
  have target₁ := fun a ha => keeps₁.target? (plain a ha)
  refine (expand_own (same₁.trans held) once fun a ha c found =>
    plain a ha c ((target₁ a ha).symm.trans found)).bind ?_
  rintro ds₂ n₂ ⟨keeps₂, made, list, expands, reported⟩
  refine (expand_others fun x hx => others x (List.mem_append_right _ hx)).mono ?_
  rintro ds₃ n₃ ⟨same₃, keeps₃, about₃⟩
  have keeps := keeps₂.trans keeps₃
  have target : ∀ a ∈ ps.filterMap Property.alias?,
      s.target? n₃ a.reference = s.target? n₁ a.reference :=
    fun a ha => keeps.target? fun c found => plain a ha c ((target₁ a ha).symm.trans found)
  refine ⟨made, ds₁.filter (·.code == Code.missingProperty),
    ds₃.filter (·.code == Code.missingProperty), same₃.trans list,
    fun a ha => (expands a ha).congr (target a ha) keeps.names, ?_, ?_⟩
  · rw [List.filter_append, List.filter_append, reported]
    rw [List.flatMap_congr fun a ha => (absences_congr (target a ha) keeps.names).symm]
  · exact List.forall_mem_append.mpr
      ⟨apart (fun x => List.mem_append_left _) about₁, apart (fun x => List.mem_append_right _) about₃⟩

/-- A stage that cannot miss a property reports no missing one. -/
theorem filter_missingProperty {codes : List Code} {ds : List Diagnostic}
    (reported : ∀ d ∈ ds, d.code ∈ codes) (apart : Code.missingProperty ∉ codes) :
    ds.filter (·.code == Code.missingProperty) = [] := by
  refine List.filter_eq_nil_iff.mpr fun d hd same => apart ?_
  rw [← beq_iff_eq.mp same]
  exact reported d hd

end Whole

section Bound
variable {v : VersionId}

theorem alias_of_unbound {ps qs : List Property}
    (same : qs.map Property.unbound = ps.map Property.unbound) {a : Placeholder}
    (member : a ∈ qs.filterMap Property.alias?) :
    ∃ b ∈ ps.filterMap Property.alias?, a.unbound = b.unbound := by
  have aliases : ∀ ps : List Property, (ps.filterMap Property.alias?).map Placeholder.unbound =
      (ps.map Property.unbound).filterMap Property.alias? := by
    intro ps
    rw [List.filterMap_map, List.map_filterMap]
    exact List.filterMap_congr fun p _ => (Property.alias?_unbound p).symm
  have inside : a.unbound ∈ (ps.filterMap Property.alias?).map Placeholder.unbound := by
    rw [aliases, ← same, ← aliases]
    exact List.mem_map_of_mem member
  obtain ⟨b, hb, unbound⟩ := List.mem_map.mp inside
  exact ⟨b, hb, unbound.symm⟩

theorem Rebound.list? (h : Rebound m n) {site : Site} {ps : List Property}
    (held : site.list? m = some ps) :
    ∃ qs, site.list? n = some qs ∧ qs.map Property.unbound = ps.map Property.unbound := by
  cases site with
  | ofClass k =>
      obtain ⟨c, found, rfl⟩ := Option.map_eq_some_iff.mp held
      have related := h.classes k
      rw [found] at related
      cases bound : n.class? k with
      | none =>
          rw [bound] at related
          cases related
      | some d =>
          rw [bound] at related
          cases related with
          | some same => exact ⟨_, congrArg (Option.map _) bound, congrArg Class.properties same⟩
  | ofParams k =>
      obtain ⟨e, found, rfl⟩ := Option.map_eq_some_iff.mp held
      have related := h.endpoints k
      rw [found] at related
      cases bound : n.endpoint? k with
      | none =>
          rw [bound] at related
          cases related
      | some d =>
          rw [bound] at related
          cases related with
          | some same => exact ⟨_, congrArg (Option.map _) bound, congrArg Endpoint.params same⟩
  | ofReturn k => cases held

/-- Binding puts no alias into a class that a name means. -/
theorem Rebound.plain (h : Rebound m n) {r : Reference}
    (plain : ∀ c, s.target? m r = some c → ∀ p ∈ c.properties, p.alias? = none) :
    ∀ d, s.target? n r = some d → ∀ p ∈ d.properties, p.alias? = none := by
  intro d found p hp
  obtain ⟨o, offer, target⟩ := Option.bind_eq_some_iff.mp found
  obtain ⟨c, before, same⟩ := h.class_before target
  cases isAlias : p.alias? with
  | none => rfl
  | some a =>
      obtain ⟨b, hb, -⟩ := alias_of_unbound (congrArg Class.properties same)
        (List.mem_filterMap.mpr ⟨p, hp, isAlias⟩)
      obtain ⟨q, hq, isAlias'⟩ := List.mem_filterMap.mp hb
      have none := plain c (Option.bind_eq_some_iff.mpr ⟨o, offer, before⟩) q hq
      rw [isAlias'] at none
      cases none

/-- Binding leaves the aliases at their sites. -/
theorem Rebound.aliases (h : Rebound m n) {site : Site} {a : Placeholder}
    (member : a ∈ site.aliases n) : ∃ b ∈ site.aliases m, a.unbound = b.unbound := by
  cases site with
  | ofClass k =>
      cases found : n.class? k with
      | none => simp [Site.aliases, found] at member
      | some d =>
          obtain ⟨c, before, same⟩ := h.class_before found
          rw [Site.aliases, found] at member
          rw [Site.aliases, before]
          exact alias_of_unbound (congrArg Class.properties same) member
  | ofParams k =>
      cases found : n.endpoint? k with
      | none => simp [Site.aliases, found] at member
      | some d =>
          obtain ⟨e, before, same⟩ := h.endpoint_before found
          rw [Site.aliases, found] at member
          rw [Site.aliases, before]
          exact alias_of_unbound (congrArg Endpoint.params same) member
  | ofReturn k =>
      cases found : n.endpoint? k with
      | none => simp [Site.aliases, found] at member
      | some d =>
          obtain ⟨e, before, same⟩ := h.endpoint_before found
          rw [Site.aliases, found] at member
          rw [Site.aliases, before]
          refine alias_of_unbound ?_ member
          rw [← Option.toList_map, ← Option.toList_map]
          exact congrArg Option.toList (congrArg Endpoint.returns same)

theorem Rebinding.placeholders (h : Rebinding v m n) {x : Site × Placeholder}
    (member : x ∈ placeholders n v) :
    ∃ b, (x.1, b) ∈ placeholders m v ∧ x.2.unbound = b.unbound := by
  have same : sites n v = sites m v := by rw [sites, sites, h.ownClasses, h.ownEndpoints]
  rw [placeholders_eq, same] at member
  obtain ⟨site, own, place⟩ := List.mem_flatMap.mp member
  obtain ⟨a, ha, rfl⟩ := List.mem_map.mp place
  obtain ⟨b, hb, unbound⟩ := h.aliases ha
  rw [placeholders_eq]
  exact ⟨b, List.mem_flatMap.mpr ⟨site, own, List.mem_map_of_mem hb⟩, unbound⟩

end Bound

section Steps
variable {f : ModelFile}

/-- An error about an alias of another list than that at a site. -/
def Elsewhere (m : Model) (v : VersionId) (site : Site) (d : Diagnostic) : Prop :=
  ∃ x ∈ placeholders m v, x.1 ≠ site ∧
    ∃ a : Placeholder, a.unbound = x.2.unbound ∧ d.subject = some (.property (.alias a))

/-- What resolving makes of the list at a site: it is bound, each of its aliases is replaced in its
place by the copies that it selects, and the names that its aliases list in vain are reported. -/
structure SpreadOut (s : Scope) (m : Model) (site : Site) (ps : List Property)
    (ds : List Diagnostic) (n : Model) (qs : List Property)
    (made : Placeholder → Option (List Property)) : Prop where
  bound : qs.map Property.unbound = ps.map Property.unbound
  list : site.list? n = some (qs.flatMap (spread made))
  expands : ∀ a ∈ qs.filterMap Property.alias?, ExpandsTo s n a (made a)
  reported : ∃ before after, ds.filter (·.code == Code.missingProperty) =
      before ++ ((qs.filterMap Property.alias?).flatMap (absences s n) ++ after) ∧
    ∀ d ∈ before ++ after, Elsewhere m s.self site d

theorem declares_of_list {site : Site} {ps : List Property}
    (fresh : m.version? s.self = some (.fresh s.self f)) (declared : f.Declared)
    (own : site.Own m s.self) (held : site.list? m = some ps) : Declares ps := by
  cases site with
  | ofClass k =>
      obtain ⟨c, found, rfl⟩ := Option.map_eq_some_iff.mp held
      exact declared.classes c (Model.class_of_fresh fresh own found)
  | ofParams k =>
      obtain ⟨e, found, rfl⟩ := Option.map_eq_some_iff.mp held
      exact (declared.endpoints e (Model.endpoint_of_fresh fresh own found)).1
  | ofReturn k => cases held

theorem SpreadOut.same {n' : Model} {site : Site} {ps qs : List Property} {ds : List Diagnostic}
    {made : Placeholder → Option (List Property)} (h : SpreadOut s m site ps ds n qs made)
    (files : ∀ w, n'.file? w = n.file? w) : SpreadOut s m site ps ds n' qs made := by
  have classes := class?_of_files files
  have endpoints := endpoint?_of_files files
  have target : ∀ r, s.target? n' r = s.target? n r := fun r => by
    simp only [Scope.target?, classes]
  have names := (KeepsPlain.of_class? classes).names
  have list : site.list? n' = site.list? n := by
    cases site with
    | ofClass k => rw [Site.list?, classes, Site.list?]
    | ofParams k => rw [Site.list?, endpoints, Site.list?]
    | ofReturn k => rfl
  refine ⟨h.bound, list.trans h.list, fun a ha => (h.expands a ha).congr (target _) names, ?_⟩
  rw [List.flatMap_congr fun a _ => absences_congr (target a.reference) names]
  exact h.reported

theorem steps_spreads {site : Site} {ps : List Property}
    (fresh : m.version? s.self = some (.fresh s.self f)) (declared : f.Declared)
    (own : site.Own m s.self) (held : site.list? m = some ps)
    (plain : ∀ a ∈ ps.filterMap Property.alias?, ∀ c, s.target? m a.reference = some c →
      ∀ p ∈ c.properties, p.alias? = none) (allowCompositeKeys : Bool) :
    Gives (fun ds n => ∃ qs made, SpreadOut s m site ps ds n qs made)
      (steps s allowCompositeKeys m) := by
  have home := Model.homed_of_fresh fresh
  have declares := declares_of_list fresh declared own held
  rw [steps_eq, linking, collapseAll_undone (undone_of_declared fresh declared), pure_bind]
  simp only [bind_assoc]
  refine ((checkUses_reports m s).bind fun ds₁ _ quiet₁ => ?_)
  refine ((bind_rebinding home).and (bind_reports s m)).bind ?_
  rintro ds₂ m₂ ⟨bound, quiet₂⟩
  obtain ⟨qs, held₂, same⟩ := bound.list? held
  have own₂ : site.Own m₂ s.self := by
    cases site with
    | ofClass k => exact (congrArg (k ∈ ·) bound.ownClasses).mpr own
    | ofParams k => exact (congrArg (k ∈ ·) bound.ownEndpoints).mpr own
    | ofReturn k => cases held
  have listed₂ := (listed_of_fresh fresh).shape bound.toRebinds.evolves.keepsShape
    bound.ownClasses bound.ownEndpoints
  have once : (qs.filterMap Property.alias?).Nodup :=
    nodup_of_slots (slots_of_unbound same ▸ nodup_slots declares)
  refine (expandAll_spreads listed₂ own₂ held₂ once fun a ha => ?_).bind ?_
  · obtain ⟨b, hb, unbound⟩ := alias_of_unbound same ha
    have reference : a.unbound.reference = b.unbound.reference := by rw [unbound]
    rw [show a.reference = b.reference from reference]
    exact bound.toRebound.plain (plain b hb)
  · rintro ds₃ m₃ ⟨made, before, after, list, expands, reported, others⟩
    have spreads : SpreadOut s m site ps ds₃ m₃ qs made := by
      refine ⟨same, list, expands, before, after, reported, fun d hd => ?_⟩
      obtain ⟨x, hx, apart, subject⟩ := others d hd
      obtain ⟨b, hb, unbound⟩ := bound.placeholders hx
      exact ⟨_, hb, apart, x.2, unbound, subject⟩
    refine ((shareAliases_files s m₃).and (shareAliases_reports s m₃)).bind ?_
    rintro ds₄ m₄ ⟨files, quiet₄⟩
    refine (checking_reports s allowCompositeKeys m₄).bind fun ds₅ _ quiet₅ => .pure ?_
    have shared := spreads.same files
    refine ⟨qs, made, shared.bound, shared.list, shared.expands, ?_⟩
    have only : (ds₁ ++ (ds₂ ++ (ds₃ ++ (ds₄ ++ (ds₅ ++ []))))).filter
        (·.code == Code.missingProperty) = ds₃.filter (·.code == Code.missingProperty) := by
      simp only [List.filter_append, filter_missingProperty quiet₁ (by decide),
        filter_missingProperty quiet₂ (by decide), filter_missingProperty quiet₄ (by decide),
        filter_missingProperty quiet₅ (by decide), List.nil_append, List.append_nil]
    rw [only]
    exact shared.reported

end Steps
end DataModel.Resolution

namespace DataModel.Model
open Resolution
variable {m : Model} {v : VersionId} {f : ModelFile} {dependencies : List VersionId}
  {domains : Table Key} {allowCompositeKeys : Bool}

/-- The aliases of a list of a file just loaded, if they copy from classes without an alias. The
list is bound, and then each alias in it is replaced in its place by copies of the fields that it
selects, or stays where it is if its class is not known or lacks a name that it lists, and each
such name is reported once; every other item stays. A class is known that the file declares, or else
one that a dependency provides, and of several the last one. The names that the aliases read all
have an end when resolving does, and it does where no class will lead back to itself. -/
theorem resolve_spreads {site : Site} {ps : List Property}
    (fresh : m.version? v = some (.fresh v f)) (declared : f.Declared) (own : site.Own m v)
    (held : site.list? m = some ps)
    (plain : ∀ a ∈ ps.filterMap Property.alias?, ∀ c,
      (Scope.of m v dependencies domains).target? m a.reference = some c →
      ∀ p ∈ c.properties, p.alias? = none) :
    (Scope.of m v dependencies domains).Sees m v dependencies domains ∧
      ((Scope.of m v dependencies domains).Acyclic m →
        ∃ r, m.resolve v dependencies domains allowCompositeKeys = .ok r) ∧
      ∀ ds n, m.resolve v dependencies domains allowCompositeKeys = .ok (ds, n) →
        ∃ qs made, SpreadOut (.of m v dependencies domains) m site ps ds n qs made := by
  refine ⟨scope_sees m v dependencies domains, fun acyclic => ?_, fun ds n done => ?_⟩
  · obtain ⟨ds, n, done, -⟩ := resolve_of_acyclic fresh declared acyclic
    exact ⟨_, done⟩
  · obtain ⟨n', notes, run, same⟩ := resolve_run done
    cases same
    obtain ⟨ds, added, outcome⟩ := steps_spreads (s := .of m v dependencies domains) fresh declared
      own held plain allowCompositeKeys _ _ _ run
    rw [List.nil_append] at added
    exact added ▸ outcome

namespace Mixing
open Copying

/-- A value of the domain, as it stands in a file. -/
def plain (name : String) : Property :=
  .regular
    ⟨name, none, "c", ⟨"name", 4, 50⟩, false, ⟨"D", 4, 60⟩, none, false, false, none, none⟩

/-- A key of the class that is copied from. -/
def key : Property :=
  .regular
    ⟨"i", none, "c", ⟨"name", 5, 70⟩, true, ⟨"D", 5, 80⟩, some ⟨0, 0⟩, true, true, none, none⟩

def including : Placeholder :=
  { placeholder with slot := 1, included := [⟨"n", 4, 70⟩, ⟨"i", 4, 73⟩], leading := "P" }

def unknown : Placeholder := { placeholder with slot := 2, reference := ⟨"Z", 4, 80⟩ }

def lacking : Placeholder :=
  { placeholder with slot := 3, excluded := [⟨"i", 4, 90⟩, ⟨"q", 4, 93⟩] }

def excluding : Placeholder := { placeholder with slot := 4, excluded := [⟨"n", 4, 99⟩] }

/-- Aliases of all kinds between plain properties. -/
def mixed : List Property :=
  [plain "k", .alias including, .alias unknown, .alias lacking, .alias excluding, plain "l"]

theorem declared_plain (name : String) (slot : Nat) : (plain name).Declared slot := by
  refine ⟨⟨.none, ?_⟩, rfl, ?_⟩
  · rintro _ ⟨⟩
  · rintro _ ⟨⟩

theorem declared_alias {a : Placeholder} (unlisted : a.listDomain = none) :
    (Property.alias a).Declared a.slot := by
  refine ⟨?_, rfl, ?_⟩
  · intro k bound
    rw [unlisted] at bound
    cases bound
  · rintro _ ⟨⟩
    rfl

theorem declared_mixed : (copier mixed).Declared :=
  declared_copying (((((((Declares.nil.snoc (declared_plain "k" 0)).snoc
    (declared_alias (a := including) rfl)).snoc (declared_alias (a := unknown) rfl)).snoc
    (declared_alias (a := lacking) rfl)).snoc (declared_alias (a := excluding) rfl)).snoc
    (declared_plain "l" 5)))

/-- The names in the list once it is resolved, and the names that are missed. -/
theorem resolve_mixed : ((loaded [key, field] mixed).resolve 1 [0] known false).map
    (fun (ds, n) => (((Site.ofClass ⟨1, 0⟩).list? n).map (·.map n.propertyName?),
      (ds.filter (·.code == Code.missingProperty)).map (·.message))) =
    .ok (some (["k", "Pn", "Pi", "Z", "B", "i", "l"].map some),
      ["Property 'q' cannot be found on class 'B'."]) := by
  with_unfolding_all rfl

theorem target_mixed {a : Placeholder} (member : a ∈ mixed.filterMap Property.alias?) {c : Class}
    (target : (Scope.of (loaded [key, field] mixed) 1 [0] known).target?
      (loaded [key, field] mixed) a.reference = some c) : ∀ p ∈ c.properties, p.alias? = none := by
  have names : ∀ a ∈ mixed.filterMap Property.alias?,
      a.reference.name = "B" ∨ a.reference.name = "Z" := by decide
  rw [Scope.target?] at target
  rcases names a member with name | name
  · rw [name, show (Scope.of (loaded [key, field] mixed) 1 [0] known).classes.get? "B" =
      some ⟨⟨0, 0⟩, "A"⟩ from by with_unfolding_all rfl] at target
    cases target
    decide
  · rw [name, show (Scope.of (loaded [key, field] mixed) 1 [0] known).classes.get? "Z" =
      none from by with_unfolding_all rfl] at target
    cases target

end Mixing
open Copying Mixing

/-- The aliases whose class is there and has what they list are replaced by their copies, the others
stay, and the one name that is missed is reported. -/
theorem resolve_spreads_mixed :
    (copier mixed).Declared ∧
      ∃ ds n, (loaded [key, field] mixed).resolve 1 [0] known false = .ok (ds, n) ∧
        ((Site.ofClass ⟨1, 0⟩).list? n).map (·.map n.propertyName?) =
          some (["k", "Pn", "Pi", "Z", "B", "i", "l"].map some) ∧
        (ds.filter (·.code == Code.missingProperty)).map (·.message) =
          ["Property 'q' cannot be found on class 'B'."] ∧
        ∃ qs made, SpreadOut (.of (loaded [key, field] mixed) 1 [0] known)
          (loaded [key, field] mixed) (.ofClass ⟨1, 0⟩) mixed ds n qs made := by
  have whole := resolve_mixed
  cases run : (loaded [key, field] mixed).resolve 1 [0] known false with
  | error e =>
      rw [run] at whole
      cases whole
  | ok r =>
      obtain ⟨ds, n⟩ := r
      rw [run] at whole
      have both := Except.ok.inj whole
      refine ⟨declared_mixed, ds, n, rfl, congrArg Prod.fst both, congrArg Prod.snd both, ?_⟩
      exact (resolve_spreads rfl declared_mixed (List.mem_singleton_self _) rfl
        fun a member c target => target_mixed member target).2.2 ds n run

end DataModel.Model
