import DataModel.Proofs.Resolution.Answers

/-!
Copies of copies. A copy has the name parts of its alias around the name of its source, and of all
else what the alias says, or what the source has. Copied again and again, a property so ends up
between the name parts of all aliases on the way, and for each of its fields the outermost alias
that says something counts. A copy is made where no error is found: every alias is then expanded,
none is left in a class, and no two properties of a class have one name.
-/
namespace DataModel

/-- The list domain that an alias gives its copies, with the reference that names it. -/
def Placeholder.listed? (a : Placeholder) : Option (Option Key × Reference) :=
  match a.listDomain, a.listDomainReference with
  | some k, some r => some (some k, r)
  | _, _ => none

/-- An alias selects the field of a name: it lists the name or, if it lists none, it does not leave
that name out. -/
def Placeholder.Selects (a : Placeholder) (name : String) : Prop :=
  if a.included = [] then ∀ r ∈ a.excluded, r.name ≠ name else ∃ r ∈ a.included, r.name = name

instance (a : Placeholder) (name : String) : Decidable (a.Selects name) :=
  inferInstanceAs (Decidable
    (if a.included = [] then ∀ r ∈ a.excluded, r.name ≠ name else ∃ r ∈ a.included, r.name = name))

namespace Resolution
variable {s : Scope} {missing : List Reference} {m n : Model} {a : Placeholder} {c : Class}

section Composing

/-- A name between the name parts of aliases, those of the first alias outermost. -/
def wrapped (as : List Placeholder) (name : String) : String :=
  String.join (as.map (·.leading)) ++ name ++ String.join (as.reverse.map (·.trailing))

/-- A field of a name as it is copied by several aliases, of which the first one is outermost. -/
def composed (a : Placeholder) (as : List Placeholder) (name : String) : Property → Property
  | .regular p =>
    let listed := ((a :: as).findSome? (·.listed?)).getD (p.domain, p.domainReference)
    .regular { p with
      name := wrapped (a :: as) name
      label := ((a :: as).findSome? (·.label.filter (· != ""))).or p.label
      comment := ((a :: as).findSome? (·.comment.filter (· != ""))).getD p.comment
      location := copyLocation a (wrapped as name)
      primaryKey := false
      unique := false
      required := ((a :: as).findSome? (·.required)).getD p.required
      domain := listed.1
      domainReference := listed.2
      origin := some a }
  | .association p =>
    .association { p with
      givenName := some (wrapped (a :: as) name)
      label := ((a :: as).findSome? (·.label.filter (· != ""))).or p.label
      comment := ((a :: as).findSome? (·.comment.filter (· != ""))).getD p.comment
      location := copyLocation a (wrapped as name)
      primaryKey := false
      required := ((a :: as).findSome? (·.required)).getD p.required
      origin := some a }
  | p => p

@[simp] theorem wrapped_nil (name : String) : wrapped [] name = name := by
  simp [wrapped]

theorem wrapped_cons (a : Placeholder) (as : List Placeholder) (name : String) :
    wrapped (a :: as) name = a.leading ++ wrapped as name ++ a.trailing := by
  simp [wrapped, String.join_append, String.append_assoc]

theorem firstSaid_eq (a b : Option String) : firstSaid a b = (a.filter (· != "")).or b := by
  rcases a with _ | text
  · rfl
  · by_cases empty : text = "" <;> simp [firstSaid, Option.filter, empty]

theorem getD_firstSaid (a : Option String) (text : String) :
    (firstSaid a (some text)).getD text = (a.filter (· != "")).getD text := by
  rw [firstSaid_eq]
  cases a.filter (· != "") <;> rfl

theorem findSome?_cons_or {α β : Type} (f : α → Option β) (x : α) (xs : List α) :
    (x :: xs).findSome? f = (f x).or (xs.findSome? f) := by
  rw [List.findSome?_cons]
  cases f x <;> rfl

theorem copyField_regular (a : Placeholder) (name : String) (location : Reference) (p : Regular) :
    copyField a name location (.regular p) = .regular { p with
      name := a.leading ++ name ++ a.trailing
      label := (a.label.filter (· != "")).or p.label
      comment := (a.comment.filter (· != "")).getD p.comment
      location
      primaryKey := false
      unique := false
      required := a.required.getD p.required
      domain := (a.listed?.getD (p.domain, p.domainReference)).1
      domainReference := (a.listed?.getD (p.domain, p.domainReference)).2
      origin := some a } := by
  rw [copyField, firstSaid_eq, getD_firstSaid, Placeholder.listed?]
  cases a.listDomain <;> cases a.listDomainReference <;> rfl

theorem copyField_association (a : Placeholder) (name : String) (location : Reference)
    (p : Association) :
    copyField a name location (.association p) = .association { p with
      givenName := some (a.leading ++ name ++ a.trailing)
      label := (a.label.filter (· != "")).or p.label
      comment := (a.comment.filter (· != "")).getD p.comment
      location
      primaryKey := false
      required := a.required.getD p.required
      origin := some a } := by
  rw [copyField, firstSaid_eq, getD_firstSaid]

theorem copyField_first (a : Placeholder) (name : String) (p : Property) :
    copyField a name (copyLocation a name) p = composed a [] name p := by
  cases p with
  | regular p =>
      simp only [copyField_regular, composed, wrapped_cons, wrapped_nil,
        List.findSome?_singleton]
  | association p =>
      simp only [copyField_association, composed, wrapped_cons, wrapped_nil,
        List.findSome?_singleton]
  | _ => rfl

/-- A copy of a copy is what one more alias, around all others, makes of the source. -/
theorem copyField_again (a b : Placeholder) (as : List Placeholder) (name : String)
    (p : Property) :
    copyField a (wrapped (b :: as) name) (copyLocation a (wrapped (b :: as) name))
      (composed b as name p) = composed a (b :: as) name p := by
  cases p with
  | regular p =>
      simp only [copyField_regular, composed, wrapped_cons a, findSome?_cons_or _ a,
        Option.or_assoc, Option.getD_or]
  | association p =>
      simp only [copyField_association, composed, wrapped_cons a, findSome?_cons_or _ a,
        Option.or_assoc, Option.getD_or]
  | _ => rfl

/-- A field as it is copied by some aliases, or by none. -/
def copied (as : List Placeholder) (name : String) (p : Property) : Property :=
  match as with
  | [] => p
  | a :: as => composed a as name p

theorem copyField_copied (a : Placeholder) (as : List Placeholder) (name : String)
    (p : Property) :
    copyField a (wrapped as name) (copyLocation a (wrapped as name)) (copied as name p) =
      composed a as name p := by
  cases as with
  | nil =>
      rw [wrapped_nil]
      exact copyField_first a name p
  | cons b as => exact copyField_again a b as name p

theorem copied_field (as : List Placeholder) (name : String) (p : Property) :
    (copied as name p).isField = p.isField := by
  cases as with
  | nil => rfl
  | cons a as => cases p <;> rfl

/-- The name of a copy does not depend on the model. -/
theorem propertyName?_composed (m : Model) (a : Placeholder) (as : List Placeholder)
    (name : String) {p : Property} (field : p.isField = true) :
    m.propertyName? (composed a as name p) = some (wrapped (a :: as) name) := by
  cases p with
  | regular p => rfl
  | association p => rfl
  | composition p => cases field
  | «alias» p => cases field

end Composing

section Selecting
variable {p : Property} {ps : List Property} {name : String}

/-- Where no two properties have one name, a name is that of one property. -/
theorem firstNamed?_of_mem (once : (ps.map m.propertyName?).Nodup) (member : p ∈ ps)
    (named : m.propertyName? p = some name) : firstNamed? m ps name = some p := by
  cases found : firstNamed? m ps name with
  | none => exact absurd (by simp [named]) (List.find?_eq_none.mp found p member)
  | some q =>
      have named' : m.propertyName? q = some name := by simpa using List.find?_some found
      have inside := List.mem_of_find?_eq_some found
      rw [List.inj_on_of_nodup_map once inside member (named'.trans named.symm)]

theorem mem_selectedOf (once : (c.properties.map m.propertyName?).Nodup)
    (member : p ∈ c.properties) (named : m.propertyName? p = some name)
    (selects : a.Selects name) : p ∈ selectedOf m a c := by
  unfold selectedOf
  unfold Placeholder.Selects at selects
  by_cases all : a.included = []
  · rw [if_pos all] at selects
    rw [if_pos (List.isEmpty_iff.mpr all), List.mem_filter, List.all_eq_true]
    refine ⟨member, fun r hr => ?_⟩
    rw [named, bne_iff_ne]
    exact fun same => selects r hr (Option.some.inj same).symm
  · rw [if_neg all] at selects
    obtain ⟨r, hr, rfl⟩ := selects
    rw [if_neg (mt List.isEmpty_iff.mp all), List.mem_filterMap]
    exact ⟨r, hr, firstNamed?_of_mem once member named⟩

theorem exists_of_forall₂ {α β : Type} {R : α → β → Prop} {xs : List α} {ys : List β}
    (h : List.Forall₂ R xs ys) {x : α} (member : x ∈ xs) : ∃ y ∈ ys, R x y := by
  induction h with
  | nil => cases member
  | @cons x' y xs ys first rest ih =>
      rcases List.mem_cons.mp member with rfl | later
      · exact ⟨y, List.mem_cons_self, first⟩
      · obtain ⟨z, hz, related⟩ := ih later
        exact ⟨z, List.mem_cons_of_mem y hz, related⟩

/-- A selected field has its copy among those that its alias is expanded to. -/
theorem ExpandsTo.copy_mem {cs : List Property} (h : ExpandsTo s m a (some cs))
    (target : s.target? m a.reference = some c) (chosen : p ∈ selectedOf m a c)
    (field : p.isField = true) (named : m.propertyName? p = some name) :
    copyField a name (copyLocation a name) p ∈ cs := by
  cases h with
  | copied target' all copies =>
      cases target.symm.trans target'
      obtain ⟨q, hq, copy⟩ := exists_of_forall₂ copies (List.mem_filter.mpr ⟨chosen, field⟩)
      obtain ⟨name', named', same, -⟩ := copy.made
      cases named.symm.trans named'
      exact same ▸ hq

end Selecting

section Expanding

/-- An alias whose class is known and has all names that it lists is expanded. -/
theorem ExpandsTo.isSome {made : Option (List Property)} (h : ExpandsTo s m a made)
    (known : s.Known m) (there : (s.class? a.reference.name).isSome)
    (whole : missed s m a = []) : made.isSome := by
  cases h with
  | unknown missing =>
      obtain ⟨o, offer⟩ := Option.isSome_iff_exists.mp (Option.isSome_map.symm.trans there)
      have found := known offer
      rw [Scope.target?, offer, Option.bind_some] at missing
      rw [missing] at found
      cases found
  | lacking target some' =>
      rw [missed, target] at whole
      exact absurd whole some'
  | copied => rfl

/-- No name has changed by the turn of an alias. -/
theorem Turns.keeps_moment {xs : List (Site × Placeholder)} {ts : List Turn}
    (h : Turns s m xs ts n) : ∀ t ∈ ts, KeepsPlain m t.moment := by
  induction h with
  | done => exact fun t none => absurd none List.not_mem_nil
  | @take m n site a made rest turns expands later ih =>
      refine List.forall_mem_cons.mpr ⟨.refl m, fun t ht => ?_⟩
      cases made with
      | none => exact ih t ht
      | some new => exact (keepsPlain_put site expands.copyOf).trans (ih t ht)

/-- Every turn is that of an alias of the file, once that is bound. -/
theorem Expanded.turn_alias {ts : List Turn} (h : Expanded s m n ts) : ∀ t ∈ ts,
    ∃ x ∈ placeholders m s.self, t.site = x.1 ∧ t.placeholder = x.2.bound s := by
  obtain ⟨n', turns, -⟩ := h.turns
  intro t ht
  have place := List.mem_map_of_mem (f := fun t => (t.site, t.placeholder)) ht
  rw [turns.placeholders] at place
  obtain ⟨x, hx, same⟩ := List.mem_map.mp place
  obtain ⟨site, isAlias⟩ := Prod.mk.inj same
  exact ⟨x, hx, site.symm, isAlias.symm⟩

/-- A class of another file is settled, for no turn is that of one of its aliases. -/
theorem Expanded.settled_apart {before after : List Turn} {t : Turn}
    (h : Expanded s m n (before ++ t :: after)) (home : m.Homed s.self) {k : Key}
    (means : s.class? t.placeholder.reference.name = some k) (apart : k.version ≠ s.self) :
    Settled s t after := by
  intro u hu k' means' site
  cases means.symm.trans means'
  obtain ⟨⟨site', a⟩, hx, here, -⟩ := h.turn_alias u (List.mem_append_right before hu)
  cases here.symm.trans site
  exact apart (home.classes k (mem_placeholders hx).1)

theorem Scope.Known.keep (known : s.Known m) (keeps : KeepsPlain m n) : s.Known n := by
  intro name o offer
  have heads := congrArg Option.isSome (keeps.heads o.key)
  rw [Option.isSome_map, Option.isSome_map, known offer] at heads
  exact heads

end Expanding

section Answers
variable {f : ModelFile} {ds : List Diagnostic} {ts : List Turn} {k : Key}
  (answered : Answered s m f ds n ts) (fresh : m.version? s.self = some (.fresh s.self f))
  (clean : Clean ds) (known : s.Known m)
include answered fresh clean known

/-- Where there is no error, every alias is expanded. -/
theorem Answered.made : ∀ t ∈ ts, ExpandsTo s t.moment t.placeholder t.made ∧ t.made.isSome := by
  obtain ⟨n', turns, -⟩ := answered.expanded.turns
  intro t ht
  have expands := turns.expands t ht
  have looked := answered.told.symm.trans (told_of_clean clean)
  have listed := answered.names.symm.trans (told_of_clean clean)
  obtain ⟨x, hx, -, isAlias⟩ := answered.expanded.turn_alias t ht
  refine ⟨expands, expands.isSome ?_ ?_ ?_⟩
  · exact Scope.Known.keep (known.shape (bound_rebinding fresh).toRebinds.evolves.keepsShape)
      (turns.keeps_moment t ht)
  · simp only [fileLookups, failures_append, List.append_eq_nil_iff] at looked
    have each := List.filterMap_eq_nil_iff.mp looked.2.2.1 _ (List.mem_map_of_mem hx)
    rw [isAlias]
    show (s.class? x.2.reference.name).isSome
    by_contra missing
    simp [Lookup.of, missing] at each
  · exact List.map_eq_nil_iff.mp (List.flatMap_eq_nil_iff.mp listed t ht)

/-- What an own class holds in the end: each of its aliases has a turn, and what it is expanded to
in that turn stands in its place. -/
theorem Answered.class_spread (own : k ∈ m.ownClasses s.self) (found : m.class? k = some c) :
    ∃ given, n.class? k = some { c.bound s m with
        properties := (c.bound s m).properties.flatMap (spread given) } ∧
      ∀ a, .alias a ∈ c.properties → ∃ t ∈ ts, t.placeholder = a.bound s ∧
        ∃ cs, t.made = some cs ∧ spread given (.alias (a.bound s)) = cs := by
  obtain ⟨given, result, same⟩ := answered.expanded.classes k own c found
  obtain ⟨n', turns, -⟩ := answered.expanded.turns
  refine ⟨given, result, fun a member => ?_⟩
  have place : (Site.ofClass k, a) ∈ placeholders m s.self := by
    rw [placeholders_eq]
    refine List.mem_flatMap.mpr ⟨.ofClass k, mem_sites.mpr own, List.mem_map_of_mem ?_⟩
    rw [Site.aliases, found, Option.map_some, Option.getD_some]
    exact List.mem_filterMap.mpr ⟨_, member, rfl⟩
  have place := List.mem_map_of_mem (f := fun x => (x.1, x.2.bound s)) place
  rw [← turns.placeholders] at place
  obtain ⟨t, ht, here⟩ := List.mem_map.mp place
  obtain ⟨site, isAlias⟩ := Prod.mk.inj here
  obtain ⟨-, some'⟩ := answered.made fresh clean known t ht
  obtain ⟨cs, made⟩ := Option.isSome_iff_exists.mp some'
  have gives : given (a.bound s) = some cs := isAlias ▸ (same t ht site).trans made
  refine ⟨t, ht, isAlias, cs, made, ?_⟩
  show (given (a.bound s)).getD [.alias (a.bound s)] = cs
  rw [gives, Option.getD_some]

/-- Where there is no error, no alias is left in a class. -/
theorem Answered.plain (own : k ∈ m.ownClasses s.self) (found : m.class? k = some c) :
    ∃ d, n.class? k = some d ∧ ∀ p ∈ d.properties, p.isAlias = false := by
  obtain ⟨given, result, each⟩ := answered.class_spread fresh clean known own found
  refine ⟨_, result, fun p hp => ?_⟩
  obtain ⟨_, bound, hp⟩ := List.mem_flatMap.mp hp
  obtain ⟨q, hq, rfl⟩ := List.mem_map.mp bound
  cases q with
  | «alias» a =>
      obtain ⟨t, ht, -, cs, made, here⟩ := each a hq
      obtain ⟨expands, -⟩ := answered.made fresh clean known t ht
      rw [made] at expands
      have field := (expands.copyOf p (here ▸ hp)).field
      cases p with
      | «alias» b => cases field
      | _ => rfl
  | _ =>
      cases List.mem_singleton.mp hp
      rfl

/-- A field of a class of another file is copied where an alias of that class selects its name. -/
theorem Answered.copied (own : k ∈ m.ownClasses s.self) (found : m.class? k = some c)
    (member : .alias a ∈ c.properties) {l : Key} (means : s.class? a.reference.name = some l)
    (apart : l.version ≠ s.self) {d : Class} (source : n.class? l = some d)
    (once : (d.properties.map n.propertyName?).Nodup) {p : Property} (inside : p ∈ d.properties)
    (field : p.isField = true) {name : String} (named : n.propertyName? p = some name)
    (selects : a.Selects name) :
    ∃ e, n.class? k = some e ∧
      copyField (a.bound s) name (copyLocation (a.bound s) name) p ∈ e.properties := by
  obtain ⟨given, result, each⟩ := answered.class_spread fresh clean known own found
  obtain ⟨t, ht, isAlias, cs, made, stands⟩ := each a member
  obtain ⟨before, after, split⟩ := List.append_of_mem ht
  have settled : Settled s t after :=
    Expanded.settled_apart (split ▸ answered.expanded) (Model.homed_of_fresh fresh)
      (isAlias ▸ means) apart
  obtain ⟨expands, -⟩ := answered.expanded.settled before t after split settled
  rw [isAlias, made] at expands
  obtain ⟨o, offer, rfl⟩ := Option.map_eq_some_iff.mp means
  have target : s.target? n (a.bound s).reference = some d := by
    rw [Scope.target?, show s.classes.get? (a.bound s).reference.name = some o from offer,
      Option.bind_some, source]
  have chosen := mem_selectedOf once inside named selects
  refine ⟨_, result, List.mem_flatMap.mpr ⟨_, List.mem_map_of_mem member, ?_⟩⟩
  show _ ∈ spread given (.alias (a.bound s))
  rw [stands]
  exact expands.copy_mem target chosen field named

omit known in
/-- Where there is no error, the list domain that an alias names is there. -/
theorem Answered.list_found (declared : f.Declared) (own : k ∈ m.ownClasses s.self)
    (found : m.class? k = some c) (member : .alias a ∈ c.properties) :
    (a.bound s).listDomain.isSome = a.listDomainReference.isSome := by
  have inside := Model.class_of_fresh fresh own found
  rw [Placeholder.bound]
  cases given : a.listDomainReference with
  | none =>
      have unbound : a.listDomain = none := by
        cases bound : a.listDomain with
        | none => rfl
        | some key =>
            have linked : a.Linked .none := (declared.unlinked.classes c inside).properties _ member
            obtain ⟨_, -, ⟨⟩⟩ := linked key bound
      rw [linkOf_none rfl, unbound]
      rfl
  | some r =>
      have looked := answered.told.symm.trans (told_of_clean clean)
      simp only [fileLookups, ModelFile.lookups, failures_append, List.append_eq_nil_iff] at looked
      have lookup : Lookup.of .missingDomain (s.domain? r.name) r ∈
          f.classes.flatMap (Class.propertyLookups s m) := by
        refine List.mem_flatMap.mpr ⟨c, inside, List.mem_flatMap.mpr ⟨_, member, ?_⟩⟩
        simp [Property.lookups, lookupsOf, given]
      have each := List.filterMap_eq_nil_iff.mp looked.2.1.2.2.1 _ lookup
      show (s.domain? r.name).isSome = true
      by_contra missing
      simp [Lookup.of, missing] at each

end Answers

section Checking

/-- The names of properties that are no placeholders. -/
def realNames (m : Model) (ps : List Property) : List (Option String) :=
  (ps.filter (!·.isAlias)).map m.propertyName?

/-- Each property but the placeholders has a name, which is not one of those seen, and no two have
the same. -/
def NewNames (m : Model) (seen : List String) (ps : List Property) : Prop :=
  (realNames m ps).Nodup ∧ ∀ name? ∈ realNames m ps, ∃ name, name? = some name ∧ name ∉ seen

theorem NewNames.cons {seen : List String} {p : Property} {ps : List Property} {name : String}
    (real : p.isAlias = false) (named : m.propertyName? p = some name) (new : name ∉ seen)
    (rest : NewNames m (name :: seen) ps) : NewNames m seen (p :: ps) := by
  have split : realNames m (p :: ps) = some name :: realNames m ps := by
    rw [realNames, List.filter_cons_of_pos (by simp [real]), List.map_cons, named]
    rfl
  rw [NewNames, split, List.nodup_cons, List.forall_mem_cons]
  refine ⟨⟨fun again => ?_, rest.1⟩, ⟨name, rfl, new⟩, fun name? other => ?_⟩
  · obtain ⟨name', same, apart⟩ := rest.2 _ again
    cases same
    exact apart List.mem_cons_self
  · obtain ⟨name', same, apart⟩ := rest.2 name? other
    exact ⟨name', same, fun old => apart (List.mem_cons_of_mem name old)⟩

theorem checkNames_new (className : String) (seen : List String) (ps : List Property) :
    Gives (fun ds _ => Clean ds → NewNames m seen ps) (checkNames s m className seen ps) := by
  induction ps generalizing seen with
  | nil => exact .pure fun _ => ⟨List.nodup_nil, fun _ none => absurd none List.not_mem_nil⟩
  | cons p ps ih =>
      rw [checkNames]
      cases real : p.isAlias with
      | true =>
          rw [if_pos rfl, NewNames, realNames, List.filter_cons_of_neg (by simp [real])]
          exact ih seen
      | false =>
          rw [if_neg (by simp)]
          refine (nameOf_gives m p).bind ?_
          rintro _ name ⟨rfl, named⟩
          split
          · refine (report_error rfl).bind fun ds _ reported => (ih _).mono fun ds' _ _ clean => ?_
            exact absurd (clean_append.mp ((List.nil_append _).symm ▸ clean)).1 reported
          · next new =>
            refine (ih (name :: seen)).mono fun ds' _ rest clean => ?_
            exact (rest clean).cons real named (mt List.contains_iff_mem.mpr new)

/-- No two properties of an own class have one name. -/
def DistinctNames (m : Model) (v : VersionId) : Prop :=
  m.AllClasses (m.ownClasses v) fun c => (realNames m c.properties).Nodup

theorem checkDuplicates_distinct :
    Gives (fun ds _ => Clean ds → DistinctNames m s.self) (checkDuplicates s m) := by
  refine Gives.forM fun k _ => ?_
  cases m.class? k with
  | none => exact .pure fun _ c found => by cases found
  | some c =>
      refine (Gives.mapM (P := fun _ _ => True) (Q := fun _ _ => True) fun p _ =>
        (nameOf_gives m p).mono fun _ _ _ => ⟨trivial, fun _ => trivial⟩).bind fun ds names _ => ?_
      refine (checkNames_new c.name names c.properties).mono fun ds' _ new clean c' found => ?_
      cases found
      exact (new (clean_append.mp clean).2).1

theorem checking_distinct (allowCompositeKeys : Bool) :
    Gives (fun ds _ => Clean ds → DistinctNames m s.self)
      (checking s missing allowCompositeKeys m) := by
  have rest : Gives (fun ds _ => Clean ds → DistinctNames m s.self)
      (do checkDuplicates s m; checkUnusedUses s missing m; checkUsesOrder s missing m) := by
    refine checkDuplicates_distinct.bind fun ds _ distinct => ?_
    refine (checkUnusedUses_gives s _ m).bind fun _ _ _ => ?_
    refine (checkUsesOrder_gives s _ m).mono fun _ _ _ clean => ?_
    exact distinct (clean_append.mp clean).1
  unfold checking
  cases allowCompositeKeys with
  | true => exact rest
  | false =>
      refine (checkKeys_gives s m).bind fun _ _ _ => rest.mono fun _ _ distinct clean => ?_
      exact distinct (clean_append.mp clean).2

theorem steps_distinct {f : ModelFile} (fresh : m.version? s.self = some (.fresh s.self f))
    (allowCompositeKeys : Bool) :
    Gives (fun ds n => Clean ds → DistinctNames n s.self) (steps s allowCompositeKeys m) := by
  rw [steps_eq]
  refine (linking_rebinds (Model.homed_of_fresh fresh)).bind fun ds₁ m₁ _ => ?_
  refine (shareAliases_reports s m₁).bind fun ds₂ m₂ _ => ?_
  refine (checking_distinct allowCompositeKeys).bind fun ds₃ _ distinct => .pure fun clean => ?_
  simp only [clean_append] at clean
  exact distinct clean.2.2.1

end Checking
end Resolution

namespace Model
open Resolution
variable {m n : Model} {v : VersionId} {f : ModelFile} {dependencies : List VersionId}
  {domains : Table Key} {allowCompositeKeys : Bool} {ds : List Diagnostic}
  (fresh : m.version? v = some (.fresh v f)) (declared : f.Declared)
  (done : m.resolve v dependencies domains allowCompositeKeys = .ok (ds, n))
include fresh declared done

theorem resolve_answered : ∃ ts, Answered (.of m v dependencies domains) m f ds n ts :=
  resolve_gives (steps_answered fresh declared allowCompositeKeys) done

/-- Where a file resolves without an error, its own classes hold no alias, and no two properties of
one name. -/
theorem resolve_distinct (clean : Clean ds) :
    n.AllClasses (n.ownClasses v) fun c =>
      (∀ p ∈ c.properties, p.isAlias = false) ∧ (c.properties.map n.propertyName?).Nodup := by
  intro k own d found
  obtain ⟨ts, answered⟩ := resolve_answered fresh declared done
  have own' := (resolve_evolves fresh done).ownClasses own
  obtain ⟨c, before⟩ := Option.isSome_iff_exists.mp ((mem_ownClasses_of_fresh fresh).mp own').2
  obtain ⟨d', found', plain⟩ := answered.plain fresh clean known_of own' before
  cases found.symm.trans found'
  refine ⟨plain, ?_⟩
  have all : d.properties.filter (!·.isAlias) = d.properties := by
    refine List.filter_eq_self.mpr fun p hp => ?_
    rw [plain p hp, Bool.not_false]
  have distinct := resolve_gives (steps_distinct fresh allowCompositeKeys) done clean
  have names : (realNames n d.properties).Nodup := distinct k own d found
  rwa [realNames, all] at names

end Model
end DataModel
