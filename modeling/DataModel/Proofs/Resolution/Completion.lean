import DataModel.Proofs.Resolution.Effect
import DataModel.Proofs.Resolution.Resolve

/-!
What a file is once it is resolved. Copies of complete properties are complete, re-exports come
from files that are complete already, and every name that an alias lists is on offer afterwards.
-/
namespace DataModel.Resolution
variable {s : Scope} {m n : Model}

/-- A key of another file's class in which nothing is left unbound. -/
def Foreign (m : Model) (v : VersionId) (k : Key) : Prop :=
  k.version ≠ v ∧ ∀ c, m.class? k = some c → c.Complete

/-- A scope in which whatever is not the file's own is complete. -/
structure Scope.Ready (s : Scope) (m : Model) : Prop where
  dependencies : ∀ {name d}, s.dependencies.get? name = some d →
    d ≠ s.self ∧ ∀ k ∈ m.classes d, Foreign m s.self k
  classes : ∀ {name o}, s.classes.get? name = some o →
    o.key ∈ m.ownClasses s.self ∨ Foreign m s.self o.key

theorem Foreign.rebinds {v : VersionId} {k : Key} (h : Foreign m v k)
    (step : Model.Rebinds v m n) : Foreign n v k := by
  refine ⟨h.1, fun c found => h.2 c ?_⟩
  rwa [Model.class?_congr (step.others h.1)] at found

theorem Scope.Ready.rebinds (h : s.Ready m) (step : Model.Rebinds s.self m n) : s.Ready n := by
  refine ⟨fun {name d} found => ?_, fun {name o} found => ?_⟩
  · obtain ⟨other, foreign⟩ := h.dependencies found
    refine ⟨other, fun k hk => (foreign k ?_).rebinds step⟩
    rwa [Model.classes, step.others other] at hk
  · rw [step.ownClasses]
    exact (h.classes found).imp_right fun foreign => foreign.rebinds step

section Expansion

theorem collapseAll_gives (home : m.Homed s.self) :
    Gives (fun _ m' => Model.Rebinds s.self m m') (collapseAll s m) := by
  unfold collapseAll
  refine (forOwnClasses_gives home (fun _ (h : True) => h) fun m k c _ _ => ?_).bind
    fun ds m₁ first => ?_
  · exact .pure ⟨rfl, fun _ => id⟩
  have toFirst := first.1.toRebinds
  refine (forOwnEndpoints_gives (toFirst.homed home) (fun _ (h : True) => h) fun m e _ => ?_).mono
    fun ds m₂ second => toFirst.trans second.1.toRebinds
  exact Gives.pure (P := fun ds (e' : Endpoint) => e'.bare = e.bare ∧ (Clean ds → True → True))
    ⟨rfl, fun _ => id⟩

theorem copyField_complete (a : Placeholder) (name : String) (location : Reference) {p : Property}
    (h : p.Complete) : (copyField a name location p).Complete := by
  cases p with
  | regular p =>
      simp only [copyField, Property.Complete]
      split
      · rfl
      · exact h
  | association p => exact h
  | composition p => exact h
  | «alias» p => exact h

theorem named_gives (m : Model) (ps : List Property) :
    Gives (fun ds qs => ds = [] ∧
        List.Forall₂ (fun p q => q.2 = p ∧ m.propertyName? p = some q.1) ps qs)
      (named m ps) := by
  unfold named
  induction ps with
  | nil => exact .pure ⟨rfl, .nil⟩
  | cons p ps ih =>
      rw [List.mapM_cons, bind_assoc]
      refine (nameOf_gives m p).bind ?_
      rintro _ name ⟨rfl, known⟩
      rw [pure_bind]
      refine ih.bind ?_
      rintro _ qs ⟨rfl, all⟩
      exact .pure ⟨rfl, .cons ⟨rfl, known⟩ all⟩

/-- What an alias selects of a class that has all it names. -/
def selection (a : Placeholder) (ps : List (String × Property)) : List (String × Property) :=
  if !a.included.isEmpty then
    a.included.filterMap fun r => (ps.lookup r.name).map fun p => (r.name, p)
  else ps.filter fun (name, _) => !(a.excluded.map (·.name)).contains name

theorem mem_selection {a : Placeholder} {ps : List (String × Property)} {q : String × Property}
    (h : q ∈ selection a ps) : q ∈ ps := by
  unfold selection at h
  split at h
  · obtain ⟨r, -, found⟩ := List.mem_filterMap.mp h
    obtain ⟨p, place, rfl⟩ := Option.map_eq_some_iff.mp found
    exact Table.mem_of_get? place
  · exact (List.mem_filter.mp h).1

/-- An alias gets its selection, unless it is reported. -/
theorem select_gives (a : Placeholder) (className : String) (ps : List (String × Property)) :
    Gives (fun ds qs => (∀ chosen, qs = some chosen → chosen = selection a ps) ∧
        (Clean ds → qs.isSome))
      (select s a className ps) := by
  unfold select
  generalize hm : (a.included ++ a.excluded).filter _ = missing
  have reports : Gives (fun ds _ => Clean ds → missing = [])
      (missing.forM fun r => report s (.missingProperty className) (.property (.alias a)) r) := by
    cases missing with
    | nil => exact .pure fun _ => rfl
    | cons r rest =>
        refine (report_error rfl).bind fun ds _ reported => ?_
        refine (Gives.forM (P := fun _ => True) fun r _ =>
          (report_gives s _ _ _).mono fun _ _ _ _ => trivial).mono fun ds' _ _ clean => ?_
        exact absurd (clean_append.mp clean).1 reported
  refine reports.bind fun ds _ found => ?_
  split
  · next some =>
    refine .pure ⟨?_, fun clean => ?_⟩
    · rintro _ ⟨⟩
    · rw [List.append_nil] at clean
      rw [found clean] at some
      cases some
  · unfold selection
    split
    · exact .pure ⟨by rintro _ ⟨⟩; rfl, fun _ => rfl⟩
    · exact .pure ⟨by rintro _ ⟨⟩; rfl, fun _ => rfl⟩

/-- The copies that an alias makes are made of properties of the class that it names. -/
theorem copies_from (a : Placeholder) :
    Gives (fun _ new => ∀ ps, new = some ps → ∃ o c, s.classes.get? a.reference.name = some o ∧
        n.class? o.key = some c ∧
        ∀ p ∈ ps, ∃ q ∈ c.properties, ∃ name location, p = copyField a name location q)
      (copies s n a) := by
  unfold copies
  refine (findClass_gives s _ a.reference).bind fun ds found given => ?_
  rw [given.1]
  cases offer : s.classes.get? a.reference.name with
  | none => exact .pure fun _ given => by cases given
  | some o =>
      simp only [Option.map_some, Option.bind_some]
      cases target : n.class? o.key with
      | none => exact .pure fun _ given => by cases given
      | some c =>
          refine (named_gives n c.properties).bind fun ds' qs names => ?_
          refine (select_gives a c.name qs).bind fun ds'' chosen selected => .pure ?_
          intro ps made
          obtain ⟨rs, rfl, rfl⟩ := Option.map_eq_some_iff.mp made
          refine ⟨o, c, rfl, target, fun p hp => ?_⟩
          obtain ⟨r, hr, rfl⟩ := List.mem_map.mp hp
          have place := mem_selection (selected.1 rs rfl ▸ (List.mem_filter.mp hr).1)
          obtain ⟨i, bound, rfl⟩ := List.getElem_of_mem place
          have same := (names.2.get (names.2.length_eq ▸ bound) bound).1
          simp only [List.get_eq_getElem] at same
          exact ⟨_, same ▸ List.getElem_mem _, _, _, rfl⟩

/-- Copies of the properties of complete classes are complete. -/
theorem copies_gives (a : Placeholder) :
    Gives (fun _ new =>
        (∀ name o c, s.classes.get? name = some o → n.class? o.key = some c → c.Complete) →
        ∀ ps, new = some ps → ∀ p ∈ ps, p.Complete)
      (copies s n a) := by
  refine (copies_from a).mono fun _ new from' complete ps made p hp => ?_
  obtain ⟨o, c, offer, target, copied⟩ := from' ps made
  obtain ⟨q, hq, name, location, rfl⟩ := copied p hp
  exact copyField_complete a name location ((complete _ o c offer target).properties q hq)

theorem splice_complete {a : Placeholder} {new ps : List Property}
    (hnew : ∀ p ∈ new, p.Complete) (hps : ∀ p ∈ ps, p.Complete) :
    ∀ p ∈ splice a new ps, p.Complete :=
  fun p hp => (mem_splice hp).elim (hnew p) (hps p)

theorem put_rebinds (home : m.Homed s.self) {site : Site} (own : site.Own m s.self)
    (a : Placeholder) (new : List Property) : Model.Rebinds s.self n (site.put n a new) := by
  cases site with
  | ofClass k =>
      rw [Site.put]
      cases found : n.class? k with
      | none => exact .refl _ n
      | some c => exact Model.rebinds_setClass (home.classes k own) found rfl
  | ofParams k =>
      rw [Site.put]
      cases found : n.endpoint? k with
      | none => exact .refl _ n
      | some e => exact Model.rebinds_setEndpoint (home.endpoints k own) found rfl
  | ofReturn k =>
      rw [Site.put]
      cases found : n.endpoint? k with
      | none => exact .refl _ n
      | some e =>
          cases new with
          | nil => exact .refl _ n
          | cons p rest => exact Model.rebinds_setEndpoint (home.endpoints k own) found rfl

theorem put_domain? (site : Site) (a : Placeholder) (new : List Property) (k : Key) :
    (site.put n a new).domain? k = n.domain? k := by
  cases site with
  | ofClass l =>
      rw [Site.put]
      cases n.class? l with
      | none => rfl
      | some c => exact n.domain?_setClass l k _
  | ofParams l =>
      rw [Site.put]
      cases n.endpoint? l with
      | none => rfl
      | some e => exact n.domain?_setEndpoint l k _
  | ofReturn l =>
      rw [Site.put]
      cases n.endpoint? l with
      | none => rfl
      | some e =>
          cases new with
          | nil => rfl
          | cons p rest => exact n.domain?_setEndpoint l k _

/-- Putting complete copies in place keeps complete what was. -/
theorem put_complete {m : Model} {v : VersionId} {site : Site} (own : site.Own m v)
    (a : Placeholder) {new : List Property} (complete : ∀ p ∈ new, p.Complete)
    (classes : n.AllClasses (m.ownClasses v) Class.Complete)
    (endpoints : n.AllEndpoints (m.ownEndpoints v) Endpoint.Complete) :
    (site.put n a new).AllClasses (m.ownClasses v) Class.Complete ∧
      (site.put n a new).AllEndpoints (m.ownEndpoints v) Endpoint.Complete := by
  cases site with
  | ofClass k =>
      rw [Site.put]
      cases found : n.class? k with
      | none => exact ⟨classes, endpoints⟩
      | some c =>
          have old := classes k own c found
          refine ⟨classes.setClass ⟨old.parent, old.decorators,
            splice_complete complete old.properties⟩, ?_⟩
          intro l hl e he
          rw [Model.endpoint?_setClass] at he
          exact endpoints l hl e he
  | ofParams k =>
      rw [Site.put]
      cases found : n.endpoint? k with
      | none => exact ⟨classes, endpoints⟩
      | some e =>
          have old := endpoints k own e found
          refine ⟨?_, endpoints.setEndpoint ⟨splice_complete complete old.params, old.returns⟩⟩
          intro l hl c hc
          rw [Model.class?_setEndpoint] at hc
          exact classes l hl c hc
  | ofReturn k =>
      rw [Site.put]
      cases found : n.endpoint? k with
      | none => exact ⟨classes, endpoints⟩
      | some e =>
          cases new with
          | nil => exact ⟨classes, endpoints⟩
          | cons p rest =>
              have old := endpoints k own e found
              refine ⟨?_, endpoints.setEndpoint ⟨old.params, ?_⟩⟩
              · intro l hl c hc
                exact classes l hl c ((n.class?_setEndpoint k l _).symm.trans hc)
              · rintro _ ⟨⟩
                exact complete p List.mem_cons_self

/-- Expanding a file rebinds it, and keeps it complete if it copies from nothing that is not. -/
theorem expandAll_gives (home : m.Homed s.self) :
    Gives (fun _ n => Model.Rebinds s.self m n ∧ (∀ k, n.domain? k = m.domain? k) ∧
        (s.Ready m → m.AllClasses (m.ownClasses s.self) Class.Complete →
          m.AllEndpoints (m.ownEndpoints s.self) Endpoint.Complete →
          n.AllClasses (m.ownClasses s.self) Class.Complete ∧
          n.AllEndpoints (m.ownEndpoints s.self) Endpoint.Complete))
      (expandAll s m) := by
  unfold expandAll
  refine Gives.foldlM (I := fun _ _ n => Model.Rebinds s.self m n ∧
    (∀ k, n.domain? k = m.domain? k) ∧
    (s.Ready m → m.AllClasses (m.ownClasses s.self) Class.Complete →
      m.AllEndpoints (m.ownEndpoints s.self) Endpoint.Complete →
      n.AllClasses (m.ownClasses s.self) Class.Complete ∧
      n.AllEndpoints (m.ownEndpoints s.self) Endpoint.Complete))
    ⟨.refl _ m, fun _ => rfl, fun _ classes endpoints => ⟨classes, endpoints⟩⟩ ?_
  rintro before ⟨site, a⟩ after ds n split ⟨rebinds, domains, keeps⟩
  have own := (mem_placeholders (by rw [split]; simp : (site, a) ∈ placeholders m s.self)).1
  refine (copies_gives a).bind fun ds' new made => ?_
  cases new with
  | none => exact .pure ⟨rebinds, domains, keeps⟩
  | some ps =>
      refine .pure ⟨rebinds.trans (put_rebinds home own a ps), ?_, ?_⟩
      · exact fun k => (put_domain? site a ps k).trans (domains k)
      · intro ready classes endpoints
        obtain ⟨classes', endpoints'⟩ := keeps ready classes endpoints
        refine put_complete own a (made ?_ ps rfl) classes' endpoints'
        intro name o c offer found
        rcases ready.classes offer with ownClass | foreign
        · exact classes' o.key ownClass c found
        · rw [Model.class?_congr (rebinds.others foreign.1)] at found
          exact foreign.2 c found

end Expansion

section Sharing

/-- A step that puts classes with a property, and endpoints, on offer. -/
structure Shares (P : Key → Prop) (v : VersionId) (m n : Model) : Prop
    extends Model.Evolves v m n where
  files : ∀ w, n.file? w = m.file? w
  classes : ∀ k ∈ n.classes v, k ∈ m.classes v ∨ P k
  offersClass : ∀ {name}, m.OffersClass v name → n.OffersClass v name
  offersEndpoint : ∀ {name}, m.OffersEndpoint v name → n.OffersEndpoint v name

variable {P : Key → Prop} {v : VersionId} {m' : Model}

theorem Shares.refl : Shares P v m m := by
  refine ⟨.refl v m, fun _ => rfl, ?_, id, id⟩
  exact fun k hk => .inl hk

theorem Shares.trans (h : Shares P v m n) (h' : Shares P v n m') : Shares P v m m' := by
  refine ⟨h.toEvolves.trans h'.toEvolves, fun w => (h'.files w).trans (h.files w), ?_,
    fun offers => h'.offersClass (h.offersClass offers),
    fun offers => h'.offersEndpoint (h.offersEndpoint offers)⟩
  intro k hk
  rcases h'.classes k hk with before | new
  · exact h.classes k before
  · exact .inr new

theorem file?_modify_of_same {f : Version → Version} (same : ∀ ver, (f ver).file = ver.file)
    (w : VersionId) : (m.modify v f).file? w = m.file? w := by
  rw [Model.file?, Model.file?, Model.version?_modify]
  split
  · rw [Option.map_map]
    exact congrArg (Option.map · _) (funext same)
  · rfl

theorem class?_of_files (files : ∀ w, n.file? w = m.file? w) (k : Key) :
    n.class? k = m.class? k := by rw [Model.class?, Model.class?, files]

theorem endpoint?_of_files (files : ∀ w, n.file? w = m.file? w) (k : Key) :
    n.endpoint? k = m.endpoint? k := by rw [Model.endpoint?, Model.endpoint?, files]

theorem domain?_of_files (files : ∀ w, n.file? w = m.file? w) (k : Key) :
    n.domain? k = m.domain? k := by rw [Model.domain?, Model.domain?, files]

theorem mem_replaceOrAppend_self {name? : Key → Option String} (k : Key) (ks : List Key) :
    k ∈ replaceOrAppend name? k ks := by
  induction ks with
  | nil => exact List.mem_singleton_self k
  | cons e ks ih =>
      rw [replaceOrAppend]
      split
      · exact List.mem_cons_self
      · exact List.mem_cons_of_mem e ih

/-- No name is lost, since an entry gives way only to one of its own name. -/
theorem name_replaceOrAppend (name? : Key → Option String) {k l : Key} {ks : List Key}
    (h : l ∈ ks) : ∃ l' ∈ replaceOrAppend name? k ks, name? l' = name? l := by
  induction ks with
  | nil => cases h
  | cons e ks ih =>
      rw [replaceOrAppend]
      split
      · next same =>
        rcases List.mem_cons.mp h with rfl | later
        · exact ⟨k, List.mem_cons_self, (beq_iff_eq.mp same).symm⟩
        · exact ⟨l, List.mem_cons_of_mem k later, rfl⟩
      · rcases List.mem_cons.mp h with rfl | later
        · exact ⟨l, List.mem_cons_self, rfl⟩
        · obtain ⟨l', member, same⟩ := ih later
          exact ⟨l', List.mem_cons_of_mem e member, same⟩

theorem shareClass_shares (has : m.Has v) {k : Key} (allowed : P k) :
    Shares P v m (shareClass m v k) ∧
      ∀ name, className? m k = some name → (shareClass m v k).OffersClass v name := by
  obtain ⟨ver, known⟩ := Model.has_iff.mp has
  have files : ∀ w, (shareClass m v k).file? w = m.file? w := file?_modify_of_same fun _ => rfl
  have classes : (shareClass m v k).classes v = replaceOrAppend (className? m) k ver.classes := by
    rw [Model.classes, shareClass, Model.version?_modify_self, known]
    rfl
  have before : m.classes v = ver.classes := by
    rw [Model.classes, known]
    rfl
  have endpoints : (shareClass m v k).endpoints v = m.endpoints v := by
    rw [Model.endpoints, shareClass, Model.version?_modify_self, Model.endpoints, known]
    rfl
  refine ⟨⟨?_, files, ?_, ?_, ?_⟩, ?_⟩
  · refine Model.evolves_modify (fun _ _ => rfl) ?_ (fun _ _ _ hl => hl)
    intro ver' _ l hl
    obtain ⟨listed, unshared⟩ := List.mem_filter.mp hl
    have fresh : l ∉ addIfNew k ver'.sharedClasses := by simpa using unshared
    rw [mem_addIfNew, not_or] at fresh
    rcases mem_replaceOrAppend listed with rfl | old
    · exact absurd rfl fresh.1
    · exact List.mem_filter.mpr ⟨old, by simpa using fresh.2⟩
  · intro l hl
    rw [classes] at hl
    rw [before]
    rcases mem_replaceOrAppend hl with rfl | old
    · exact .inr allowed
    · exact .inl old
  · rintro name ⟨l, hl, named⟩
    rw [before] at hl
    obtain ⟨l', member, same⟩ := name_replaceOrAppend (className? m) (k := k) hl
    refine ⟨l', classes ▸ member, ?_⟩
    rw [class?_of_files files]
    exact same.trans named
  · rintro name ⟨l, hl, named⟩
    exact ⟨l, endpoints ▸ hl, by rw [endpoint?_of_files files, named]⟩
  · intro name named
    refine ⟨k, classes ▸ mem_replaceOrAppend_self k _, ?_⟩
    rw [class?_of_files files]
    exact named

theorem shareEndpoint_shares (has : m.Has v) (k : Key) :
    Shares P v m (shareEndpoint m v k) ∧
      ∀ name, endpointName? m k = some name → (shareEndpoint m v k).OffersEndpoint v name := by
  obtain ⟨ver, known⟩ := Model.has_iff.mp has
  have files : ∀ w, (shareEndpoint m v k).file? w = m.file? w := file?_modify_of_same fun _ => rfl
  have endpoints : (shareEndpoint m v k).endpoints v =
      replaceOrAppend (endpointName? m) k ver.endpoints := by
    rw [Model.endpoints, shareEndpoint, Model.version?_modify_self, known]
    rfl
  have before : m.endpoints v = ver.endpoints := by
    rw [Model.endpoints, known]
    rfl
  have classes : (shareEndpoint m v k).classes v = m.classes v := by
    rw [Model.classes, shareEndpoint, Model.version?_modify_self, Model.classes, known]
    rfl
  refine ⟨⟨?_, files, ?_, ?_, ?_⟩, ?_⟩
  · refine Model.evolves_modify (fun _ _ => rfl) (fun _ _ _ hl => hl) ?_
    intro ver' _ l hl
    obtain ⟨listed, unshared⟩ := List.mem_filter.mp hl
    have fresh : l ∉ addIfNew k ver'.sharedEndpoints := by simpa using unshared
    rw [mem_addIfNew, not_or] at fresh
    rcases mem_replaceOrAppend listed with rfl | old
    · exact absurd rfl fresh.1
    · exact List.mem_filter.mpr ⟨old, by simpa using fresh.2⟩
  · exact fun l hl => .inl (classes ▸ hl)
  · rintro name ⟨l, hl, named⟩
    exact ⟨l, classes ▸ hl, by rw [class?_of_files files, named]⟩
  · rintro name ⟨l, hl, named⟩
    rw [before] at hl
    obtain ⟨l', member, same⟩ := name_replaceOrAppend (endpointName? m) (k := k) hl
    refine ⟨l', endpoints ▸ member, ?_⟩
    rw [endpoint?_of_files files]
    exact same.trans named
  · intro name named
    refine ⟨k, endpoints ▸ mem_replaceOrAppend_self k _, ?_⟩
    rw [endpoint?_of_files files]
    exact named

/-- Sharing what is listed puts every listed name on offer, unless a name is missing. -/
theorem shareListed_gives (offers : Model → String → Prop) {offered : Model → List Key}
    {name? : Model → Key → Option String} {share : Model → VersionId → Key → Model} (a : FileAlias)
    {missing : Finding} (error : missing.isError = true) (listed : List Reference)
    (kept : ∀ {n n' name}, Shares P s.self n n' → offers n name → offers n' name)
    (shares : ∀ {n k}, Shares P s.self m n → k ∈ offered n →
      Shares P s.self n (share n s.self k) ∧
        ∀ name, name? n k = some name → offers (share n s.self k) name) :
    Gives (fun ds n => Shares P s.self m n ∧ (Clean ds → ∀ r ∈ listed, offers n r.name))
      (shareListed s a missing offered name? share listed m) := by
  unfold shareListed
  refine Gives.foldlM (I := fun (before : List Reference) ds n => Shares P s.self m n ∧
    (Clean ds → ∀ r ∈ before, offers n r.name)) ⟨.refl, fun _ r hr => absurd hr List.not_mem_nil⟩ ?_
  intro before r after ds n split holds
  cases found : (offered n).find? fun k => name? n k == some r.name with
  | none =>
      refine (report_error error).bind fun ds' _ reported => .pure ⟨holds.1, fun clean => ?_⟩
      rw [List.append_nil, clean_append] at clean
      exact absurd clean.2 reported
  | some k =>
      obtain ⟨step, new⟩ := shares holds.1 (List.mem_of_find?_eq_some found)
      have named : name? n k = some r.name := by simpa using List.find?_some found
      refine .pure ⟨holds.1.trans step, fun clean r' hr' => ?_⟩
      rw [List.append_nil] at clean
      rcases List.mem_append.mp hr' with early | here
      · exact kept step (holds.2 clean r' early)
      · exact List.mem_singleton.mp here ▸ new r.name named

/-- What an alias lists is on offer. -/
def AliasDone (n : Model) (v : VersionId) (a : FileAlias) : Prop :=
  (∀ r ∈ a.classes, n.OffersClass v r.name) ∧ ∀ r ∈ a.endpoints, n.OffersEndpoint v r.name

/-- Whatever the used files offer, also after something was shared, has a property. -/
def Sharable (P : Key → Prop) (s : Scope) (m : Model) : Prop :=
  ∀ {n name d}, Shares P s.self m n → s.dependencies.get? name = some d → ∀ k ∈ n.classes d, P k

theorem shareAlias_gives (has : m.Has s.self) (sharable : Sharable P s m) (a : FileAlias) :
    Gives (fun ds n => Shares P s.self m n ∧ (Clean ds → AliasDone n s.self a))
      (shareAlias s m a) := by
  unfold shareAlias
  cases found : s.dependencies.get? a.file.name with
  | none =>
      refine (report_error rfl).bind fun ds _ reported => .pure ⟨.refl, fun clean => ?_⟩
      exact absurd (clean_append.mp clean).1 reported
  | some source =>
      refine (markUsed_gives _).bind fun ds _ _ => ?_
      refine (shareListed_gives (P := P) (fun n name => n.OffersClass s.self name) a rfl
        a.classes (fun step => step.offersClass) fun {n k} sofar hk => ?_).bind
          fun ds' n first => ?_
      · exact shareClass_shares (sofar.toEvolves.keepsShape.has.mpr has) (sharable sofar found k hk)
      · refine (shareListed_gives (P := P) (fun n name => n.OffersEndpoint s.self name)
          a rfl a.endpoints (fun step => step.offersEndpoint) fun {n' k} sofar hk => ?_).mono ?_
        · exact shareEndpoint_shares (sofar.toEvolves.keepsShape.has.mpr (first.1.toEvolves.keepsShape.has.mpr has)) k
        · intro ds'' n' second
          refine ⟨first.1.trans second.1, fun clean => ?_⟩
          simp only [clean_append] at clean
          exact ⟨fun r hr => second.1.offersClass (first.2 clean.2.1 r hr), second.2 clean.2.2⟩

theorem shareAliases_gives (has : m.Has s.self) (sharable : Sharable P s m) :
    Gives (fun ds n => Shares P s.self m n ∧ (Clean ds →
        ∀ f, m.file? s.self = some f → ∀ a ∈ f.aliases, AliasDone n s.self a))
      (shareAliases s m) := by
  unfold shareAliases
  refine (Gives.foldlM (I := fun before ds n => Shares P s.self m n ∧
    (Clean ds → ∀ a ∈ before, AliasDone n s.self a)) ?_ ?_).mono ?_
  · exact ⟨.refl, fun _ a ha => absurd ha List.not_mem_nil⟩
  · intro before a after ds n split holds
    refine (shareAlias_gives (P := P) (holds.1.toEvolves.keepsShape.has.mpr has)
      (fun later => sharable (holds.1.trans later)) a).mono fun ds' n' step => ?_
    refine ⟨holds.1.trans step.1, fun clean a' ha' => ?_⟩
    rw [clean_append] at clean
    rcases List.mem_append.mp ha' with early | here
    · have done := holds.2 clean.1 a' early
      exact ⟨fun r hr => step.1.offersClass (done.1 r hr),
        fun r hr => step.1.offersEndpoint (done.2 r hr)⟩
    · exact List.mem_singleton.mp here ▸ step.2 clean.2
  · intro ds n holds
    refine ⟨holds.1, fun clean f known a ha => holds.2 clean a ?_⟩
    rw [known]
    exact ha

end Sharing

section Checking

theorem checkKeys_gives (s : Scope) (m : Model) : Gives (fun _ _ => True) (checkKeys s m) := by
  unfold checkKeys
  refine (Gives.forM (P := fun _ => True) fun k _ => ?_).mono fun _ _ _ => trivial
  cases m.class? k with
  | none => exact .pure fun _ => trivial
  | some c =>
      dsimp only
      split
      · refine (Gives.mapM (P := fun _ _ => True) (Q := fun _ _ => True) fun p _ =>
          (nameOf_gives m p).mono fun _ _ _ => ⟨trivial, fun _ => trivial⟩).bind fun ds names _ => ?_
        exact (report_gives s _ _ _).mono fun _ _ _ _ => trivial
      · exact .pure fun _ => trivial

theorem checkNames_gives (s : Scope) (m : Model) (className : String) (seen : List String)
    (ps : List Property) : Gives (fun _ _ => True) (checkNames s m className seen ps) := by
  induction ps generalizing seen with
  | nil => exact .pure trivial
  | cons p ps ih =>
      rw [checkNames]
      split
      · exact ih seen
      · refine (nameOf_gives m p).bind fun ds name _ => ?_
        split
        · exact (report_gives s _ _ _).bind fun _ _ _ => ih _
        · exact ih _

theorem checkDuplicates_gives (s : Scope) (m : Model) :
    Gives (fun _ _ => True) (checkDuplicates s m) := by
  unfold checkDuplicates
  refine (Gives.forM (P := fun _ => True) fun k _ => ?_).mono fun _ _ _ => trivial
  cases m.class? k with
  | none => exact .pure fun _ => trivial
  | some c =>
      refine (Gives.mapM (P := fun _ _ => True) (Q := fun _ _ => True) fun p _ =>
        (nameOf_gives m p).mono fun _ _ _ => ⟨trivial, fun _ => trivial⟩).bind fun ds names _ => ?_
      exact (checkNames_gives s m c.name names c.properties).mono fun _ _ _ _ => trivial

theorem checkUnusedUses_gives (s : Scope) (missing : List Reference) (m : Model) :
    Gives (fun _ _ => True) (checkUnusedUses s missing m) := by
  unfold checkUnusedUses
  refine get_gives.bind fun ds n _ => ?_
  refine (Gives.forM (P := fun _ => True) fun use _ => ?_).mono fun _ _ _ => trivial
  split
  · exact (report_gives s _ _ _).mono fun _ _ _ _ => trivial
  · exact .pure fun _ => trivial

theorem checkUsesOrder_gives (s : Scope) (missing : List Reference) (m : Model) :
    Gives (fun _ _ => True) (checkUsesOrder s missing m) := by
  unfold checkUsesOrder
  refine (Gives.forM (P := fun _ => True) fun p _ => ?_).mono fun _ _ _ => trivial
  obtain ⟨use, wanted⟩ := p
  dsimp only
  split
  · exact (report_gives s _ _ _).mono fun _ _ _ _ => trivial
  · exact .pure fun _ => trivial

end Checking

/-- What all steps together do to a file that was just loaded. -/
theorem steps_gives {f : ModelFile} (fresh : m.version? s.self = some (.fresh s.self f))
    (allowCompositeKeys : Bool) :
    Gives (fun ds n => Model.Evolves s.self m n ∧ (Clean ds → s.Ready m →
        n.Complete s.self ∧ ∀ use ∈ m.uses s.self, s.dependencies.has use.name))
      (steps s allowCompositeKeys m) := by
  unfold steps
  have home := Model.homed_of_fresh fresh
  have has := Model.has_of_version? fresh
  refine (checkUses_gives m s).bind fun ds₁ _ uses => ?_
  refine (collapseAll_gives home).bind fun ds₂ m₂ toSecond => ?_
  refine (bind_gives (toSecond.homed home)).bind fun ds₃ m₃ bound => ?_
  have toThird := toSecond.trans bound.1
  refine (expandAll_gives (toThird.homed home)).bind fun ds₄ m₄ expanded => ?_
  have toFourth := toThird.trans expanded.1
  have sharable : Sharable (fun k => s.Ready m → Foreign m₄ s.self k) s m₄ := by
    intro n name d sofar found k hk ready
    obtain ⟨other, foreign⟩ := (ready.rebinds toFourth).dependencies found
    rw [Model.classes, sofar.toEvolves.others other] at hk
    exact foreign k hk
  refine (shareAliases_gives (toFourth.evolves.keepsShape.has.mpr has) sharable).bind fun ds₅ m₅ shared => ?_
  have outcome : ∀ ds, Clean (ds₁ ++ (ds₂ ++ (ds₃ ++ (ds₄ ++ (ds₅ ++ ds))))) → s.Ready m →
      m₅.Complete s.self ∧ ∀ use ∈ m.uses s.self, s.dependencies.has use.name := by
    intro ds clean ready
    simp only [clean_append] at clean
    obtain ⟨clean₁, -, clean₃, -, clean₅, -⟩ := clean
    obtain ⟨classes, endpoints, domains⟩ := bound.2 clean₃
    rw [toSecond.ownClasses, ← toThird.ownClasses] at classes
    rw [toSecond.ownEndpoints, ← toThird.ownEndpoints] at endpoints
    obtain ⟨classes', endpoints'⟩ := expanded.2.2 (ready.rebinds toThird) classes endpoints
    have class? := class?_of_files shared.1.files
    have endpoint? := endpoint?_of_files shared.1.files
    have done := shared.2 clean₅
    refine ⟨⟨?_, ?_, ?_, ?_, ?_⟩, uses clean₁⟩
    · intro k hk c found
      rw [class?] at found
      rcases shared.1.classes k hk with own | foreign
      · refine classes' k ?_ c found
        rw [toFourth.classes] at own
        rw [toThird.ownClasses, Model.ownClasses_of_fresh fresh]
        exact own
      · exact (foreign ready).2 c found
    · intro k hk e found
      rw [endpoint?] at found
      refine endpoints' k ?_ e found
      rw [← expanded.1.ownEndpoints]
      exact shared.1.toEvolves.ownEndpoints hk
    · intro i d found
      rw [Model.domain?, shared.1.files] at found
      exact domains i d ((expanded.2.1 _).symm.trans found)
    · intro f known a ha
      rw [shared.1.files] at known
      exact (done f known a ha).1
    · intro f known a ha
      rw [shared.1.files] at known
      exact (done f known a ha).2
  have evolves := toFourth.evolves.trans shared.1.toEvolves
  have rest : Gives (fun ds n => Model.Evolves s.self m n ∧
      (Clean (ds₁ ++ (ds₂ ++ (ds₃ ++ (ds₄ ++ (ds₅ ++ ds))))) → s.Ready m →
        n.Complete s.self ∧ ∀ use ∈ m.uses s.self, s.dependencies.has use.name))
      (do
        checkDuplicates s m₅
        checkUnusedUses s (missingUses m s) m₅
        checkUsesOrder s (missingUses m s) m₅
        return m₅) := by
    refine (checkDuplicates_gives s m₅).bind fun _ _ _ => ?_
    refine (checkUnusedUses_gives s _ m₅).bind fun _ _ _ => ?_
    exact (checkUsesOrder_gives s _ m₅).bind fun _ _ _ => .pure ⟨evolves, outcome _⟩
  split
  · refine (checkKeys_gives s m₅).bind fun ds _ _ => rest.mono fun ds' n holds => ?_
    refine ⟨holds.1, fun clean => holds.2 ?_⟩
    simp only [clean_append] at clean ⊢
    tauto
  · exact rest

end DataModel.Resolution

namespace DataModel.Model
open Resolution
variable {m n : Model} {v : VersionId} {f : ModelFile} {dependencies : List VersionId}
  {domains : Table Key} {allowCompositeKeys : Bool} {ds : List Diagnostic}

theorem resolve_run (done : m.resolve v dependencies domains allowCompositeKeys = .ok (ds, n)) :
    ∃ n' notes, (steps (.of m v dependencies domains) allowCompositeKeys m).run ⟨[], []⟩ =
      .ok (n', notes) ∧ (ds, n) = (notes.diagnostics, n') := by
  unfold resolve at done
  dsimp only at done
  generalize (steps _ allowCompositeKeys m).run ⟨[], []⟩ = r at done ⊢
  cases r with
  | error e => cases done
  | ok r =>
      cases done
      exact ⟨_, _, rfl, rfl⟩

/-- What all steps give is so of what a resolution gives. -/
theorem resolve_gives {P : List Diagnostic → Model → Prop}
    (gives : Gives P (steps (.of m v dependencies domains) allowCompositeKeys m))
    (done : m.resolve v dependencies domains allowCompositeKeys = .ok (ds, n)) : P ds n := by
  obtain ⟨n', notes, run, same⟩ := resolve_run done
  cases same
  obtain ⟨ds, added, holds⟩ := gives _ _ _ run
  rw [List.nil_append] at added
  exact added ▸ holds

/-- Resolving a file just loaded changes nothing but what it is bound to. -/
theorem resolve_evolves (fresh : m.version? v = some (.fresh v f))
    (done : m.resolve v dependencies domains allowCompositeKeys = .ok (ds, n)) :
    Evolves v m n :=
  (resolve_gives (steps_gives fresh allowCompositeKeys) done).1

/-- A file that resolves without an error against complete files is complete, and the files that
it uses are all there. -/
theorem resolve_complete (fresh : m.version? v = some (.fresh v f))
    (apart : ∀ d ∈ dependencies, d ≠ v ∧ ∀ k ∈ m.classes d, Foreign m v k)
    (done : m.resolve v dependencies domains allowCompositeKeys = .ok (ds, n)) (clean : Clean ds) :
    n.Complete v ∧ ∀ use ∈ m.uses v, ∃ d ∈ dependencies, m.fileName d = use.name := by
  obtain ⟨-, whole⟩ := resolve_gives (steps_gives fresh allowCompositeKeys) done
  have ready : (Scope.of m v dependencies domains).Ready m := by
    refine ⟨fun {name d} found => ?_, fun {name o} found => ?_⟩
    · obtain ⟨d', member, same⟩ := List.mem_map.mp (Table.mem_of_get?_ofList found)
      cases same
      exact apart d member
    · rcases List.mem_append.mp (Table.mem_of_get?_ofList found) with ofDependency | own
      · obtain ⟨d, hd, offered⟩ := List.mem_flatMap.mp ofDependency
        exact .inr ((apart d hd).2 o.key (mem_offeredClasses offered).1)
      · exact .inl (mem_offeredClasses own).1
  obtain ⟨complete, uses⟩ := whole clean ready
  refine ⟨complete, fun use hu => ?_⟩
  have known := Table.mem_keys_ofList.mp (Table.has_iff.mp (uses use hu))
  rw [List.map_map] at known
  obtain ⟨d, hd, named⟩ := List.mem_map.mp known
  exact ⟨d, hd, named⟩

end DataModel.Model
