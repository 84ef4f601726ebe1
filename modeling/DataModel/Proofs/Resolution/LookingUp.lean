import DataModel.Proofs.Resolution.Meaning
import DataModel.Proofs.Resolution.Placeholders

/-!
Looking names up. Each reference of a file is looked up once; it is bound to what its name means,
and where that is nothing, or not fit to be bound, the reference is reported.
-/
namespace DataModel
namespace Resolution

section Lookups

/-- A reference that is looked up, and what is wrong with it if anything is. -/
structure Lookup where
  reference : Reference
  wrong : Option Code

/-- A reference to what should be there. -/
def Lookup.of {α : Type} (missing : Code) (found : Option α) (r : Reference) : Lookup :=
  ⟨r, if found.isSome then none else some missing⟩

/-- What is to be told of references, in their order. -/
def failures (ls : List Lookup) : List (Code × Reference) :=
  ls.filterMap fun l => l.wrong.map (·, l.reference)

/-- The codes of errors about references, but for the names that aliases of properties list. -/
def lookupCodes : List Code :=
  [.missingFile, .missingClass, .missingDomain, .missingEndpoint, .missingDecorator,
    .associationKey]

/-- What errors of some codes tell of references. -/
def told (codes : List Code) (ds : List Diagnostic) : List (Code × Reference) :=
  (ds.filter fun d => d.isError && codes.contains d.code).filterMap fun d =>
    d.reference.map (d.code, ·)

variable {codes : List Code} {ds ds' : List Diagnostic} {ls ls' : List Lookup}

@[simp] theorem failures_append : failures (ls ++ ls') = failures ls ++ failures ls' :=
  List.filterMap_append

@[simp] theorem told_append : told codes (ds ++ ds') = told codes ds ++ told codes ds' := by
  rw [told, List.filter_append, List.filterMap_append]
  rfl

theorem told_report {f : Finding} (error : f.isError = true) (listed : f.code ∈ codes)
    (v : VersionId) (t : Subject) (r : Reference) :
    told codes [f.diagnostic v t (some r)] = [(f.code, r)] := by
  simp [told, Finding.diagnostic, error, listed]

/-- Diagnostics of other codes tell nothing of references. -/
theorem told_other {others : List Code} (reported : ∀ d ∈ ds, d.code ∈ others)
    (apart : ∀ c ∈ others, c ∉ codes) : told codes ds = [] := by
  rw [told, List.filter_eq_nil_iff.mpr]
  · rfl
  · intro d hd counts
    rw [Bool.and_eq_true] at counts
    exact apart d.code (reported d hd) (List.contains_iff_mem.mp counts.2)

end Lookups

/-- An action with one result, which tells of those references that it looks up in vain. -/
def LooksUp {α : Type} (a : α) (ls : List Lookup) (x : Noting α) : Prop :=
  Gives (fun ds b => b = a ∧ told lookupCodes ds = failures ls) x

namespace LooksUp
variable {α β γ : Type} {x : Noting α} {f : α → Noting β} {a : α} {b : β} {ls ls' : List Lookup}

theorem pure (a : α) : LooksUp a [] (Pure.pure a) := Gives.pure ⟨rfl, rfl⟩

theorem bind (h : LooksUp a ls x) (next : LooksUp b ls' (f a)) :
    LooksUp b (ls ++ ls') (x >>= f) := by
  refine Gives.bind h ?_
  rintro ds _ ⟨rfl, first⟩
  refine Gives.mono next ?_
  rintro ds' _ ⟨rfl, second⟩
  exact ⟨rfl, by rw [told_append, first, second, failures_append]⟩

/-- Only what is to be told counts. -/
theorem congr (h : LooksUp a ls x) (same : failures ls' = failures ls) : LooksUp a ls' x := by
  refine Gives.mono h ?_
  rintro ds _ ⟨rfl, reported⟩
  exact ⟨rfl, reported.trans same.symm⟩

theorem map (h : LooksUp a ls x) (g : α → β) :
    LooksUp (g a) ls (x >>= fun a => Pure.pure (g a)) := by
  have whole := h.bind (f := fun a => Pure.pure (g a)) (pure (g a))
  rwa [List.append_nil] at whole

theorem mapM {g : γ → β} {ls : γ → List Lookup} {f : γ → Noting β} {xs : List γ}
    (each : ∀ c, LooksUp (g c) (ls c) (f c)) :
    LooksUp (xs.map g) (xs.flatMap ls) (xs.mapM f) := by
  induction xs with
  | nil => exact pure []
  | cons c xs ih =>
      rw [List.mapM_cons, List.map_cons, List.flatMap_cons]
      exact (each c).bind (ih.map _)

theorem option {g : γ → β} {ls : γ → List Lookup} {f : γ → Noting β}
    (each : ∀ c, LooksUp (g c) (ls c) (f c)) (o : Option γ) :
    LooksUp (o.map g) (o.toList.flatMap ls) (o.mapM f) := by
  cases o with
  | none => exact pure none
  | some c =>
      rw [Option.mapM_some, map_eq_pure_bind, Option.toList_some, List.flatMap_singleton]
      exact (each c).map _

theorem forM {ls : γ → List Lookup} {f : γ → Noting Unit} {xs : List γ}
    (each : ∀ c, LooksUp () (ls c) (f c)) : LooksUp () (xs.flatMap ls) (xs.forM f) := by
  induction xs with
  | nil => exact pure ()
  | cons c xs ih =>
      rw [List.flatMap_cons]
      exact (each c).bind ih

end LooksUp

section Finding
variable {s : Scope} {m n : Model}

theorem report_looksUp {f : Finding} (error : f.isError = true) (listed : f.code ∈ lookupCodes)
    (s : Scope) (t : Subject) (r : Reference) :
    LooksUp () [⟨r, some f.code⟩] (report s f t r) := by
  refine (report_gives s f t r).mono ?_
  rintro _ _ rfl
  exact ⟨rfl, told_report error listed _ _ _⟩

theorem markUsed_looksUp (file : String) : LooksUp () [] (markUsed file) := by
  refine (markUsed_gives file).mono ?_
  rintro _ _ rfl
  exact ⟨rfl, rfl⟩

theorem findOffer_looksUp {offers : Table Offer} {missing : Finding}
    (error : missing.isError = true) (listed : missing.code ∈ lookupCodes) (t : Subject)
    (r : Reference) :
    LooksUp ((offers.get? r.name).map (·.key))
      [.of missing.code ((offers.get? r.name).map (·.key)) r]
      (findOffer s offers missing t r) := by
  unfold findOffer
  cases offers.get? r.name with
  | none => exact (report_looksUp error listed s t r).map fun _ => none
  | some o => exact (markUsed_looksUp o.file).bind (.pure (some o.key))

theorem findClass_looksUp (t : Subject) (r : Reference) :
    LooksUp (s.class? r.name) [.of .missingClass (s.class? r.name) r] (findClass s t r) :=
  findOffer_looksUp rfl (by decide) t r

theorem findDecorator_looksUp (t : Subject) (r : Reference) :
    LooksUp (s.decorator? r.name) [.of .missingDecorator (s.decorator? r.name) r]
      (findDecorator s t r) :=
  findOffer_looksUp rfl (by decide) t r

theorem findDomain_looksUp (n : Model) (t : Subject) (r : Reference) :
    LooksUp (s.domain? r.name) [.of .missingDomain (s.domain? r.name) r]
      (findDomain n s t r) := by
  unfold findDomain Scope.domain?
  cases s.domains.get? r.name with
  | none => exact (report_looksUp (f := .missingDomain) rfl (by decide) s t r).map fun _ => none
  | some k => exact (markUsed_looksUp _).bind (.pure (some k))

end Finding

section Meanings

/-- The link of a reference that may not be there; without it a link stays. -/
def linkOf (old : Option Key) (r : Option Reference) (look : String → Option Key) : Option Key :=
  match r with
  | none => old
  | some r => look r.name

theorem linkOf_none {old : Option Key} {r : Option Reference} (none : r = none)
    (look : String → Option Key) : linkOf old r look = old := by
  rw [none, linkOf]

theorem linkOf_some {old : Option Key} {o : Option Reference} {r : Reference} (some : o = some r)
    (look : String → Option Key) : linkOf old o look = look r.name := by
  rw [some, linkOf]

/-- The lookup of a reference that may not be there. -/
def lookupsOf (missing : Code) (r : Option Reference) (look : String → Option Key) : List Lookup :=
  r.toList.map fun r => .of missing (look r.name) r

theorem lookupsOf_none {missing : Code} {r : Option Reference} (none : r = none)
    (look : String → Option Key) : lookupsOf missing r look = [] := by
  rw [none]
  rfl

theorem lookupsOf_some {missing : Code} {o : Option Reference} {r : Reference} (some : o = some r)
    (look : String → Option Key) : lookupsOf missing o look = [.of missing (look r.name) r] := by
  rw [some]
  rfl

/-- A class with exactly one primary key. -/
def oneKey (m : Model) (k : Key) : Bool := (m.class? k).map (·.primaryKeys.length) == some 1

end Meanings
end Resolution

section Bound
open Resolution

/-- A placeholder whose domain for lists is bound as its name means. -/
def Placeholder.bound (s : Scope) (a : Placeholder) : Placeholder :=
  { a with listDomain := linkOf a.listDomain a.listDomainReference s.domain? }

/-- A property whose references are bound as their names mean; an association only to a class with
exactly one primary key. -/
def Property.bound (s : Scope) (m : Model) : Property → Property
  | .regular p => .regular { p with domain := s.domain? p.domainReference.name }
  | .association a =>
    .association { a with target := (s.class? a.reference.name).filter (oneKey m) }
  | .composition c => .composition { c with
      target := s.class? c.reference.name
      domainKind := linkOf c.domainKind c.domainKindReference s.domain? }
  | .alias a => .alias (a.bound s)

/-- The lookups of a property's references. -/
def Property.lookups (s : Scope) (m : Model) : Property → List Lookup
  | .regular p => [.of .missingDomain (s.domain? p.domainReference.name) p.domainReference]
  | .association a => [⟨a.reference,
    match s.class? a.reference.name with
    | none => some .missingClass
    | some k => if oneKey m k then none else some .associationKey⟩]
  | .composition c =>
    .of .missingClass (s.class? c.reference.name) c.reference ::
      lookupsOf .missingDomain c.domainKindReference s.domain?
  | .alias a => lookupsOf .missingDomain a.listDomainReference s.domain?

def Class.boundParent (s : Scope) (c : Class) : Class :=
  { c with parent := linkOf c.parent c.parentReference s.class? }

def Class.boundDecorators (s : Scope) (c : Class) : Class :=
  { c with decorators := c.decoratorReferences.filterMap (s.decorator? ·.name) }

def Class.boundProperties (s : Scope) (m : Model) (c : Class) : Class :=
  { c with properties := c.properties.map (Property.bound s m) }

/-- A class whose references are bound as their names mean. -/
def Class.bound (s : Scope) (m : Model) (c : Class) : Class :=
  ((c.boundParent s).boundDecorators s).boundProperties s m

def Endpoint.bound (s : Scope) (m : Model) (e : Endpoint) : Endpoint :=
  { e with params := e.params.map (Property.bound s m), returns := e.returns.map (Property.bound s m) }

def Converter.bound (s : Scope) (c : Converter) : Converter :=
  { c with targets := c.targetReferences.filterMap (s.domain? ·.name) }

def Domain.bound (s : Scope) (d : Domain) : Domain :=
  { d with converters := d.converters.map (Converter.bound s) }

def Class.parentLookups (s : Scope) (c : Class) : List Lookup :=
  lookupsOf .missingClass c.parentReference s.class?

def Class.decoratorLookups (s : Scope) (c : Class) : List Lookup :=
  c.decoratorReferences.map fun r => .of .missingDecorator (s.decorator? r.name) r

def Class.propertyLookups (s : Scope) (m : Model) (c : Class) : List Lookup :=
  c.properties.flatMap (Property.lookups s m)

def Endpoint.lookups (s : Scope) (m : Model) (e : Endpoint) : List Lookup :=
  e.properties.flatMap (Property.lookups s m)

def Domain.lookups (s : Scope) (d : Domain) : List Lookup :=
  d.converters.flatMap fun c =>
    c.targetReferences.map fun r => .of .missingDomain (s.domain? r.name) r

end Bound

namespace Resolution
variable {s : Scope} {m n : Model}

section Binding

theorem mapM_looksUp {γ : Type} {find : γ → Option Key} {lookup : γ → Lookup}
    {f : γ → Noting (Option Key)} (each : ∀ c, LooksUp (find c) [lookup c] (f c)) (xs : List γ) :
    LooksUp (xs.map find) (xs.map lookup) (xs.mapM f) := by
  have all : LooksUp (xs.map find) (xs.flatMap fun c => [lookup c]) (xs.mapM f) := .mapM each
  rwa [← List.map_eq_flatMap] at all

/-- What is missing may only turn out once a name is found. -/
theorem bindTarget_looksUp (counts : ∀ k, oneKey n k = oneKey m k) (a : Association) :
    LooksUp { a with target := (s.class? a.reference.name).filter (oneKey m) }
      ((Property.association a).lookups s m) (bindTarget n s a) := by
  have counted : ∀ k, ((((n.class? k).map (·.primaryKeys)).getD []).length == 1) = oneKey m k := by
    intro k
    rw [← counts, oneKey]
    cases n.class? k <;> rfl
  have found := findClass_looksUp (s := s)
    (.property (.association { a with target := none })) a.reference
  unfold bindTarget
  simp only [counted, Property.lookups]
  cases known : s.class? a.reference.name with
  | none =>
      rw [known] at found
      exact found.bind (.pure { a with target := none })
  | some k =>
      rw [known] at found
      cases one : oneKey m k with
      | true =>
          rw [Option.filter_some_pos one]
          refine (found.bind (?_ : LooksUp _ [] _)).congr (by simp [one, failures, Lookup.of])
          simp only [one, if_true]
          exact .pure _
      | false =>
          have unbound := (report_looksUp (f := .associationKey) rfl (by decide) s
            (.property (.association { a with target := none })) a.reference).map
            fun _ => { a with target := none }
          rw [Option.filter_some_neg (by simpa using one)]
          refine (found.bind (?_ : LooksUp _ [⟨a.reference, some .associationKey⟩] _)).congr
            (by simp [one, failures, Lookup.of])
          simp only [one, Bool.false_eq_true, if_false]
          exact unbound

theorem bindProperty_looksUp (counts : ∀ k, oneKey n k = oneKey m k) (p : Property) :
    LooksUp (p.bound s m) (p.lookups s m) (bindProperty n s p) := by
  cases p with
  | regular p => exact (findDomain_looksUp n _ p.domainReference).map _
  | association a => exact (bindTarget_looksUp counts a).map _
  | composition c =>
      have target := findClass_looksUp (s := s) (.property (.composition c)) c.reference
      simp only [bindProperty, Property.lookups, Property.bound]
      split
      · next none =>
        rw [linkOf_none none, lookupsOf_none none]
        exact target.map fun target => Property.composition { c with target }
      · next r some =>
        rw [linkOf_some some, lookupsOf_some some]
        exact target.bind ((findDomain_looksUp n (.property (.composition c)) r).map _)
  | «alias» a =>
      simp only [bindProperty, Property.lookups, Property.bound, Placeholder.bound]
      split
      · next none =>
        rw [linkOf_none none, lookupsOf_none none]
        exact .pure _
      · next r some =>
        rw [linkOf_some some, lookupsOf_some some]
        exact (findDomain_looksUp n _ r).map _

theorem bindParent_looksUp (n : Model) (k : Key) (c : Class) :
    LooksUp (c.boundParent s) (c.parentLookups s) (bindParent s n k c) := by
  unfold bindParent Class.boundParent Class.parentLookups
  split
  · next none =>
    rw [linkOf_none none, lookupsOf_none none]
    exact .pure c
  · next r some =>
    rw [linkOf_some some, lookupsOf_some some]
    exact (findClass_looksUp _ r).map _

theorem bindDecorators_looksUp (n : Model) (k : Key) (c : Class) :
    LooksUp (c.boundDecorators s) (c.decoratorLookups s) (bindDecorators s n k c) := by
  have found := (mapM_looksUp (findDecorator_looksUp (s := s) (.class k))
    c.decoratorReferences).map fun found => { c with decorators := found.filterMap id }
  rwa [List.filterMap_map] at found

theorem bindClassProperties_looksUp (counts : ∀ k, oneKey n k = oneKey m k) (k : Key) (c : Class) :
    LooksUp (c.boundProperties s m) (c.propertyLookups s m) (bindClassProperties s n k c) :=
  (LooksUp.mapM (bindProperty_looksUp counts)).map _

theorem bindEndpointProperties_looksUp (counts : ∀ k, oneKey n k = oneKey m k) (e : Endpoint) :
    LooksUp (e.bound s m) (e.lookups s m) (bindEndpointProperties s n e) := by
  rw [Endpoint.lookups, Endpoint.properties, List.flatMap_append]
  refine (LooksUp.mapM (bindProperty_looksUp counts)).bind ?_
  exact (LooksUp.option (bindProperty_looksUp counts) e.returns).map _

theorem checkUses_looksUp (m : Model) (s : Scope) :
    LooksUp () ((m.uses s.self).map fun r => .of .missingFile (s.file? r.name) r)
      (checkUses m s) := by
  rw [List.map_eq_flatMap, checkUses, missingUses, filter_forM]
  refine LooksUp.forM fun r => ?_
  have known : s.dependencies.has r.name = (s.file? r.name).isSome := rfl
  cases there : (s.file? r.name).isSome with
  | true =>
      rw [known, there]
      exact (LooksUp.pure ()).congr (by simp [failures, Lookup.of, there])
  | false =>
      rw [known, there]
      exact (report_looksUp (f := .missingFile) rfl (by decide) s _ r).congr
        (by simp [failures, Lookup.of, there, Finding.code])

end Binding
end Resolution
end DataModel
