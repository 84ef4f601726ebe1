import DataModel.Proofs.Resolution.Expanding

/-!
What an alias selects of its class: the fields that it includes, in its order, or else all that it
does not exclude, in the order of the class. The names that it lists are to be names of properties
of that class; each that is not is reported, and the alias then selects nothing.
-/
namespace DataModel.Resolution
variable {s : Scope} {m n : Model}

section Selection

/-- The class that a name means. -/
def Scope.target? (s : Scope) (m : Model) (r : Reference) : Option Class :=
  (s.classes.get? r.name).bind fun o => m.class? o.key

/-- The first of some properties with a name. -/
def firstNamed? (m : Model) (ps : List Property) (name : String) : Option Property :=
  ps.find? (m.propertyName? · == some name)

/-- The names listed by an alias that no property of a class has. -/
def absent (m : Model) (a : Placeholder) (c : Class) : List Reference :=
  (a.included ++ a.excluded).filter fun r => (firstNamed? m c.properties r.name).isNone

/-- The errors about the names listed by an alias that its class does not have, one for each. -/
def absences (s : Scope) (m : Model) (a : Placeholder) : List Diagnostic :=
  match s.target? m a.reference with
  | none => []
  | some c => (absent m a c).map fun r =>
    (Finding.missingProperty c.name).diagnostic s.self (.property (.alias a)) (some r)

/-- The properties of a class that an alias of it selects. -/
def selectedOf (m : Model) (a : Placeholder) (c : Class) : List Property :=
  if a.included.isEmpty then
    c.properties.filter fun p => a.excluded.all fun r => m.propertyName? p != some r.name
  else a.included.filterMap fun r => firstNamed? m c.properties r.name

/-- A copy that an alias makes of a property. -/
structure IsCopy (m : Model) (a : Placeholder) (source copy : Property) : Prop where
  made : ∃ name, m.propertyName? source = some name ∧
    copy = copyField a name (copyLocation a name) source ∧
    m.propertyName? copy = some (a.leading ++ name ++ a.trailing)
  origin : copy.origin? = some a
  notKey : copy.isPrimaryKey = false
  notUnique : ∀ p, copy = .regular p → p.unique = false

/-- What an alias is expanded to: nothing if its class is not known or lacks a name that it lists,
and else copies of the fields that it selects. -/
inductive ExpandsTo (s : Scope) (m : Model) (a : Placeholder) : Option (List Property) → Prop
  | unknown (missing : s.target? m a.reference = none) : ExpandsTo s m a none
  | lacking {c : Class} (target : s.target? m a.reference = some c) (some' : absent m a c ≠ []) :
    ExpandsTo s m a none
  | copied {c : Class} {copies : List Property} (target : s.target? m a.reference = some c)
    (all : absent m a c = [])
    (made : List.Forall₂ (IsCopy m a) ((selectedOf m a c).filter (·.isField)) copies) :
    ExpandsTo s m a (some copies)

theorem isCopy_copyField {a : Placeholder} {p : Property} {name : String} (field : p.isField = true)
    (known : m.propertyName? p = some name) :
    IsCopy m a p (copyField a name (copyLocation a name) p) := by
  have copy := copyField_copyOf a name (copyLocation a name) field
  refine ⟨⟨name, known, rfl, ?_⟩, copy.origin, copy.plain, fun q same => ?_⟩
  · cases p with
    | regular p => rfl
    | association p => rfl
    | composition p => cases field
    | «alias» p => cases field
  · cases p with
    | regular p =>
        cases same
        rfl
    | association p => cases same
    | composition p => cases field
    | «alias» p => cases field

end Selection

section Congruence

/-- What an alias is expanded to depends on its class and on the names of properties only. -/
theorem ExpandsTo.congr {a : Placeholder} {new : Option (List Property)} (h : ExpandsTo s m a new)
    (target : s.target? n a.reference = s.target? m a.reference)
    (names : n.propertyName? = m.propertyName?) : ExpandsTo s n a new := by
  have absent_eq : absent n a = absent m a := by
    funext c
    simp only [absent, firstNamed?, names]
  have selectedOf_eq : selectedOf n a = selectedOf m a := by
    funext c
    simp only [selectedOf, firstNamed?, names]
  cases h with
  | unknown missing => exact .unknown (target.trans missing)
  | lacking found some' => exact .lacking (target.trans found) (absent_eq ▸ some')
  | copied found all made =>
      refine .copied (target.trans found) (absent_eq ▸ all) (selectedOf_eq ▸ made.imp ?_)
      intro p q copy
      exact ⟨names ▸ copy.made, copy.origin, copy.notKey, copy.notUnique⟩

theorem absences_congr {a : Placeholder}
    (target : s.target? n a.reference = s.target? m a.reference)
    (names : n.propertyName? = m.propertyName?) : absences s n a = absences s m a := by
  unfold absences absent firstNamed?
  rw [target, names]

end Congruence

section Copies

theorem reports_gives (f : Finding) (subject : Subject) (rs : List Reference) :
    Gives (fun ds _ => ds = rs.map fun r => f.diagnostic s.self subject (some r))
      (rs.forM fun r => report s f subject (some r)) := by
  induction rs with
  | nil => exact .pure rfl
  | cons r rs ih =>
      refine (report_gives s f subject (some r)).bind fun ds _ first => ih.mono fun ds' _ rest => ?_
      rw [first, rest]
      rfl

/-- Looking a class up reports that it is missing, and nothing else. -/
theorem findClass_tells (subject : Subject) (r : Reference) :
    Gives (fun ds found => found = (s.classes.get? r.name).map (·.key) ∧
        ds = if (s.classes.get? r.name).isSome then []
          else [Finding.missingClass.diagnostic s.self subject (some r)])
      (findClass s subject r) := by
  unfold findClass findOffer
  cases s.classes.get? r.name with
  | none =>
      refine (report_gives s .missingClass subject r).bind fun ds _ reported => .pure ⟨rfl, ?_⟩
      rw [reported]
      rfl
  | some o =>
      refine (markUsed_gives o.file).bind fun ds _ quiet => .pure ⟨rfl, ?_⟩
      rw [quiet]
      rfl

/-- The selection by name is that of the named properties. -/
theorem selection_named {a : Placeholder} {c : Class} {qs : List (String × Property)}
    (names : List.Forall₂ (fun p q => q.2 = p ∧ m.propertyName? p = some q.1) c.properties qs) :
    List.Forall₂ (fun p q => q.2 = p ∧ m.propertyName? p = some q.1) (selectedOf m a c)
      (selection a qs) := by
  unfold selection selectedOf
  cases all : a.included.isEmpty with
  | true =>
      simp only [Bool.not_true, Bool.false_eq_true, if_false, if_true]
      generalize c.properties = ps at names
      induction names with
      | nil => exact .nil
      | @cons p q ps qs first rest ih =>
          have same : (a.excluded.all fun r => m.propertyName? p != some r.name) =
              !(a.excluded.map (·.name)).contains q.1 := by
            rw [first.2, Bool.eq_iff_iff]
            simp [@eq_comm _ q.1]
          rw [List.filter_cons, List.filter_cons, same]
          split
          · exact .cons first ih
          · exact ih
  | false =>
      simp only [Bool.not_false, if_true, Bool.false_eq_true, if_false]
      induction a.included with
      | nil => exact .nil
      | cons r rs ih =>
          rw [List.filterMap_cons, List.filterMap_cons, lookup_named names, firstNamed?]
          cases found : c.properties.find? (m.propertyName? · == some r.name) with
          | none => exact ih
          | some p =>
              have known := List.find?_some found
              exact .cons ⟨rfl, beq_iff_eq.mp known⟩ ih

theorem select_selects {a : Placeholder} {c : Class} {qs : List (String × Property)}
    (names : List.Forall₂ (fun p q => q.2 = p ∧ m.propertyName? p = some q.1) c.properties qs) :
    Gives (fun ds new =>
        ds = ((absent m a c).map fun r =>
          (Finding.missingProperty c.name).diagnostic s.self (.property (.alias a)) (some r)) ∧
        new = if absent m a c = [] then some (selection a qs) else none)
      (select s a c.name qs) := by
  have missing : (a.included ++ a.excluded).filter (fun r => (qs.lookup r.name).isNone) =
      absent m a c := by
    refine List.filter_congr fun r _ => ?_
    rw [lookup_named names, firstNamed?]
  unfold select selection
  simp only [missing]
  refine (reports_gives _ _ _).bind ?_
  rintro _ _ rfl
  cases none : absent m a c with
  | nil =>
      simp only [List.isEmpty_nil, Bool.not_true, Bool.false_eq_true, if_false, if_true]
      split
      · exact .pure ⟨List.append_nil _, rfl⟩
      · exact .pure ⟨List.append_nil _, rfl⟩
  | cons r rs => exact .pure ⟨List.append_nil _, rfl⟩

/-- The copies of the fields among named properties. -/
theorem copies_named {a : Placeholder} {ps : List Property} {qs : List (String × Property)}
    (names : List.Forall₂ (fun p q => q.2 = p ∧ m.propertyName? p = some q.1) ps qs) :
    List.Forall₂ (IsCopy m a) (ps.filter (·.isField))
      ((qs.filter fun (_, p) => p.isField).map fun (name, p) =>
        copyField a name (copyLocation a name) p) := by
  induction names with
  | nil => exact .nil
  | @cons p q ps qs first rest ih =>
      obtain ⟨name, _⟩ := q
      obtain ⟨rfl, known⟩ := first
      rw [List.filter_cons, List.filter_cons]
      split
      · next field => exact .cons (isCopy_copyField field known) ih
      · exact ih

/-- Expanding an alias gives what it selects, and reports what its class lacks. -/
theorem copies_expands (a : Placeholder) :
    Gives (fun ds new => ExpandsTo s n a new ∧
        ds.filter (·.code == .missingProperty) = absences s n a ∧
        ∀ d ∈ ds, d.subject = some (.property (.alias a)))
      (copies s n a) := by
  unfold copies
  refine (findClass_tells _ a.reference).bind ?_
  rintro _ _ ⟨rfl, rfl⟩
  cases offer : s.classes.get? a.reference.name with
  | none =>
      have unknown : s.target? n a.reference = none := by rw [Scope.target?, offer, Option.bind_none]
      refine .pure ⟨.unknown unknown, ?_, fun d hd => ?_⟩
      · rw [absences, unknown]
        rfl
      · rw [List.append_nil] at hd
        cases List.mem_singleton.mp hd
        rfl
  | some o =>
      have meant : s.target? n a.reference = n.class? o.key := by
        rw [Scope.target?, offer, Option.bind_some]
      rw [Option.map_some, Option.bind_some, Option.isSome_some, if_pos rfl]
      cases target : n.class? o.key with
      | none =>
          refine .pure ⟨.unknown (meant.trans target), ?_, fun d hd => absurd hd List.not_mem_nil⟩
          rw [absences, meant, target]
          rfl
      | some c =>
          refine (named_gives n c.properties).bind ?_
          rintro _ qs ⟨rfl, names⟩
          refine (select_selects names).bind ?_
          rintro _ _ ⟨rfl, rfl⟩
          have found := meant.trans target
          refine .pure ⟨?_, ?_, ?_⟩
          · split
            · next all => exact .copied found all (copies_named (selection_named names))
            · next some' => exact .lacking found some'
          · rw [absences, found]
            simp [Finding.diagnostic, Finding.code, List.filter_map, Function.comp_def]
          · intro d hd
            simp only [List.nil_append, List.append_nil, List.mem_map] at hd
            obtain ⟨r, -, rfl⟩ := hd
            rfl

end Copies
end DataModel.Resolution
