import DataModel.Proofs.Model.Relinking
import DataModel.Proofs.Resolution.Completion

/-!
Expanding entity by entity. The placeholders of a file are expanded one after the other through the
whole file; that is the same as expanding the list of each class, and then the parameters and the
return value of each endpoint, since no list changes but the one whose placeholder is expanded.
-/
namespace DataModel.Resolution
variable {s : Scope} {m n : Model}

section Lists

/-- Expands the placeholders of a list of properties, in order. The model may hold the list, as far
as it is expanded. -/
def expandList (s : Scope) (held : List Property → Model) (ps : List Property) :
    Noting (List Property) :=
  (ps.filterMap Property.alias?).foldlM (fun qs a => do
    match ← copies s (held qs) a with
    | some new => return splice a new qs
    | none => return qs) ps

def expandClass (s : Scope) (m : Model) (k : Key) (c : Class) : Noting Class := do
  let held := fun qs => m.setClass k { c with properties := qs }
  return { c with properties := ← expandList s held c.properties }

/-- A return value is replaced by its first copy, if there is one. -/
def expandReturn (s : Scope) (m : Model) (p : Property) : Noting Property := do
  match p.alias? with
  | none => return p
  | some a => return ((← copies s m a).bind List.head?).getD p

def expandEndpoint (s : Scope) (m : Model) (e : Endpoint) : Noting Endpoint := do
  let params ← expandList s (fun _ => m) e.params
  return { e with params, returns := ← e.returns.mapM (expandReturn s m) }

end Lists

section Congruence
variable {α β γ : Type}

/-- What follows an action matters only for what the action can give. -/
theorem Gives.bind_congr {P : List Diagnostic → α → Prop} {x : Noting α} {f g : α → Noting β}
    (h : Gives P x) (same : ∀ ds a, P ds a → f a = g a) : x >>= f = x >>= g := by
  funext n
  show (x >>= f).run n = (x >>= g).run n
  rw [StateT.run_bind, StateT.run_bind]
  cases run : x.run n with
  | error e => rfl
  | ok r =>
      obtain ⟨ds, -, holds⟩ := h n r.1 r.2 run
      show (f r.1).run r.2 = (g r.1).run r.2
      rw [same ds r.1 holds]

/-- Two loops whose steps are the same wherever the second one gets. -/
theorem foldlM_congr_on {I : List γ → α → Prop} {f g : α → γ → Noting α} {xs : List γ} {a : α}
    (start : I [] a)
    (each : ∀ before x after b, xs = before ++ x :: after → I before b →
      f b x = g b x ∧ Gives (fun _ b' => I (before ++ [x]) b') (g b x)) :
    xs.foldlM f a = xs.foldlM g a := by
  suffices all : ∀ rest before b, xs = before ++ rest → I before b →
      rest.foldlM f b = rest.foldlM g b from all xs [] a rfl start
  intro rest
  induction rest with
  | nil => exact fun _ _ _ _ => rfl
  | cons x rest ih =>
      intro before b whole holds
      obtain ⟨same, gives⟩ := each before x rest b whole holds
      have shifted : xs = before ++ [x] ++ rest := by rw [whole, List.append_assoc]; rfl
      rw [List.foldlM_cons, List.foldlM_cons, same]
      exact gives.bind_congr fun _ b' holds' => ih (before ++ [x]) b' shifted holds'

theorem foldlM_flatMap (f : α → γ → Noting α) (g : β → List γ) (xs : List β) (a : α) :
    (xs.flatMap g).foldlM f a = xs.foldlM (fun a x => (g x).foldlM f a) a := by
  induction xs generalizing a with
  | nil => rfl
  | cons x xs ih =>
      rw [List.flatMap_cons, List.foldlM_append, List.foldlM_cons]
      exact bind_congr fun b => ih b

theorem foldlM_map (f : α → γ → Noting α) (g : β → γ) (xs : List β) (a : α) :
    (xs.map g).foldlM f a = xs.foldlM (fun a x => f a (g x)) a := by
  induction xs generalizing a with
  | nil => rfl
  | cons x xs ih =>
      rw [List.map_cons, List.foldlM_cons, List.foldlM_cons]
      exact bind_congr fun b => ih b

end Congruence

section Steps

/-- What expanding does for one placeholder of a site. -/
def expandAt (s : Scope) (site : Site) (m : Model) (a : Placeholder) : Noting Model := do
  match ← copies s m a with
  | some new => return site.put m a new
  | none => return m

/-- Copies depend on the classes of a model only. -/
theorem copies_congr (same : ∀ k, n.class? k = m.class? k) (a : Placeholder) :
    copies s n a = copies s m a := by
  have classes : n.class? = m.class? := funext same
  have names : nameOf n = nameOf m := by
    funext p
    have found : n.propertyName? p = m.propertyName? p :=
      Model.propertyName?_congr (fun k => by rw [same k]) p
    rw [nameOf, nameOf, found]
  simp only [copies, named, classes, names]

/-- The placeholders of a site are expanded in the model as they are in the site's list. -/
theorem expandAt_list (site : Site) (put held : List Property → Model) (ps : List Property)
    (puts : ∀ qs a new, site.put (put qs) a new = put (splice a new qs))
    (copied : ∀ qs a, copies s (put qs) a = copies s (held qs) a) :
    (ps.filterMap Property.alias?).foldlM (expandAt s site) (put ps) =
      put <$> expandList s held ps := by
  unfold expandList
  generalize ps.filterMap Property.alias? = as
  induction as generalizing ps with
  | nil => simp
  | cons a as ih =>
      rw [List.foldlM_cons, List.foldlM_cons, map_bind, expandAt, bind_assoc, bind_assoc, copied]
      refine bind_congr fun new => ?_
      cases new with
      | none =>
          simp only [pure_bind]
          exact ih ps
      | some new =>
          simp only [pure_bind, puts]
          exact ih (splice a new ps)

theorem class?_setClass_found {k : Key} {c d : Class} (found : m.class? k = some c) :
    (m.setClass k d).class? k = some d := by
  rw [Model.class?_setClass, if_pos rfl, found, Option.map_some]

theorem endpoint?_setEndpoint_found {k : Key} {e d : Endpoint} (found : m.endpoint? k = some e) :
    (m.setEndpoint k d).endpoint? k = some d := by
  rw [Model.endpoint?_setEndpoint, if_pos rfl, found, Option.map_some]

theorem expandAt_class {k : Key} {c : Class} (found : m.class? k = some c) :
    (c.properties.filterMap Property.alias?).foldlM (expandAt s (.ofClass k)) m =
      m.setClass k <$> expandClass s m k c := by
  have steps := expandAt_list (s := s) (.ofClass k)
    (fun qs => m.setClass k { c with properties := qs }) _ c.properties
    (fun qs a new => by
      rw [Site.put, class?_setClass_found found]
      exact m.setClass_setClass k _ _)
    (fun _ _ => rfl)
  rw [show m.setClass k { c with properties := c.properties } = m from Model.setClass_self found]
    at steps
  rw [steps, expandClass, bind_pure_comp, Functor.map_map]

theorem expandAt_params {k : Key} {e : Endpoint} (found : m.endpoint? k = some e) :
    (e.params.filterMap Property.alias?).foldlM (expandAt s (.ofParams k)) m =
      (fun params => m.setEndpoint k { e with params }) <$> expandList s (fun _ => m) e.params := by
  have steps := expandAt_list (s := s) (.ofParams k)
    (fun qs => m.setEndpoint k { e with params := qs }) (fun _ => m) e.params
    (fun qs a new => by
      rw [Site.put, endpoint?_setEndpoint_found found]
      exact m.setEndpoint_setEndpoint k _ _)
    (fun qs a => copies_congr (m.class?_setEndpoint k · _) a)
  rwa [show m.setEndpoint k { e with params := e.params } = m from Model.setEndpoint_self found]
    at steps

theorem expandAt_return {k : Key} {e : Endpoint} (found : m.endpoint? k = some e) :
    (e.returns.bind (·.alias?)).toList.foldlM (expandAt s (.ofReturn k)) m =
      (fun returns => m.setEndpoint k { e with returns }) <$> e.returns.mapM (expandReturn s m) := by
  have kept : ∀ returns, e.returns = returns → m.setEndpoint k { e with returns } = m := by
    rintro _ rfl
    exact Model.setEndpoint_self found
  cases returned : e.returns with
  | none => simp [kept none returned]
  | some p =>
      have kept := kept (some p) returned
      cases isAlias : p.alias? with
      | none => simp [expandReturn, isAlias, kept]
      | some a =>
          simp only [Option.bind_some, isAlias, Option.toList_some, List.foldlM_cons,
            List.foldlM_nil, Option.mapM_some, expandReturn, expandAt]
          simp only [map_eq_pure_bind, bind_assoc, pure_bind]
          refine bind_congr fun new => ?_
          rcases new with _ | _ | ⟨q, rest⟩
          · simp [kept]
          · simp [kept, Site.put, found]
          · simp [Site.put, found]

theorem expandAt_endpoint {k : Key} {e : Endpoint} (found : m.endpoint? k = some e) :
    (e.params.filterMap Property.alias?).foldlM (expandAt s (.ofParams k)) m >>=
        (e.returns.bind (·.alias?)).toList.foldlM (expandAt s (.ofReturn k)) =
      m.setEndpoint k <$> expandEndpoint s m e := by
  rw [expandAt_params found, bind_map_left, expandEndpoint, map_bind]
  refine bind_congr fun params => ?_
  have there : (m.setEndpoint k { e with params }).endpoint? k = some { e with params } :=
    endpoint?_setEndpoint_found found
  have same : expandReturn s (m.setEndpoint k { e with params }) = expandReturn s m := by
    funext p
    simp only [expandReturn, copies_congr (m.class?_setEndpoint k · _)]
  rw [expandAt_return there, same, bind_pure_comp, Functor.map_map]
  simp only [m.setEndpoint_setEndpoint]

end Steps

section Copies

/-- A copy that was made for an alias. -/
structure CopyOf (a : Placeholder) (p : Property) : Prop where
  origin : p.origin? = some a
  field : p.isField = true
  plain : p.isPrimaryKey = false

theorem copyField_copyOf (a : Placeholder) (name : String) (location : Reference) {p : Property}
    (field : p.isField = true) : CopyOf a (copyField a name location p) := by
  cases p with
  | regular p => exact ⟨rfl, rfl, rfl⟩
  | association p => exact ⟨rfl, rfl, rfl⟩
  | composition p => cases field
  | «alias» p => cases field

/-- An alias selects a field of its class: one of those it includes or, if it includes none, one
that it does not exclude. -/
def SelectsField (s : Scope) (n : Model) (a : Placeholder) : Prop :=
  ∃ o c, s.classes.get? a.reference.name = some o ∧ n.class? o.key = some c ∧
    if a.included = [] then
      ∃ p ∈ c.properties, p.isField ∧ ∀ r ∈ a.excluded, n.propertyName? p ≠ some r.name
    else
      ∃ r ∈ a.included, ∃ p, c.properties.find? (n.propertyName? · == some r.name) = some p ∧
        p.isField

theorem lookup_named {ps : List Property} {qs : List (String × Property)}
    (h : List.Forall₂ (fun p q => q.2 = p ∧ n.propertyName? p = some q.1) ps qs) (name : String) :
    qs.lookup name = ps.find? (n.propertyName? · == some name) := by
  induction h with
  | nil => rfl
  | @cons p q ps qs first _ ih =>
      obtain ⟨label, _⟩ := q
      obtain ⟨rfl, known⟩ := first
      dsimp only at known
      rw [List.lookup_cons, List.find?_cons, known, ih]
      by_cases same : label = name
      · subst same
        simp
      · rw [beq_false_of_ne (Ne.symm same),
          beq_false_of_ne fun e : some label = some name => same (Option.some.inj e)]

/-- A selected field is in the selection. -/
theorem exists_selected {a : Placeholder} {c : Class} {qs : List (String × Property)}
    (names : List.Forall₂ (fun p q => q.2 = p ∧ n.propertyName? p = some q.1) c.properties qs)
    (selects : if a.included = [] then
        ∃ p ∈ c.properties, p.isField ∧ ∀ r ∈ a.excluded, n.propertyName? p ≠ some r.name
      else
        ∃ r ∈ a.included, ∃ p, c.properties.find? (n.propertyName? · == some r.name) = some p ∧
          p.isField) : ∃ q ∈ selection a qs, q.2.isField := by
  unfold selection
  by_cases all : a.included = []
  · rw [if_pos all] at selects
    obtain ⟨p, hp, field, apart⟩ := selects
    obtain ⟨i, bound, rfl⟩ := List.getElem_of_mem hp
    have here := names.get bound (names.length_eq ▸ bound)
    simp only [List.get_eq_getElem] at here
    refine ⟨qs.get ⟨i, names.length_eq ▸ bound⟩, ?_, here.1 ▸ field⟩
    rw [all]
    refine List.mem_filter.mpr ⟨List.getElem_mem _, ?_⟩
    simp only [Bool.not_eq_true', List.contains_eq_mem, decide_eq_false_iff_not, List.mem_map]
    rintro ⟨r, hr, same⟩
    exact apart r hr (same ▸ here.2)
  · rw [if_neg all] at selects
    obtain ⟨r, hr, p, found, field⟩ := selects
    refine ⟨(r.name, p), ?_, field⟩
    rw [if_pos (by simpa using all)]
    refine List.mem_filterMap.mpr ⟨r, hr, ?_⟩
    rw [lookup_named names, found, Option.map_some]

/-- What an alias gives: copies made for it, at least one if it selects a field; and it gives
something unless it is reported. -/
theorem copies_made (a : Placeholder) :
    Gives (fun ds new =>
        (∀ ps, new = some ps → (∀ p ∈ ps, CopyOf a p) ∧ (SelectsField s n a → ps ≠ [])) ∧
        (Clean ds → (∀ o, s.classes.get? a.reference.name = some o → (n.class? o.key).isSome) →
          new.isSome))
      (copies s n a) := by
  unfold copies
  refine (findClass_gives s _ a.reference).bind fun ds found given => ?_
  rw [given.1]
  cases offer : s.classes.get? a.reference.name with
  | none =>
      rw [offer] at given
      refine .pure ⟨?_, fun clean _ => ?_⟩
      · rintro _ ⟨⟩
      · rw [List.append_nil] at clean
        have there := given.2 clean
        rw [given.1] at there
        cases there
  | some o =>
      simp only [Option.map_some, Option.bind_some]
      cases target : n.class? o.key with
      | none =>
          refine .pure ⟨?_, fun _ there => ?_⟩
          · rintro _ ⟨⟩
          · have known := there o rfl
            rw [target] at known
            cases known
      | some c =>
          refine (named_gives n c.properties).bind fun ds' qs names => ?_
          refine (select_gives a c.name qs).bind fun ds'' chosen selected => .pure ⟨?_, ?_⟩
          · intro ps made
            obtain ⟨rs, rfl, rfl⟩ := Option.map_eq_some_iff.mp made
            have whole := selected.1 rs rfl
            refine ⟨fun p hp => ?_, ?_⟩
            · obtain ⟨r, hr, rfl⟩ := List.mem_map.mp hp
              exact copyField_copyOf a _ _ (List.mem_filter.mp hr).2
            · rintro ⟨o', c', offer', target', selects⟩ none
              rw [offer] at offer'
              cases offer'
              rw [target] at target'
              cases target'
              obtain ⟨q, member, field⟩ := exists_selected names.2 selects
              rw [List.map_eq_nil_iff, List.filter_eq_nil_iff, whole] at none
              exact none q member field
          · intro clean _
            rw [List.append_nil, clean_append, clean_append] at clean
            rw [Option.isSome_map]
            exact selected.2 clean.2.2

end Copies

section Spreading

/-- What stands in the place of a property: the copies of an alias that has some, or else the
property itself. -/
def spread (made : Placeholder → Option (List Property)) (p : Property) : List Property :=
  match p.alias? with
  | some a => (made a).getD [p]
  | none => [p]

theorem alias?_eq_none_of_field {p : Property} (field : p.isField = true) : p.alias? = none := by
  cases p with
  | «alias» a => cases field
  | _ => rfl

theorem splice_append_left {a : Placeholder} {new ps qs : List Property}
    (apart : ∀ p ∈ ps, p.alias? ≠ some a) : splice a new (ps ++ qs) = ps ++ splice a new qs := by
  induction ps with
  | nil => rfl
  | cons p ps ih =>
      obtain ⟨first, rest⟩ := List.forall_mem_cons.mp apart
      rw [List.cons_append, splice, if_neg (by simpa using first), ih rest, List.cons_append]

/-- Putting copies in the place of an alias is spreading them. -/
theorem splice_spread {made : Placeholder → Option (List Property)} {a : Placeholder}
    (new : List Property) {ps : List Property} (once : (ps.filterMap Property.alias?).Nodup)
    (member : a ∈ ps.filterMap Property.alias?) (unmade : made a = none)
    (copies : ∀ b ∈ ps.filterMap Property.alias?, ∀ cs, made b = some cs → ∀ p ∈ cs, CopyOf b p) :
    splice a new (ps.flatMap (spread made)) =
      ps.flatMap (spread (Function.update made a (some new))) := by
  induction ps with
  | nil => cases member
  | cons p ps ih =>
      rw [List.flatMap_cons, List.flatMap_cons]
      cases isAlias : p.alias? with
      | none =>
          rw [List.filterMap_cons_none isAlias] at once member copies
          have alone : ∀ made, spread made p = [p] := fun made => by rw [spread, isAlias]
          rw [alone, alone, splice_append_left ?_, ih once member copies]
          intro q hq
          rw [List.mem_singleton.mp hq, isAlias]
          exact fun none => by cases none
      | some b =>
          rw [List.filterMap_cons_some isAlias] at once member copies
          obtain ⟨fresh, once⟩ := List.nodup_cons.mp once
          have copies' := fun b hb => copies b (List.mem_cons_of_mem _ hb)
          by_cases here : b = a
          · subst here
            have rest : ps.flatMap (spread (Function.update made b (some new))) =
                ps.flatMap (spread made) := by
              refine List.flatMap_congr fun q hq => ?_
              cases other : q.alias? with
              | none => rw [spread, spread, other]
              | some c =>
                  have apart : c ≠ b := by
                    rintro rfl
                    exact fresh (List.mem_filterMap.mpr ⟨q, hq, other⟩)
                  simp only [spread, other, Function.update_of_ne apart]
            rw [rest, spread, isAlias, spread, isAlias]
            simp [unmade, splice, isAlias]
          · have inside := (List.mem_cons.mp member).resolve_left (Ne.symm here)
            have same : spread (Function.update made a (some new)) p = spread made p := by
              simp only [spread, isAlias, Function.update_of_ne here]
            rw [same, splice_append_left ?_, ih once inside copies']
            intro q hq
            rw [spread, isAlias] at hq
            dsimp only at hq
            cases known : made b with
            | none =>
                rw [known, Option.getD_none, List.mem_singleton] at hq
                rw [hq, isAlias]
                exact fun same => here (Option.some.inj same)
            | some cs =>
                rw [known, Option.getD_some] at hq
                rw [alias?_eq_none_of_field (copies b List.mem_cons_self cs known q hq).field]
                exact fun none => by cases none

/-- A spread list: the copies in it were made for the aliases in whose places they stand. -/
structure Spreads (made : Placeholder → Option (List Property)) (ps qs : List Property) : Prop where
  whole : qs = ps.flatMap (spread made)
  copies : ∀ a ∈ ps.filterMap Property.alias?, ∀ cs, made a = some cs → ∀ p ∈ cs, CopyOf a p

theorem Spreads.start (ps : List Property) : Spreads (fun _ => none) ps ps := by
  refine ⟨?_, fun _ _ _ given => by cases given⟩
  have alone : ∀ p ∈ ps, spread (fun _ => none) p = [p] := by
    intro p _
    rw [spread]
    cases p.alias? <;> rfl
  rw [List.flatMap_congr alone, List.flatMap_singleton']

/-- Copies put in the place of a further alias. -/
theorem Spreads.update {made : Placeholder → Option (List Property)} {ps qs cs : List Property}
    {a : Placeholder} (h : Spreads made ps qs) (once : (ps.filterMap Property.alias?).Nodup)
    (member : a ∈ ps.filterMap Property.alias?) (unmade : made a = none)
    (copies : ∀ p ∈ cs, CopyOf a p) :
    Spreads (Function.update made a (some cs)) ps (splice a cs qs) := by
  refine ⟨?_, fun b hb cs' known => ?_⟩
  · rw [h.whole]
    exact splice_spread cs once member unmade h.copies
  · by_cases here : b = a
    · subst here
      rw [Function.update_self, Option.some.injEq] at known
      exact known ▸ copies
    · rw [Function.update_of_ne here] at known
      exact h.copies b hb cs' known

/-- What a list of properties is expanded to, if no alias in it comes twice. -/
theorem expandList_gives {held : List Property → Model} {ps : List Property}
    (once : (ps.filterMap Property.alias?).Nodup) :
    Gives (fun ds qs => ∃ made, Spreads made ps qs ∧ (Clean ds →
        (∀ qs name o, s.classes.get? name = some o → ((held qs).class? o.key).isSome) →
        ∀ a ∈ ps.filterMap Property.alias?, (made a).isSome))
      (expandList s held ps) := by
  unfold expandList
  refine (Gives.foldlM (I := fun before ds qs => ∃ made, Spreads made ps qs ∧
    (∀ a ∉ before, made a = none) ∧ (Clean ds →
      (∀ qs name o, s.classes.get? name = some o → ((held qs).class? o.key).isSome) →
      ∀ a ∈ before, (made a).isSome)) ?_ ?_).mono ?_
  · exact ⟨_, .start ps, fun _ _ => rfl, fun _ _ a ha => absurd ha List.not_mem_nil⟩
  · rintro before a after ds qs split ⟨made, spreads, unmade, all⟩
    have member : a ∈ ps.filterMap Property.alias? := by rw [split]; simp
    have new := notMem_before once split
    refine (copies_made a).bind fun ds' result given => ?_
    cases result with
    | none =>
        refine .pure ⟨made, spreads, fun b hb => unmade b fun early => hb (List.mem_append_left _ early),
          fun clean there => ?_⟩
        rw [List.append_nil, clean_append] at clean
        have some := given.2 clean.2 fun o offer => there qs _ o offer
        cases some
    | some cs =>
        refine .pure ⟨Function.update made a (some cs),
          spreads.update once member (unmade a new) (given.1 cs rfl).1, ?_, ?_⟩
        · intro b hb
          rw [List.mem_append, List.mem_singleton, not_or] at hb
          rw [Function.update_of_ne hb.2]
          exact unmade b hb.1
        · intro clean there b hb
          rw [List.append_nil, clean_append] at clean
          by_cases here : b = a
          · rw [here, Function.update_self]
            rfl
          · rw [List.mem_append, List.mem_singleton] at hb
            rw [Function.update_of_ne here]
            exact all clean.1 there b (hb.resolve_right here)
  · rintro ds qs ⟨made, spreads, -, all⟩
    exact ⟨made, spreads, all⟩

/-- A list in which every alias was given copies holds no alias. -/
theorem Spreads.no_alias {made : Placeholder → Option (List Property)} {ps qs : List Property}
    (h : Spreads made ps qs) (all : ∀ a ∈ ps.filterMap Property.alias?, (made a).isSome) :
    ∀ q ∈ qs, q.alias? = none := by
  intro q hq
  rw [h.whole] at hq
  obtain ⟨p, hp, place⟩ := List.mem_flatMap.mp hq
  rw [spread] at place
  cases isAlias : p.alias? with
  | none =>
      rw [isAlias] at place
      exact List.mem_singleton.mp place ▸ isAlias
  | some a =>
      have member := List.mem_filterMap.mpr ⟨p, hp, isAlias⟩
      obtain ⟨cs, known⟩ := Option.isSome_iff_exists.mp (all a member)
      rw [isAlias] at place
      dsimp only at place
      rw [known, Option.getD_some] at place
      exact alias?_eq_none_of_field (h.copies a member cs known q place).field

/-- Copies are no keys, so spreading leaves the primary keys as they are. -/
theorem Spreads.primaryKeys {made : Placeholder → Option (List Property)} {ps qs : List Property}
    (h : Spreads made ps qs) :
    qs.filter (·.isPrimaryKey) = ps.filter (·.isPrimaryKey) := by
  have kept : ∀ p ∈ ps, (spread made p).filter (·.isPrimaryKey) = [p].filter (·.isPrimaryKey) := by
    intro p hp
    rw [spread]
    cases isAlias : p.alias? with
    | none => rfl
    | some a =>
        dsimp only
        cases known : made a with
        | none => rfl
        | some cs =>
            have plain : p.isPrimaryKey = false := by
              cases p with
              | «alias» b => rfl
              | _ => cases isAlias
            have member := List.mem_filterMap.mpr ⟨p, hp, isAlias⟩
            have copies := h.copies a member cs known
            simp only [Option.getD_some, List.filter_cons, plain, Bool.false_eq_true, ↓reduceIte,
              List.filter_nil, List.filter_eq_nil_iff]
            exact fun q hq => by simp [(copies q hq).plain]
  rw [h.whole, List.filter_flatMap, List.flatMap_congr kept, ← List.filter_flatMap,
    List.flatMap_singleton']

end Spreading

section Whole

theorem expandList_any (held : List Property → Model) (ps : List Property) :
    Gives (fun _ _ => True) (expandList s held ps) := by
  unfold expandList
  refine Gives.foldlM (I := fun _ _ _ => True) trivial fun before a after ds qs _ _ => ?_
  refine (copies_made a).bind fun ds' new _ => ?_
  cases new with
  | none => exact .pure trivial
  | some cs => exact .pure trivial

theorem expandClass_bare (k : Key) (c : Class) :
    Gives (fun _ c' => c'.bare = c.bare) (expandClass s m k c) :=
  (expandList_any _ _).bind fun _ _ _ => .pure rfl

theorem expandReturn_any (p : Property) : Gives (fun _ _ => True) (expandReturn s m p) := by
  unfold expandReturn
  split
  · exact .pure trivial
  · exact (copies_made _).bind fun _ _ _ => .pure trivial

theorem expandEndpoint_bare (e : Endpoint) :
    Gives (fun _ e' => e'.bare = e.bare) (expandEndpoint s m e) := by
  refine (expandList_any _ _).bind fun _ params _ => ?_
  cases e.returns with
  | none => exact .pure rfl
  | some p =>
      rw [Option.mapM_some, bind_map_left]
      exact (expandReturn_any p).bind fun _ _ _ => .pure rfl

theorem filterMap_site (site : Site) (ps : List Property) :
    (ps.filterMap fun p => p.alias?.map fun a => (site, a)) =
      (ps.filterMap Property.alias?).map fun a => (site, a) := by
  rw [List.map_filterMap]

theorem expandClasses_eq (once : (m.ownClasses s.self).Nodup) :
    (m.ownClasses s.self).foldlM (fun n k =>
        (((m.class? k).map (·.properties)).getD [] |>.filterMap Property.alias?).foldlM
          (expandAt s (.ofClass k)) n) m =
      forOwnClasses s (expandClass s) m := by
  unfold forOwnClasses
  refine foldlM_congr_on (I := fun before n =>
    ∀ k ∈ m.ownClasses s.self, k ∉ before → n.class? k = m.class? k) (fun _ _ _ => rfl) ?_
  intro before k after n split waits
  have new := notMem_before once split
  have here := waits k (by rw [split]; simp) new
  rw [here]
  cases found : m.class? k with
  | none => exact ⟨rfl, .pure fun l hl later => waits l hl fun early => later (List.mem_append_left _ early)⟩
  | some c =>
      refine ⟨?_, ?_⟩
      · exact (expandAt_class (here.trans found)).trans (bind_pure_comp _ _).symm
      · refine (expandClass_bare k c).bind fun _ c' _ => .pure fun l hl later => ?_
        rw [List.mem_append, List.mem_singleton, not_or] at later
        rw [Model.class?_setClass, if_neg (Ne.symm later.2)]
        exact waits l hl later.1

theorem expandEndpoints_eq (once : (m.ownEndpoints s.self).Nodup) :
    (m.ownEndpoints s.self).foldlM (fun n k =>
        match m.endpoint? k with
        | none => return n
        | some e =>
          (e.params.filterMap Property.alias?).foldlM (expandAt s (.ofParams k)) n >>=
            (e.returns.bind (·.alias?)).toList.foldlM (expandAt s (.ofReturn k))) m =
      forOwnEndpoints s (expandEndpoint s) m := by
  unfold forOwnEndpoints
  refine foldlM_congr_on (I := fun before n =>
    ∀ k ∈ m.ownEndpoints s.self, k ∉ before → n.endpoint? k = m.endpoint? k) (fun _ _ _ => rfl) ?_
  intro before k after n split waits
  have new := notMem_before once split
  have here := waits k (by rw [split]; simp) new
  rw [here]
  cases found : m.endpoint? k with
  | none => exact ⟨rfl, .pure fun l hl later => waits l hl fun early => later (List.mem_append_left _ early)⟩
  | some e =>
      refine ⟨?_, ?_⟩
      · exact (expandAt_endpoint (here.trans found)).trans (bind_pure_comp _ _).symm
      · refine (expandEndpoint_bare e).bind fun _ e' _ => .pure fun l hl later => ?_
        rw [List.mem_append, List.mem_singleton, not_or] at later
        rw [Model.endpoint?_setEndpoint, if_neg (Ne.symm later.2)]
        exact waits l hl later.1

/-- Expanding the file is expanding its classes and then its endpoints. -/
theorem expandAll_eq (home : m.Homed s.self) (onceClasses : (m.ownClasses s.self).Nodup)
    (onceEndpoints : (m.ownEndpoints s.self).Nodup) :
    expandAll s m =
      forOwnClasses s (expandClass s) m >>= forOwnEndpoints s (expandEndpoint s) := by
  have start : expandAll s m =
      (placeholders m s.self).foldlM (fun n p => expandAt s p.1 n p.2) m := rfl
  rw [start, placeholders, List.foldlM_append, foldlM_flatMap]
  simp only [filterMap_site, foldlM_map]
  rw [expandClasses_eq onceClasses]
  have classes := forOwnClasses_gives (s := s) (f := expandClass s) home
    (fun _ (h : True) => h) fun n k c _ _ =>
      (expandClass_bare k c).mono fun _ _ bare => ⟨bare, fun _ => id⟩
  refine classes.bind_congr fun _ n changed => ?_
  have own := changed.1.ownEndpoints
  have whole := expandEndpoints_eq (s := s) (own ▸ onceEndpoints)
  rw [own] at whole
  rw [← whole, foldlM_flatMap]
  refine congrArg (fun f => (m.ownEndpoints s.self).foldlM f n) (funext fun n' => funext fun k => ?_)
  rw [changed.1.endpoints]
  cases m.endpoint? k with
  | none => rfl
  | some e =>
      dsimp only
      rw [List.foldlM_append, foldlM_map]
      simp only [foldlM_map]

end Whole
end DataModel.Resolution
