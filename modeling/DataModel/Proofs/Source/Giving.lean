import DataModel.Proofs.Source.Collecting

/-!
What a read gives on the events of a node, if it accepts them. A scalar gives its event, a list of
scalars gives theirs, and a section gives what its draft is completed to.
-/
namespace DataModel.Source.Read
variable {α β σ : Type} {es node : List Event} {x : Read α}

/-- What a read gives on some events, if they are accepted. -/
def given (x : Read α) (es : List Event) : Option α := (x.alone es).toOption

theorem given_eq_some {a : α} : x.given es = some a ↔ x.alone es = .ok a := by
  rw [given]
  cases x.alone es with
  | error y => exact ⟨nofun, nofun⟩
  | ok b =>
      constructor
      · rintro ⟨⟩
        rfl
      · rintro ⟨⟩
        rfl

theorem Reads.given_eq {result : Except Rejection α} (h : Reads es result x) :
    x.given es = result.toOption := by
  rw [given, h.alone_eq]

section Following
variable {f : α → Read β}

theorem given_map (x : Read α) (g : α → β) (es : List Event) :
    (x >>= fun a => pure (g a)).given es = (x.given es).map g := by
  rw [given, given, alone, alone, run_bind]
  cases x.run ⟨[], es, ⟨.streamEnd, "", 1, 1⟩⟩ with
  | mk result r => cases result <;> rfl

/-- Behind a read, what leaves the reader where it is gives the same on no events. -/
theorem given_settle (settles : ∀ a, ∃ e, Settles e (f a)) (es : List Event) :
    (x >>= f).given es = (x.given es).bind fun a => (f a).given [] := by
  rw [given, given, alone, alone, run_bind]
  cases x.run ⟨[], es, ⟨.streamEnd, "", 1, 1⟩⟩ with
  | mk result r =>
      cases result with
      | error y => rfl
      | ok a =>
          obtain ⟨e, result, still, -⟩ := settles a
          show ((f a).run r).1.toOption = ((f a).run _).1.toOption
          rw [still, still]

theorem given_current (f : Event → Read α) (e : Event) (es : List Event) :
    (current >>= f).given (e :: es) = (f e).given (e :: es) := rfl

theorem given_require (value : Option α) (key what : String) (e : Event) (es : List Event) :
    (require value key what e >>= f).given es = value.bind fun a => (f a).given es := by
  cases value <;> rfl

theorem given_reject (problem : Problem) (e : Event) (es : List Event) :
    (reject problem e : Read α).given es = none := rfl

theorem given_pure (a : α) (es : List Event) : (pure a : Read α).given es = some a := rfl

/-- A section gives what its draft is completed to. -/
theorem given_section {tail : Event → α → Read β}
    (settles : ∀ start a, Settles start (tail start a)) (e : Event) (es : List Event) :
    (current >>= fun start => x >>= tail start).given (e :: es) =
      (x.given (e :: es)).bind fun a => (tail e a).given [] := by
  rw [given_current, given_settle fun a => ⟨e, settles e a⟩]

end Following

section Scalars

/-- The scalar that some events start with. -/
def scalar? (es : List Event) : Option Event := es.head?.filter (·.kind == .scalar)

theorem scalar_given (es : List Event) : Read.scalar.given es = scalar? es := by
  rw [given, alone, Read.scalar, run_expect, scalar?]
  cases es with
  | nil => rfl
  | cons e es =>
      show (if [Event.Kind.scalar].contains e.kind then (.ok e, _) else _ :
        Except Rejection Event × Reader).1.toOption = if e.kind == .scalar then some e else none
      by_cases kind : e.kind = .scalar
      · rw [if_pos (by simp [kind]), if_pos (by simp [kind])]
        rfl
      · rw [if_neg (by simpa using kind), if_neg (by simpa using kind)]
        rfl

/-- A scalar and what is made of it. -/
theorem given_scalar {f : Event → Read α} {g : Event → Option α}
    (gives : ∀ e r, ((f e).run r).1.toOption = g e) (es : List Event) :
    (Read.scalar >>= f).given es = (scalar? es).bind g := by
  rw [← scalar_given, given, given, alone, alone, run_bind]
  cases Read.scalar.run ⟨[], es, ⟨.streamEnd, "", 1, 1⟩⟩ with
  | mk result r =>
      cases result with
      | error y => rfl
      | ok e => exact gives e r

theorem string_given (es : List Event) : string.given es = (scalar? es).map (·.value) := by
  rw [← scalar_given]
  exact given_map _ _ es

theorem boolean_given (es : List Event) : boolean.given es = (scalar? es).bind fun e =>
    if e.value == "true" then some true else if e.value == "false" then some false else none := by
  refine given_scalar (fun e r => ?_) es
  split
  · rfl
  · split
    · rfl
    · rfl

theorem integer_given (es : List Event) :
    integer.given es = (scalar? es).bind fun e => (Text.readInteger 10 e.value).toOption := by
  refine given_scalar (fun e r => ?_) es
  cases Text.readInteger 10 e.value with
  | error _ => rfl
  | ok n => rfl

theorem word_given (values : List (String × α)) (es : List Event) :
    (word values).given es = (scalar? es).bind fun e => values.lookup e.value := by
  refine given_scalar (fun e r => ?_) es
  cases values.lookup e.value with
  | none => rfl
  | some a => rfl

end Scalars

section Lists

theorem scalar?_eq_some {e : Event} (nested : Nested .node es) :
    scalar? es = some e ↔ e.kind = .scalar ∧ es = [e] := by
  obtain ⟨first, rest, rfl, -⟩ := nested.head_of_node
  show (some first).filter (·.kind == .scalar) = some e ↔ _
  rw [Option.filter_eq_some_iff]
  constructor
  · rintro ⟨⟨⟩, kind⟩
    have kind := beq_iff_eq.mp kind
    exact ⟨kind, by rw [nested.of_scalar kind]⟩
  · rintro ⟨kind, same⟩
    cases same
    exact ⟨rfl, beq_iff_eq.mpr kind⟩

theorem filter_scalars {nodes : List (List Event)} (each : ∀ node ∈ nodes, IsScalar node) :
    nodes.flatten.filter (·.kind == .scalar) = nodes.flatten := by
  refine List.filter_eq_self.mpr fun e member => ?_
  obtain ⟨node, inside, here⟩ := List.mem_flatten.mp member
  obtain ⟨e', kind, rfl⟩ := each node inside
  rw [List.mem_singleton.mp here]
  exact beq_iff_eq.mpr kind

theorem Collects.scalars {nodes : List (List Event)} {before all : List Event}
    (h : Collects (fun _ read => return read ++ [← Read.scalar]) before nodes all) :
    all = before ++ nodes.flatten := by
  induction h with
  | nil => exact (List.append_nil _).symm
  | cons node reads _ ih =>
      have given := reads.given_eq
      rw [given_map, scalar_given] at given
      obtain ⟨e, found, rfl⟩ := Option.map_eq_some_iff.mp given
      obtain ⟨-, same⟩ := (scalar?_eq_some node).mp found
      rw [ih, List.flatten_cons, same, List.append_assoc]

/-- A list of scalars gives all the scalars in it. -/
theorem scalars_given (nested : Nested .node es) {all : List Event} :
    scalars.given es = some all ↔ IsScalars es ∧ all = es.filter (·.kind == .scalar) := by
  have whole : ∀ all, scalars.given es = some all → all = es.filter (·.kind == .scalar) := by
    intro all given
    obtain ⟨e, rest, rfl, -⟩ := nested.head_of_node
    by_cases kind : e.kind = .scalar
    · obtain rfl := nested.of_scalar kind
      have single : scalars.given [e] = some [e] := by
        rw [given_eq_some, alone, run_scalars]
        exact congrArg Prod.fst (if_pos kind)
      cases single.symm.trans given
      rw [List.filter_cons_of_pos (by simp [kind]), List.filter_nil]
    · rw [given_eq_some, scalars_alone_other kind] at given
      obtain ⟨nodes, all', ⟨start, finish, opens, closes, same⟩, collects, reads⟩ | ⟨y, reads⟩ :=
        eachItem_reads (fun _ _ => scalar_takes.map _) nested []
      · cases reads.alone_eq.symm.trans given
        rw [same, List.filter_cons_of_neg (by simp [opens]), List.filter_append,
          filter_scalars (collects_scalars.mp ⟨_, collects⟩), collects.scalars]
        simp [closes]
      · cases reads.alone_eq.symm.trans given
  constructor
  · intro given
    exact ⟨(scalars_accepts nested).mp ⟨all, given_eq_some.mp given⟩, whole all given⟩
  · rintro ⟨list, rfl⟩
    obtain ⟨all, accepted⟩ := (scalars_accepts nested).mpr list
    have given := given_eq_some.mpr accepted
    rw [given, whole all given]

end Lists

end DataModel.Source.Read
