import DataModel.Proofs.Source.Consuming

/-!
Reading collections. Each turn of a mapping consumes a key and the node of its value, each turn of a
sequence one node, so the number of events left bounds the number of turns. A collection is accepted
when its keys and values, or its items, are accepted one after the other.
-/
namespace DataModel.Source.Read
variable {α β σ : Type} {es es' : List Event} {result : Except Rejection α} {x : Read α}

section Walking
variable {body : Event → σ → Read σ} {r : Reader}

theorem run_nextKey (r : Reader) : nextKey.run r =
    if r.current.kind = .mappingEnd then (.ok none, r.advance)
    else (Read.scalar >>= fun e => pure (some e)).run r := by
  show (if [Event.Kind.mappingEnd].contains r.current.kind then
    (discard advance >>= fun _ => pure none) else _ : Read (Option Event)).run r = _
  by_cases ended : r.current.kind = .mappingEnd
  · rw [if_pos (by simp [ended]), if_pos ended]
    rfl
  · rw [if_neg (by simpa using ended), if_neg ended]

theorem run_nextItem (r : Reader) : nextItem.run r =
    if r.current.kind = .sequenceEnd then (.ok none, r.advance) else (.ok (some r.current), r) := by
  show (if [Event.Kind.sequenceEnd].contains r.current.kind then
    (discard advance >>= fun _ => pure none) else _ : Read (Option Event)).run r = _
  by_cases ended : r.current.kind = .sequenceEnd
  · rw [if_pos (by simp [ended]), if_pos ended]
    rfl
  · rw [if_neg (by simpa using ended), if_neg ended]
    rfl

theorem nextKey_cases (closed : r.stop.kind = .streamEnd) :
    (∃ e rest, r.rest = e :: rest ∧ e.kind = .mappingEnd ∧
      nextKey.run r = (.ok none, ⟨e :: r.passed, rest, r.stop⟩)) ∨
    (∃ e rest, r.rest = e :: rest ∧ e.kind = .scalar ∧
      nextKey.run r = (.ok (some e), ⟨e :: r.passed, rest, r.stop⟩)) ∨
    ∃ y : Rejection, y.IsAt r.current ∧ nextKey.run r = (.error y, r) := by
  rw [run_nextKey]
  by_cases ended : r.current.kind = .mappingEnd
  · obtain ⟨e, rest, here, onward, kind⟩ := rest_of_current closed ended nofun
    rw [if_pos ended, onward]
    exact .inl ⟨e, rest, here, kind, rfl⟩
  · rw [if_neg ended, run_bind, Read.scalar]
    obtain ⟨e, rest, here, kind, run⟩ | ⟨y, there, run⟩ := expect_cases closed [.scalar] (by decide)
    · rw [run]
      exact .inr (.inl ⟨e, rest, here, List.mem_singleton.mp kind, rfl⟩)
    · rw [run]
      exact .inr (.inr ⟨y, there, rfl⟩)

theorem nextItem_cases (closed : r.stop.kind = .streamEnd) :
    (∃ e rest, r.rest = e :: rest ∧ e.kind = .sequenceEnd ∧
      nextItem.run r = (.ok none, ⟨e :: r.passed, rest, r.stop⟩)) ∨
    nextItem.run r = (.ok (some r.current), r) := by
  rw [run_nextItem]
  by_cases ended : r.current.kind = .sequenceEnd
  · obtain ⟨e, rest, here, onward, kind⟩ := rest_of_current closed ended nofun
    rw [if_pos ended, onward]
    exact .inl ⟨e, rest, here, kind, rfl⟩
  · rw [if_neg ended]
    exact .inr rfl

/-- The next key of a mapping is the scalar that comes next. -/
theorem Reads.onKey {f : Option Event → Read α} {e : Event} (kind : e.kind = .scalar)
    (h : Reads es result (f (some e))) : Reads (e :: es) result (nextKey >>= f) := by
  have scalar : Reads [e] (.ok (some e)) (Read.scalar >>= fun e => pure (some e)) :=
    (expect_reads (List.mem_singleton.mpr kind)).settle fun _ => rfl
  have key : Reads [e] (.ok (some e)) Read.nextKey := scalar.congr fun r here => by
    rw [run_nextKey, if_neg (by rw [here, kind]; nofun)]
  exact key.bind h

/-- What is no scalar is no key. -/
theorem Reads.refusedKey {f : Option Event → Read α} {e : Event} (inside : e.kind ≠ .mappingEnd)
    (kind : e.kind ≠ .scalar) (es : List Event) :
    Reads (e :: es) (.error (.at (.unexpected [.scalar] e) e)) (Read.nextKey >>= f) := by
  have wrong := expect_rejects (mt List.mem_singleton.mp kind) []
  have key := wrong.reject (f := fun e => pure (some e)) []
  refine (key.congr fun r here => ?_).reject es
  rw [run_nextKey, if_neg (here ▸ inside)]
  rfl

/-- The next item of a sequence is what comes next, and is not consumed. -/
theorem Reads.onItem {f : Option Event → Read α} {e : Event} (kind : e.kind ≠ .sequenceEnd)
    (h : Reads (e :: es) result (f (some e))) : Reads (e :: es) result (nextItem >>= f) :=
  h.congr fun r here => by rw [run_bind, run_nextItem, if_neg (here ▸ kind), here]

theorem Reads.noKey {e : Event} (kind : e.kind = .mappingEnd) :
    Reads [e] (.ok none) Read.nextKey := by
  refine fun passed after stop => ⟨_, ?_, fun _ _ => rfl⟩
  rw [run_nextKey]
  exact if_pos kind

theorem Reads.noItem {e : Event} (kind : e.kind = .sequenceEnd) :
    Reads [e] (.ok none) Read.nextItem := by
  refine fun passed after stop => ⟨_, ?_, fun _ _ => rfl⟩
  rw [run_nextItem]
  exact if_pos kind

/-- What reads the value of a key: a read of one node, or a refusal of the key. -/
def TakesValue (key : Event) (x : Read α) : Prop :=
  TakesNode x ∨ ∃ problem : Problem, problem ≠ .endless ∧ x = reject problem key

namespace TakesValue
variable {key : Event}

theorem ends (h : TakesValue key x) (closed : r.stop.kind = .streamEnd) (member : key ∈ r.events) :
    Ends .node r (x.run r) := by
  obtain takes | ⟨problem, reading, rfl⟩ := h
  · exact takes.ends r closed
  · exact ⟨key, member, Rejection.isAt reading key⟩

theorem alone (h : TakesValue key x) (nested : Nested .node es) : Alone es x := by
  obtain takes | ⟨problem, -, rfl⟩ := h
  · exact takes.alone es nested
  · exact ⟨_, reject_reads problem key es⟩

end TakesValue

/-- Every turn consumes a key and its value, so the fuel suffices. -/
theorem items_nextKey_ends (takes : ∀ e s, TakesValue e (body e s)) (fuel : Nat) (s : σ)
    (closed : r.stop.kind = .streamEnd) (enough : r.rest.length < fuel) :
    Ends .entries r ((items nextKey body fuel s).run r) := by
  induction fuel generalizing s r with
  | zero => exact absurd enough (Nat.not_lt_zero _)
  | succ fuel ih =>
      rw [items, run_bind]
      obtain ⟨e, rest, here, kind, run⟩ | ⟨e, rest, here, kind, run⟩ | ⟨y, there, run⟩ :=
        nextKey_cases closed
      · rw [run]
        exact ⟨[e], .noEntry kind, here, rfl, rfl⟩
      · rw [run]
        have key : r.Passes [e] ⟨e :: r.passed, rest, r.stop⟩ := ⟨here, rfl, rfl⟩
        have member : e ∈ r.events := r.mem_events_of_rest (by rw [here]; exact List.mem_cons_self)
        have value := (takes e s).ends (r := ⟨e :: r.passed, rest, r.stop⟩) closed
          (key.events.symm ▸ member)
        refine value.bind key.events fun s' r' v value passes => ?_
        have left : rest.length = v.length + r'.rest.length := by
          rw [← List.length_append, ← passes.rest]
        rw [here, List.length_cons] at enough
        have onward := ih s' (passes.stop.symm ▸ closed) (by omega)
        refine onward.passed (key.trans passes) fun es entries => ?_
        rw [List.append_assoc]
        exact .entry (.scalar kind) value entries
      · rw [run]
        exact ⟨r.current, r.current_mem, there⟩

/-- Every turn consumes an item, so the fuel suffices. -/
theorem items_nextItem_ends (takes : ∀ e s, TakesNode (body e s)) (fuel : Nat) (s : σ)
    (closed : r.stop.kind = .streamEnd) (enough : r.rest.length < fuel) :
    Ends .items r ((items nextItem body fuel s).run r) := by
  induction fuel generalizing s r with
  | zero => exact absurd enough (Nat.not_lt_zero _)
  | succ fuel ih =>
      rw [items, run_bind]
      obtain ⟨e, rest, here, kind, run⟩ | run := nextItem_cases closed
      · rw [run]
        exact ⟨[e], .noItem kind, here, rfl, rfl⟩
      · rw [run]
        refine ((takes r.current s).ends r closed).bind rfl fun s' r' n node passes => ?_
        have left : r.rest.length = n.length + r'.rest.length := by
          rw [← List.length_append, ← passes.rest]
        have some : 0 < n.length := List.length_pos_iff.mpr node.ne_nil
        have onward := ih s' (passes.stop.symm ▸ closed) (by omega)
        exact onward.passed passes fun es items => .item node items

/-- How a draft goes through the entries of a mapping when every value is accepted. -/
inductive Follows (body : Event → σ → Read σ) : σ → List (Event × List Event) → σ → Prop
  | nil (s : σ) : Follows body s [] s
  | cons {key : Event} {value : List Event} {entries : List (Event × List Event)} {s s' s'' : σ}
    (kind : key.kind = .scalar) (node : Nested .node value)
    (reads : Reads value (.ok s') (body key s)) (rest : Follows body s' entries s'') :
    Follows body s ((key, value) :: entries) s''

/-- How a draft goes through the items of a sequence when every item is accepted. -/
inductive Collects (body : Event → σ → Read σ) : σ → List (List Event) → σ → Prop
  | nil (s : σ) : Collects body s [] s
  | cons {e : Event} {more : List Event} {items : List (List Event)} {s s' s'' : σ}
    (node : Nested .node (e :: more)) (reads : Reads (e :: more) (.ok s') (body e s))
    (rest : Collects body s' items s'') : Collects body s ((e :: more) :: items) s''

/-- A turn leaves the fuel that the entries behind it need. -/
theorem Reads.turnKey {result : Except Rejection σ} {e : Event} {v : List Event} {s s' : σ}
    (kind : e.kind = .scalar)
    (first : Reads v (.ok s') (body e s))
    (h : ∀ spare, Reads es result (items nextKey body (spare + es.length) s')) (spare : Nat) :
    Reads (e :: (v ++ es)) result
      (items nextKey body (spare + (e :: (v ++ es)).length) s) := by
  have rest := h (spare + v.length)
  rw [Nat.add_assoc, ← List.length_append] at rest
  exact .onKey kind (first.bind rest)

/-- A turn leaves the fuel that the items behind it need. -/
theorem Reads.turnItem {result : Except Rejection σ} {e : Event} {more : List Event} {s s' : σ}
    (node : Nested .node (e :: more))
    (first : Reads (e :: more) (.ok s') (body e s))
    (h : ∀ spare, Reads es result (items nextItem body (spare + es.length) s')) (spare : Nat) :
    Reads (e :: more ++ es) result (items nextItem body (spare + (e :: more ++ es).length) s) := by
  have rest := h (spare + more.length)
  rw [Nat.add_assoc, ← List.length_append] at rest
  exact .onItem (node.node_of_end (List.append_nil _).symm).1 (first.bind rest)

theorem Follows.reads {s s' : σ} {entries : List (Event × List Event)} {finish : Event}
    (h : Follows body s entries s') (kind : finish.kind = .mappingEnd) (spare : Nat) :
    Reads (entries.flatMap (fun x => x.1 :: x.2) ++ [finish]) (.ok s') (items nextKey body
      (spare + (entries.flatMap (fun x => x.1 :: x.2) ++ [finish]).length) s) := by
  induction h generalizing spare with
  | nil s => exact (Reads.noKey kind).settle fun _ => rfl
  | cons scalar node reads _ ih =>
      rw [List.flatMap_cons, List.append_assoc]
      exact .turnKey scalar reads ih spare

theorem Collects.reads {s s' : σ} {nodes : List (List Event)} {finish : Event}
    (h : Collects body s nodes s') (kind : finish.kind = .sequenceEnd) (spare : Nat) :
    Reads (nodes.flatten ++ [finish]) (.ok s')
      (items nextItem body (spare + (nodes.flatten ++ [finish]).length) s) := by
  induction h generalizing spare with
  | nil s => exact (Reads.noItem kind).settle fun _ => rfl
  | cons node reads _ ih =>
      rw [List.flatten_cons, List.append_assoc]
      exact .turnItem node reads ih spare

/-- What the entries of a mapping give, with whatever fuel suffices: they are accepted one after the
other, or rejected. -/
theorem items_nextKey_reads (takes : ∀ e s, TakesValue e (body e s)) (nested : Nested .entries es)
    (s : σ) :
    (∃ entries finish s', finish.kind = .mappingEnd ∧
      es = entries.flatMap (fun x => x.1 :: x.2) ++ [finish] ∧ Follows body s entries s') ∨
    ∃ y, ∀ spare, Reads es (.error y) (items nextKey body (spare + es.length) s) := by
  generalize part : Part.entries = p at nested
  induction nested generalizing s with
  | noEntry kind => exact .inl ⟨[], _, s, kind, rfl, .nil s⟩
  | @entry k v es key value rest _ _ ih =>
      obtain ⟨e, more, rfl, -⟩ := key.head_of_node
      by_cases kind : e.kind = .scalar
      · obtain rfl := key.of_scalar kind
        obtain ⟨y | s', reads⟩ := (takes e s).alone value
        · exact .inr ⟨y, fun spare => .onKey kind (reads.reject es)⟩
        · obtain ⟨entries, finish, s'', ends, rfl, follows⟩ | ⟨y, onward⟩ := ih s' part
          · exact .inl ⟨(e, v) :: entries, finish, s'', ends, by simp, .cons kind value reads follows⟩
          · exact .inr ⟨y, .turnKey (v := v) kind reads onward⟩
      · have inside := (key.node_of_end (List.append_nil _).symm).2
        exact .inr ⟨_, fun spare => .refusedKey inside kind _⟩
  | _ => cases part

/-- What the items of a sequence give, with whatever fuel suffices: they are accepted one after the
other, or rejected. -/
theorem items_nextItem_reads (takes : ∀ e s, TakesNode (body e s)) (nested : Nested .items es)
    (s : σ) :
    (∃ nodes finish s', finish.kind = .sequenceEnd ∧ es = nodes.flatten ++ [finish] ∧
      Collects body s nodes s') ∨
    ∃ y, ∀ spare, Reads es (.error y) (items nextItem body (spare + es.length) s) := by
  generalize part : Part.items = p at nested
  induction nested generalizing s with
  | noItem kind => exact .inl ⟨[], _, s, kind, rfl, .nil s⟩
  | @item n es first rest _ ih =>
      obtain ⟨e, more, rfl, -⟩ := first.head_of_node
      have inside := (first.node_of_end (List.append_nil _).symm).1
      obtain ⟨y | s', reads⟩ := (takes e s).alone _ first
      · exact .inr ⟨y, fun spare => .onItem inside (reads.reject es)⟩
      · obtain ⟨nodes, finish, s'', ends, rfl, collects⟩ | ⟨y, onward⟩ := ih s' part
        · exact .inl ⟨(e :: more) :: nodes, finish, s'', ends, by simp, .cons first reads collects⟩
        · exact .inr ⟨y, .turnItem first reads onward⟩
  | _ => cases part

theorem enter_cases (closed : r.stop.kind = .streamEnd) (mapping : Bool) :
    (∃ e rest, r.rest = e :: rest ∧ e.kind = opening mapping ∧
      (enter mapping).run r = (.ok (), ⟨e :: r.passed, rest, r.stop⟩)) ∨
    ∃ y : Rejection, y.IsAt r.current ∧ (enter mapping).run r = (.error y, r) := by
  rw [enter, discard_eq, run_bind]
  have inside : Event.Kind.streamEnd ∉
      [if mapping then Event.Kind.mappingStart else .sequenceStart] := by
    cases mapping <;> decide
  obtain ⟨e, rest, here, kind, run⟩ | ⟨y, there, run⟩ := expect_cases closed _ inside
  · rw [run]
    exact .inl ⟨e, rest, here, List.mem_singleton.mp kind, rfl⟩
  · rw [run]
    exact .inr ⟨y, there, rfl⟩

/-- A collection is read by its first event and then by what is inside it. -/
theorem Reads.enter {x : Nat → Read α} {mapping : Bool} {e : Event} (kind : e.kind = opening mapping)
    (h : ∀ spare, Reads es result (x (spare + es.length))) :
    Reads (e :: es) result (Read.enter mapping >>= fun _ => bound >>= x) := by
  have entered : Reads [e] (.ok ()) (Read.enter mapping) :=
    (expect_reads (List.mem_singleton.mpr kind)).settle fun _ => rfl
  refine entered.bind fun passed after stop => ?_
  have enough : after.length + 1 + es.length = (es ++ after).length + 1 := by
    rw [List.length_append]
    omega
  have onward := h (after.length + 1) passed after stop
  rw [enough] at onward
  exact onward

/-- Where the collection does not start, reading it is rejected. -/
theorem Reads.notEntered {x : Nat → Read α} {mapping : Bool} {e : Event}
    (kind : e.kind ≠ opening mapping) (es : List Event) :
    ∃ y, Reads (e :: es) (.error y) (Read.enter mapping >>= fun _ => bound >>= x) :=
  have wrong := expect_rejects (mt List.mem_singleton.mp kind) []
  ⟨_, (wrong.reject []).reject es⟩

theorem ends_enter {x : Nat → Read α} (closed : r.stop.kind = .streamEnd) (mapping : Bool)
    (inside : ∀ r : Reader, r.stop.kind = .streamEnd →
      Ends (inner mapping) r ((x (r.rest.length + 1)).run r)) :
    Ends .node r ((Read.enter mapping >>= fun _ => bound >>= x).run r) := by
  rw [run_bind]
  obtain ⟨e, rest, here, kind, run⟩ | ⟨y, there, run⟩ := enter_cases closed mapping
  · have first : r.Passes [e] ⟨e :: r.passed, rest, r.stop⟩ := ⟨here, rfl, rfl⟩
    have onward := inside ⟨e :: r.passed, rest, r.stop⟩ closed
    rw [run]
    exact onward.passed first fun es nested => .opened kind nested
  · rw [run]
    exact ⟨r.current, r.current_mem, there⟩

/-- A mapping is accepted when its values are accepted one after the other, and else rejected. -/
theorem eachKey_reads (takes : ∀ e s, TakesValue e (body e s)) (nested : Nested .node es) (s : σ) :
    (∃ entries s', IsMapping entries es ∧ Follows body s entries s' ∧
      Reads es (.ok s') (eachKey body s)) ∨
    ∃ y, Reads es (.error y) (eachKey body s) := by
  obtain ⟨e, rest, rfl, -⟩ := nested.head_of_node
  by_cases kind : e.kind = opening true
  · obtain ⟨entries, finish, s', ends, rfl, follows⟩ | ⟨y, reads⟩ :=
      items_nextKey_reads takes (nested.inside kind) s
    · exact .inl ⟨entries, s', ⟨e, finish, kind, ends, rfl⟩, follows,
        .enter kind (follows.reads ends)⟩
    · exact .inr ⟨y, .enter kind reads⟩
  · exact .inr (Reads.notEntered kind rest)

theorem eachItem_reads (takes : ∀ e s, TakesNode (body e s)) (nested : Nested .node es) (s : σ) :
    (∃ nodes s', IsSequence nodes es ∧ Collects body s nodes s' ∧
      Reads es (.ok s') (eachItem body s)) ∨
    ∃ y, Reads es (.error y) (eachItem body s) := by
  obtain ⟨e, rest, rfl, -⟩ := nested.head_of_node
  by_cases kind : e.kind = opening false
  · obtain ⟨nodes, finish, s', ends, rfl, collects⟩ | ⟨y, reads⟩ :=
      items_nextItem_reads takes (nested.inside kind) s
    · exact .inl ⟨nodes, s', ⟨e, finish, kind, ends, rfl⟩, collects,
        .enter kind (collects.reads ends)⟩
    · exact .inr ⟨y, .enter kind reads⟩
  · exact .inr (Reads.notEntered kind rest)

theorem TakesNode.eachKey (takes : ∀ e s, TakesValue e (body e s)) (s : σ) :
    TakesNode (eachKey body s) where
  ends _ closed := ends_enter closed true fun _ closed =>
    items_nextKey_ends takes _ s closed (Nat.lt_succ_self _)
  alone _ nested := by
    obtain ⟨_, s', -, -, reads⟩ | ⟨y, reads⟩ := eachKey_reads takes nested s
    · exact ⟨_, reads⟩
    · exact ⟨_, reads⟩

theorem TakesNode.eachItem (takes : ∀ e s, TakesNode (body e s)) (s : σ) :
    TakesNode (eachItem body s) where
  ends _ closed := ends_enter closed false fun _ closed =>
    items_nextItem_ends takes _ s closed (Nat.lt_succ_self _)
  alone _ nested := by
    obtain ⟨_, s', -, -, reads⟩ | ⟨y, reads⟩ := eachItem_reads takes nested s
    · exact ⟨_, reads⟩
    · exact ⟨_, reads⟩

/-- A mapping is accepted exactly when its values are, one after the other. -/
theorem eachKey_alone (takes : ∀ e s, TakesValue e (body e s)) (nested : Nested .node es) {s s' : σ} :
    (eachKey body s).alone es = .ok s' ↔
      ∃ entries, IsMapping entries es ∧ Follows body s entries s' := by
  constructor
  · intro given
    obtain ⟨entries, s'', shape, follows, reads⟩ | ⟨y, reads⟩ := eachKey_reads takes nested s
    · cases reads.alone_eq.symm.trans given
      exact ⟨entries, shape, follows⟩
    · cases reads.alone_eq.symm.trans given
  · rintro ⟨entries, ⟨start, finish, opens, closes, rfl⟩, follows⟩
    have reads : Reads (start :: (entries.flatMap (fun x => x.1 :: x.2) ++ [finish])) (.ok s')
        (eachKey body s) := .enter opens (follows.reads closes)
    exact reads.alone_eq

/-- How a section reads the value of one key. -/
def field (what : String) (known : Fields σ) (key : Event) (draft : σ) : Read σ :=
  match known key.value with
  | some read => read draft
  | none => reject (.unknownProperty key.value what) key

theorem fields_eq (what : String) (known : Fields σ) :
    fields what known = eachKey (field what known) := rfl

/-- Every field of a section takes the node of its value. -/
def Fields.Take (known : Fields σ) : Prop :=
  ∀ key read, known key = some read → ∀ d, TakesNode (read d)

theorem Fields.Take.field {known : Fields σ} (take : known.Take) (what : String) (key : Event)
    (draft : σ) : TakesValue key (field what known key draft) := by
  unfold Read.field
  split
  · next read found => exact .inl (take _ read found draft)
  · exact .inr ⟨_, by simp, rfl⟩

theorem Fields.Take.takes {known : Fields σ} (take : known.Take) (what : String) (draft : σ) :
    TakesNode (fields what known draft) := by
  rw [fields_eq]
  exact .eachKey (take.field what) draft

end Walking

section Lists

/-- Where a scalar stands it is read alone, and else a sequence is. -/
theorem run_scalars (r : Reader) : scalars.run r =
    if r.current.kind = .scalar then (.ok [r.current], r.advance)
    else (eachItem (fun _ read => return read ++ [← Read.scalar]) []).run r := by
  show (if [Event.Kind.scalar].contains r.current.kind then
    (advance >>= fun e => pure [e]) else _ : Read (List Event)).run r = _
  by_cases alone : r.current.kind = .scalar
  · rw [if_pos (by simp [alone]), if_pos alone]
    rfl
  · rw [if_neg (by simpa using alone), if_neg alone]

theorem scalars_takes : TakesNode scalars := by
  have sequence : TakesNode (eachItem (fun _ read => return read ++ [← Read.scalar]) []) :=
    .eachItem (fun _ _ => scalar_takes.map _) []
  constructor
  · intro r closed
    rw [run_scalars]
    split
    · next kind =>
      obtain ⟨e, rest, here, onward, kind⟩ := rest_of_current closed kind nofun
      rw [onward]
      exact ⟨[e], .scalar kind, here, rfl, rfl⟩
    · exact sequence.ends r closed
  · intro es nested
    obtain ⟨e, rest, rfl, -⟩ := nested.head_of_node
    by_cases kind : e.kind = .scalar
    · obtain rfl := nested.of_scalar kind
      refine ⟨.ok [e], fun passed after stop => ⟨_, ?_, fun _ _ => rfl⟩⟩
      rw [run_scalars]
      exact if_pos kind
    · refine (sequence.alone _ nested).congr fun r here => ?_
      rw [run_scalars, if_neg (here ▸ kind)]

theorem strings_takes : TakesNode strings := scalars_takes.map _

end Lists

section Accepting

/-- A read accepts some events when they alone are no reason to reject. -/
def Accepts (x : Read α) (es : List Event) : Prop := ∃ a, x.alone es = .ok a

theorem TakesNode.reads_map {a : α} (takes : TakesNode x) (nested : Nested .node es)
    (given : x.alone es = .ok a) (g : α → β) :
    Reads es (.ok (g a)) (x >>= fun a => pure (g a)) :=
  ((takes.alone es nested).reads_iff.mpr given).settle fun _ => rfl

theorem TakesNode.alone_map (takes : TakesNode x) (nested : Nested .node es) (g : α → β) :
    (x >>= fun a => pure (g a)).alone es = (x.alone es).map g := by
  obtain ⟨y | a, reads⟩ := takes.alone es nested
  · have rejected := (reads.reject (f := fun a => pure (g a)) []).alone_eq
    rw [List.append_nil] at rejected
    rw [rejected, reads.alone_eq]
    rfl
  · rw [(takes.reads_map nested reads.alone_eq g).alone_eq, reads.alone_eq]
    rfl

theorem TakesNode.of_alone_map (takes : TakesNode x) (nested : Nested .node es) {g : α → β} {b : β}
    (given : (x >>= fun a => pure (g a)).alone es = .ok b) : ∃ a, x.alone es = .ok a ∧ b = g a := by
  rw [takes.alone_map nested] at given
  cases known : x.alone es with
  | error y =>
      rw [known] at given
      cases given
  | ok a =>
      rw [known] at given
      cases given
      exact ⟨a, rfl, rfl⟩

theorem TakesNode.accepts_map (takes : TakesNode x) (nested : Nested .node es) (g : α → β) :
    Accepts (x >>= fun a => pure (g a)) es ↔ Accepts x es := by
  rw [Accepts, Accepts, takes.alone_map nested]
  cases x.alone es <;> simp [Except.map]

theorem scalar_accepts (nested : Nested .node es) : Accepts Read.scalar es ↔ IsScalar es := by
  obtain ⟨e, rest, rfl, -⟩ := nested.head_of_node
  by_cases kind : e.kind = .scalar
  · obtain rfl := nested.of_scalar kind
    have accepted := (expect_reads (List.mem_singleton.mpr kind)).alone_eq
    exact ⟨fun _ => ⟨e, kind, rfl⟩, fun _ => ⟨e, accepted⟩⟩
  · have rejected := (expect_rejects (mt List.mem_singleton.mp kind) rest).alone_eq
    constructor
    · rintro ⟨a, given⟩
      cases rejected.symm.trans given
    · rintro ⟨e', kind', same⟩
      cases same
      exact absurd kind' kind

/-- Items that are all scalars are collected, and no others are. -/
theorem collects_scalars {nodes : List (List Event)} {before : List Event} :
    (∃ all, Collects (fun _ read => return read ++ [← Read.scalar]) before nodes all) ↔
      ∀ node ∈ nodes, IsScalar node := by
  constructor
  · rintro ⟨all, collects⟩
    induction collects with
    | nil => exact fun _ none => absurd none List.not_mem_nil
    | cons node reads _ ih =>
        refine List.forall_mem_cons.mpr ⟨(scalar_accepts node).mp ?_, ih⟩
        exact (scalar_takes.accepts_map node _).mp ⟨_, reads.alone_eq⟩
  · intro each
    induction nodes generalizing before with
    | nil => exact ⟨before, .nil before⟩
    | cons node nodes ih =>
        obtain ⟨⟨e, kind, rfl⟩, others⟩ := List.forall_mem_cons.mp each
        obtain ⟨all, rest⟩ := @ih (before ++ [e]) others
        have scalar := expect_reads (List.mem_singleton.mpr kind)
        exact ⟨all, .cons (.scalar kind) (scalar.settle fun _ => rfl) rest⟩

/-- Where no scalar stands, a list of scalars is a sequence. -/
theorem scalars_alone_other {e : Event} (kind : e.kind ≠ .scalar) (rest : List Event) :
    scalars.alone (e :: rest) =
      (eachItem (fun _ read => return read ++ [← Read.scalar]) []).alone (e :: rest) := by
  rw [alone, run_scalars]
  exact congrArg Prod.fst (if_neg kind)

theorem scalars_accepts (nested : Nested .node es) : Accepts scalars es ↔ IsScalars es := by
  obtain ⟨e, rest, rfl, -⟩ := nested.head_of_node
  by_cases kind : e.kind = .scalar
  · obtain rfl := nested.of_scalar kind
    refine ⟨fun _ => .inl ⟨e, kind, rfl⟩, fun _ => ⟨[e], ?_⟩⟩
    rw [alone, run_scalars]
    exact congrArg Prod.fst (if_pos kind)
  · rw [Accepts, scalars_alone_other kind]
    constructor
    · rintro ⟨all, given⟩
      obtain ⟨nodes, _, shape, collects, -⟩ | ⟨y, reads⟩ :=
        eachItem_reads (fun _ _ => scalar_takes.map _) nested []
      · exact .inr ⟨nodes, shape, collects_scalars.mp ⟨_, collects⟩⟩
      · cases reads.alone_eq.symm.trans given
    · rintro (⟨e', kind', same⟩ | ⟨nodes, ⟨start, finish, opens, closes, same⟩, each⟩)
      · cases same
        exact absurd kind' kind
      · obtain ⟨all, collects⟩ := collects_scalars.mpr each
        have reads : Reads (start :: (nodes.flatten ++ [finish])) (.ok all)
            (eachItem (fun _ read => return read ++ [← Read.scalar]) []) :=
          .enter opens (collects.reads closes)
        exact ⟨all, same ▸ reads.alone_eq⟩

end Accepting

end DataModel.Source.Read
