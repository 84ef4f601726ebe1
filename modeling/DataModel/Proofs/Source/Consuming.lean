import DataModel.Proofs.Source.Nesting
import DataModel.Proofs.Source.Reading

/-!
Reads that take one node. Such a read ends wherever it starts: it is rejected at one of the events,
or it goes on over a node and nothing else. Of the events it looks at none but those of its node,
so what it gives is the same whatever stands around the node.
-/
namespace DataModel.Source

/-- A rejection at an event, which tells that reading came to its end. -/
def Rejection.IsAt (x : Rejection) (e : Event) : Prop :=
  x.problem ≠ .endless ∧ x.line = e.line ∧ x.column = e.column

theorem Rejection.isAt {problem : Problem} (ends : problem ≠ .endless) (e : Event) :
    (Rejection.at problem e).IsAt e := ⟨ends, rfl, rfl⟩

namespace Reader
variable {r r' r'' : Reader} {es es' : List Event}

/-- The reader that stands at a place among some events, of which the last is never consumed. -/
def standing (events : List Event) (p : Nat) : Reader :=
  { ofEvents events with passed := (events.take p).reverse, rest := events.dropLast.drop p }


/-- A reader goes on over some events. -/
structure Passes (r : Reader) (es : List Event) (r' : Reader) : Prop where
  rest : r.rest = es ++ r'.rest
  passed : r'.passed = es.reverse ++ r.passed
  stop : r'.stop = r.stop

namespace Passes

theorem trans (h : r.Passes es r') (h' : r'.Passes es' r'') : r.Passes (es ++ es') r'' where
  rest := by rw [h.rest, h'.rest, List.append_assoc]
  passed := by rw [h'.passed, h.passed, List.reverse_append, List.append_assoc]
  stop := h'.stop.trans h.stop

/-- The events stay the same. -/
theorem events (h : r.Passes es r') : r'.events = r.events := by
  rw [Reader.events, Reader.events, h.rest, h.passed, h.stop]
  simp

/-- What is passed comes from what was to come. -/
theorem remaining (h : r.Passes es r') : r.rest ++ [r.stop] = es ++ (r'.rest ++ [r'.stop]) := by
  rw [h.rest, h.stop, List.append_assoc]

end Passes

section Standing
variable {init : List Event} {stop : Event} {p : Nat}

theorem standing_concat (within : p ≤ init.length) :
    standing (init ++ [stop]) p = ⟨(init.take p).reverse, init.drop p, stop⟩ := by
  simp [standing, ofEvents, List.take_append_of_le_length within]

theorem events_standing (within : p ≤ init.length) :
    (standing (init ++ [stop]) p).events = init ++ [stop] := by
  rw [standing_concat within]
  simp [events]

/-- Going on from a place leads to a later one. -/
theorem Passes.standing (within : p ≤ init.length)
    (h : (standing (init ++ [stop]) p).Passes es r') :
    r' = .standing (init ++ [stop]) (p + es.length) ∧ p + es.length ≤ init.length := by
  rw [standing_concat within] at h
  obtain ⟨passed, rest, stop'⟩ := r'
  obtain ⟨rest', passed', stop'⟩ := h
  dsimp only at rest' passed' stop'
  have later : p + es.length ≤ init.length := by
    have := congrArg List.length rest'
    rw [List.length_drop, List.length_append] at this
    omega
  refine ⟨?_, later⟩
  rw [standing_concat later, passed', stop', List.take_add, rest', ← List.drop_drop, rest']
  simp

end Standing

theorem current_mem (r : Reader) : r.current ∈ r.events := by
  obtain ⟨passed, rest, stop⟩ := r
  cases rest with
  | nil => simp [events, current]
  | cons e rest => simp [events, current]

theorem peek_mem (r : Reader) (k : Nat) : r.peek k ∈ r.events := by
  rw [peek, events]
  cases there : r.rest[k]? with
  | none => simp
  | some e => simp [List.mem_of_getElem? there]

theorem mem_events_of_rest {e : Event} (h : e ∈ r.rest) : e ∈ r.events := by
  simp [events, h]

end Reader

namespace Read
variable {α β σ : Type} {part : Part} {es es' : List Event} {result : Except Rejection α}
  {x : Read α} {f : α → Read β}

section Settling

/-- What leaves the reader where it is, and is rejected at an event if at all. -/
def Settles (e : Event) (x : Read α) : Prop :=
  ∃ result : Except Rejection α, (∀ r, x.run r = (result, r)) ∧
    ∀ y, result = .error y → y.IsAt e

namespace Settles
variable {e : Event}

theorem pure (a : α) : Settles e (Pure.pure a) := ⟨.ok a, fun _ => rfl, nofun⟩

theorem reject {problem : Problem} (ends : problem ≠ .endless) :
    Settles (α := α) e (reject problem e) := by
  refine ⟨.error (.at problem e), fun _ => rfl, ?_⟩
  rintro _ ⟨⟩
  exact Rejection.isAt ends e

theorem bind (h : Settles e x) (next : ∀ a, Settles e (f a)) : Settles e (x >>= f) := by
  obtain ⟨result, first, wrong⟩ := h
  cases result with
  | error y =>
      refine ⟨.error y, fun r => ?_, ?_⟩
      · rw [run_bind, first r]
      · rintro _ ⟨⟩
        exact wrong y rfl
  | ok a =>
      obtain ⟨result, second, wrong⟩ := next a
      refine ⟨result, fun r => ?_, wrong⟩
      rw [run_bind, first r]
      exact second r

theorem require (value : Option α) (key what : String) :
    Settles e (require value key what e) := by
  cases value with
  | none => exact reject nofun
  | some a => exact pure a

end Settles

end Settling

section Reading

/-- On some events a read gives a result, whatever stands around them; if it is no rejection, the
reader is then behind them. -/
def Reads (es : List Event) (result : Except Rejection α) (x : Read α) : Prop :=
  ∀ passed after stop, ∃ r', x.run ⟨passed, es ++ after, stop⟩ = (result, r') ∧
    ∀ a, result = .ok a → r' = ⟨es.reverse ++ passed, after, stop⟩

/-- What a read gives on some events depends on nothing else. -/
def Alone (es : List Event) (x : Read α) : Prop := ∃ result, Reads es result x

/-- What a read gives on some events with nothing behind them. -/
def alone (x : Read α) (es : List Event) : Except Rejection α :=
  (x.run ⟨[], es, ⟨.streamEnd, "", 1, 1⟩⟩).1

theorem Reads.alone_eq (h : Reads es result x) : x.alone es = result := by
  obtain ⟨r', run, -⟩ := h [] [] ⟨.streamEnd, "", 1, 1⟩
  rw [List.append_nil] at run
  rw [alone, run]

theorem Alone.reads (h : Alone es x) : Reads es (x.alone es) x := by
  obtain ⟨result, reads⟩ := h
  rwa [reads.alone_eq]

theorem Alone.reads_iff (h : Alone es x) : Reads es result x ↔ x.alone es = result :=
  ⟨Reads.alone_eq, fun given => given ▸ h.reads⟩

/-- Behind the events that a read takes, what follows goes on. -/
theorem Reads.run_then {a : α} (h : Reads es (.ok a) x) (passed after : List Event) (stop : Event) :
    (x >>= f).run ⟨passed, es ++ after, stop⟩ = (f a).run ⟨es.reverse ++ passed, after, stop⟩ := by
  obtain ⟨r', first, behind⟩ := h passed after stop
  rw [run_bind, first, behind a rfl]

theorem Reads.bind {a : α} {result : Except Rejection β} (h : Reads es (.ok a) x)
    (next : Reads es' result (f a)) : Reads (es ++ es') result (x >>= f) := by
  intro passed after stop
  obtain ⟨r', second, behind⟩ := next (es.reverse ++ passed) after stop
  refine ⟨r', ?_, fun b given => ?_⟩
  · rw [List.append_assoc, h.run_then, second]
  · rw [behind b given, List.reverse_append, List.append_assoc]

theorem Reads.reject {y : Rejection} (h : Reads es (.error y) x) (es' : List Event) :
    Reads (es ++ es') (.error y) (x >>= f) := by
  intro passed after stop
  obtain ⟨r', first, -⟩ := h passed (es' ++ after) stop
  refine ⟨r', ?_, nofun⟩
  rw [List.append_assoc, run_bind, first]

theorem Reads.settle {a : α} {result : Except Rejection β} (h : Reads es (.ok a) x)
    (next : ∀ r, (f a).run r = (result, r)) : Reads es result (x >>= f) := by
  intro passed after stop
  obtain ⟨r', first, behind⟩ := h passed after stop
  refine ⟨r', ?_, fun _ _ => behind a rfl⟩
  rw [run_bind, first]
  exact next r'

theorem Alone.settle (h : Alone es x)
    (next : ∀ a, ∃ result, ∀ r, (f a).run r = (result, r)) : Alone es (x >>= f) := by
  obtain ⟨result, first⟩ := h
  cases result with
  | error y => exact ⟨.error y, List.append_nil es ▸ first.reject []⟩
  | ok a =>
      obtain ⟨result, second⟩ := next a
      exact ⟨result, first.settle second⟩

theorem reject_reads (problem : Problem) (e : Event) (es : List Event) :
    Reads (α := α) es (.error (.at problem e)) (reject problem e) :=
  fun _ _ _ => ⟨_, rfl, nofun⟩

/-- A read that the current event is enough to refuse. -/
theorem Reads.refuse {e : Event} {y : Rejection}
    (refuses : ∀ r, r.current = e → x.run r = (.error y, r)) : Reads (e :: es) (.error y) x :=
  fun passed after stop => ⟨⟨passed, e :: es ++ after, stop⟩, refuses _ rfl, nofun⟩

/-- Where a read looks at the current event only, it may be replaced by what it does on that
event. -/
theorem Reads.congr {e : Event} {y : Read α} (same : ∀ r, r.current = e → x.run r = y.run r)
    (h : Reads (e :: es) result y) : Reads (e :: es) result x := by
  intro passed after stop
  rw [same ⟨passed, e :: es ++ after, stop⟩ rfl]
  exact h passed after stop

/-- The event that a read starts at is the first of those that it takes. -/
theorem Reads.onCurrent {f : Event → Read α} {e : Event} (h : Reads (e :: es) result (f e)) :
    Reads (e :: es) result (current >>= f) :=
  h.congr fun r here => by rw [← here]; rfl

theorem Alone.congr {e : Event} {y : Read α} (same : ∀ r, r.current = e → x.run r = y.run r)
    (h : Alone (e :: es) y) : Alone (e :: es) x :=
  h.imp fun _ reads => reads.congr same

end Reading

section Expecting
variable {r : Reader} {kinds : List Event.Kind}

theorem discard_eq (x : Read α) : (discard x : Read Unit) = x >>= fun _ => pure () := by
  rw [bind_pure_comp]
  rfl

theorem run_bound (f : Nat → Read α) (r : Reader) :
    (bound >>= f).run r = (f (r.rest.length + 1)).run r := rfl

theorem run_expect (kinds : List Event.Kind) (r : Reader) :
    (expect kinds).run r = if kinds.contains r.current.kind then (.ok r.current, r.advance)
      else (.error (.at (.unexpected kinds r.current) r.current), r) := by
  unfold expect
  rw [run_bind]
  show (if kinds.contains r.current.kind then advance
    else Read.current >>= fun e => Read.reject (.unexpected kinds e) e).run r = _
  split
  · rfl
  · rfl

/-- The end of the stream is not consumed, so an event of another kind stands before it. -/
theorem rest_of_current {kind : Event.Kind} (closed : r.stop.kind = .streamEnd)
    (here : r.current.kind = kind) (inside : kind ≠ .streamEnd) :
    ∃ e rest, r.rest = e :: rest ∧ r.advance = ⟨e :: r.passed, rest, r.stop⟩ ∧ e.kind = kind := by
  obtain ⟨passed, rest, stop⟩ := r
  cases rest with
  | nil => exact absurd (here.symm.trans closed) inside
  | cons e rest => exact ⟨e, rest, rfl, rfl, here⟩

/-- Expecting consumes an event of the wanted kinds or is rejected at the current event. -/
theorem expect_cases (closed : r.stop.kind = .streamEnd) (kinds : List Event.Kind)
    (inner : Event.Kind.streamEnd ∉ kinds) :
    (∃ e rest, r.rest = e :: rest ∧ e.kind ∈ kinds ∧
      (expect kinds).run r = (.ok e, ⟨e :: r.passed, rest, r.stop⟩)) ∨
    ∃ y : Rejection, y.IsAt r.current ∧ (expect kinds).run r = (.error y, r) := by
  rw [run_expect]
  by_cases here : kinds.contains r.current.kind = true
  · rw [if_pos here]
    obtain ⟨passed, rest, stop⟩ := r
    cases rest with
    | nil =>
        refine absurd (List.contains_iff_mem.mp here) ?_
        rw [show (Reader.mk passed [] stop).current = stop from rfl, closed]
        exact inner
    | cons e rest => exact .inl ⟨e, rest, rfl, List.contains_iff_mem.mp here, rfl⟩
  · rw [if_neg here]
    exact .inr ⟨.at (.unexpected kinds r.current) r.current, Rejection.isAt (by simp) _, rfl⟩

theorem expect_reads {e : Event} (h : e.kind ∈ kinds) : Reads [e] (.ok e) (expect kinds) := by
  intro passed after stop
  refine ⟨_, ?_, fun _ _ => rfl⟩
  rw [run_expect]
  exact if_pos (List.contains_iff_mem.mpr h)

theorem expect_rejects {e : Event} (h : e.kind ∉ kinds) (es : List Event) :
    Reads (e :: es) (.error (.at (.unexpected kinds e) e)) (expect kinds) := by
  refine .refuse fun r here => ?_
  rw [run_expect, here, if_neg (mt List.contains_iff_mem.mp h)]

theorem accept_reads {e : Event} {kind : Event.Kind} (h : e.kind = kind) :
    Reads [e] (.ok (some e)) (accept kind) := by
  intro passed after stop
  refine ⟨_, ?_, fun _ _ => rfl⟩
  show (if [kind].contains e.kind then (advance >>= fun e => pure (some e)) else _ : Read _).run _ = _
  rw [if_pos (by simp [h])]
  rfl

theorem run_accept_other {r : Reader} {kind : Event.Kind} (h : r.current.kind ≠ kind) :
    (accept kind).run r = (.ok none, r) := by
  show (if [kind].contains r.current.kind then (advance >>= fun e => pure (some e))
    else pure none : Read _).run r = _
  rw [if_neg (by simpa using h)]
  rfl

theorem discard_reads {e : Event} (h : e.kind ∈ kinds) :
    Reads [e] (.ok ()) (discard (expect kinds)) :=
  (expect_reads h).settle fun _ => rfl

theorem discard_rejects {e : Event} (h : e.kind ∉ kinds) (es : List Event) :
    Reads (e :: es) (.error (.at (.unexpected kinds e) e)) (discard (expect kinds)) :=
  (expect_rejects h []).reject es

end Expecting

section Taking

/-- How a read ends: behind a part, or rejected at one of the events. -/
def Ends (part : Part) (r : Reader) : Except Rejection α × Reader → Prop
  | (.ok _, r') => ∃ es, Nested part es ∧ r.Passes es r'
  | (.error y, _) => ∃ e ∈ r.events, y.IsAt e

namespace Ends
variable {part' : Part} {r r' : Reader}

theorem passed {o : Except Rejection α × Reader} (first : r.Passes es r') (h : Ends part r' o)
    (whole : ∀ es', Nested part es' → Nested part' (es ++ es')) : Ends part' r o := by
  obtain ⟨result, r''⟩ := o
  cases result with
  | error y =>
      obtain ⟨e, member, here⟩ := h
      exact ⟨e, first.events ▸ member, here⟩
  | ok a =>
      obtain ⟨es', nested, rest⟩ := h
      exact ⟨es ++ es', whole es' nested, first.trans rest⟩

theorem bind {r₀ : Reader} (same : r.events = r₀.events) (h : Ends part r (x.run r))
    (next : ∀ a r' es, Nested part es → r.Passes es r' → Ends part' r₀ ((f a).run r')) :
    Ends part' r₀ ((x >>= f).run r) := by
  rw [run_bind]
  generalize x.run r = o at h
  obtain ⟨result, r'⟩ := o
  cases result with
  | error y =>
      obtain ⟨e, member, here⟩ := h
      exact ⟨e, same ▸ member, here⟩
  | ok a =>
      obtain ⟨es, nested, passes⟩ := h
      exact next a r' es nested passes

theorem settle {e : Event} (h : Ends part r (x.run r)) (member : e ∈ r.events)
    (settles : ∀ a, Settles e (f a)) : Ends part r ((x >>= f).run r) := by
  refine h.bind rfl fun a r' es nested passes => ?_
  obtain ⟨result, still, wrong⟩ := settles a
  rw [still]
  cases result with
  | error y => exact ⟨e, member, wrong y rfl⟩
  | ok b => exact ⟨es, nested, passes⟩

end Ends

/-- A read of one node. -/
structure TakesNode (x : Read α) : Prop where
  ends : ∀ r : Reader, r.stop.kind = .streamEnd → Ends .node r (x.run r)
  alone : ∀ es, Nested .node es → Alone es x

namespace TakesNode

theorem map (h : TakesNode x) (g : α → β) : TakesNode (x >>= fun a => Pure.pure (g a)) where
  ends r closed := (h.ends r closed).settle r.current_mem fun a => .pure (g a)
  alone es nested := (h.alone es nested).settle fun a => ⟨.ok (g a), fun _ => rfl⟩

/-- A read with checks behind it that are told at the event where it started. -/
theorem «section» {tail : Event → α → Read β} (h : TakesNode x)
    (settles : ∀ start a, Settles start (tail start a)) :
    TakesNode (current >>= fun start => x >>= tail start) where
  ends r closed := (h.ends r closed).settle r.current_mem (settles r.current)
  alone es nested := by
    obtain ⟨e, rest, rfl, -⟩ := nested.head_of_node
    have first : Alone (e :: rest) (x >>= tail e) := (h.alone _ nested).settle fun a =>
      (settles e a).imp fun _ still => still.1
    exact first.imp fun _ => Reads.onCurrent

/-- A scalar and checks of its text. -/
theorem scalar {f : Event → Read α} (settles : ∀ e, Settles e (f e)) :
    TakesNode (scalar >>= f) where
  ends r closed := by
    rw [run_bind]
    rcases expect_cases closed [.scalar] (by decide) with ⟨e, rest, here, kind, run⟩ | ⟨y, at', run⟩
    · obtain ⟨result, still, wrong⟩ := settles e
      rw [Read.scalar, run]
      dsimp only
      rw [still]
      cases result with
      | error y =>
          refine ⟨e, r.mem_events_of_rest ?_, wrong y rfl⟩
          rw [here]
          exact List.mem_cons_self
      | ok a => exact ⟨[e], .scalar (List.mem_singleton.mp kind), here, rfl, rfl⟩
    · rw [Read.scalar, run]
      exact ⟨r.current, r.current_mem, at'⟩
  alone es nested := by
    obtain ⟨e, rest, rfl, -⟩ := nested.head_of_node
    by_cases kind : e.kind = .scalar
    · obtain ⟨result, still, -⟩ := settles e
      obtain rfl := nested.of_scalar kind
      exact ⟨result, (expect_reads (List.mem_singleton.mpr kind)).settle still⟩
    · have wrong := expect_rejects (mt List.mem_singleton.mp kind) rest
      exact ⟨_, List.append_nil (e :: rest) ▸ wrong.reject []⟩

end TakesNode

end Taking

section Scalars

theorem scalar_takes : TakesNode Read.scalar := by
  have := TakesNode.scalar (f := fun e => pure e) fun e => .pure e
  rwa [bind_pure] at this

theorem string_takes : TakesNode string := scalar_takes.map _

theorem boolean_takes : TakesNode boolean := by
  refine .scalar fun e => ?_
  split
  · exact .pure _
  · split
    · exact .pure _
    · exact .reject (by simp)

theorem integer_takes : TakesNode integer := by
  refine .scalar fun e => ?_
  split
  · exact .pure _
  · exact .reject (by simp)

theorem word_takes (values : List (String × α)) : TakesNode (word values) := by
  refine .scalar fun e => ?_
  split
  · exact .pure _
  · exact .reject (by simp)

end Scalars

section Standing

/-- A read that takes one node, wherever among some events it starts. It comes to an end: it is
rejected at one of the events, or it stops further on, still among the events. If a node starts
where the read does, that is the event behind the node. -/
def TakesNodeAnywhere (x : Read α) : Prop :=
  ∀ (events : List Event) (stop : Event) (p : Nat), events.getLast? = some stop →
    stop.kind = .streamEnd → p < events.length →
    (∃ y r', x.run (.standing events p) = (.error y, r') ∧ y.problem ≠ .endless ∧
      ∃ e ∈ events, y.line = e.line ∧ y.column = e.column) ∨
    ∃ a q, x.run (.standing events p) = (.ok a, .standing events q) ∧ p < q ∧ q < events.length ∧
      ∀ node after, Nested .node node → events.drop p = node ++ after → q = p + node.length

theorem TakesNode.anywhere (takes : TakesNode x) :
    TakesNodeAnywhere x := by
  intro events stop p last closed within
  obtain ⟨init, rfl⟩ := List.getLast?_eq_some_iff.mp last
  have within : p ≤ init.length := by simpa [Nat.lt_succ_iff] using within
  have ends := takes.ends (.standing (init ++ [stop]) p) (by simpa [Reader.standing_concat within])
  generalize given : x.run (.standing (init ++ [stop]) p) = o at ends
  obtain ⟨y | a, r'⟩ := o
  · obtain ⟨e, member, reading, line, column⟩ := ends
    rw [Reader.events_standing within] at member
    exact .inl ⟨y, r', rfl, reading, e, member, line, column⟩
  · obtain ⟨es, nested, passes⟩ := ends
    obtain ⟨rfl, later⟩ := passes.standing within
    refine .inr ⟨a, p + es.length, rfl, ?_, by simpa [Nat.lt_succ_iff], fun n after node here => ?_⟩
    · exact Nat.lt_add_of_pos_right (List.length_pos_iff.mpr nested.ne_nil)
    · have remaining := passes.remaining
      rw [Reader.standing_concat within, ← List.drop_append_of_le_length within, here] at remaining
      rw [node.unique nested remaining]

end Standing

end Read
end DataModel.Source
