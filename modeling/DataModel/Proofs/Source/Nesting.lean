import DataModel.Source.Reader

/-!
Balanced events: nodes, what is left of a collection with its end, documents, and whole streams.
Of the parts that start at a place at most one is a node, since none is the beginning of another.
-/
namespace DataModel.Source

/-- What a run of events is: a node, or what is left of a sequence or of a mapping with its end. -/
inductive Part where
  | node | items | entries
  deriving DecidableEq

inductive Nested : Part → List Event → Prop
  | scalar {e : Event} (kind : e.kind = .scalar) : Nested .node [e]
  | sequence {e : Event} {es : List Event} (kind : e.kind = .sequenceStart)
    (rest : Nested .items es) : Nested .node (e :: es)
  | mapping {e : Event} {es : List Event} (kind : e.kind = .mappingStart)
    (rest : Nested .entries es) : Nested .node (e :: es)
  | noItem {e : Event} (kind : e.kind = .sequenceEnd) : Nested .items [e]
  | item {n es : List Event} (first : Nested .node n) (rest : Nested .items es) :
    Nested .items (n ++ es)
  | noEntry {e : Event} (kind : e.kind = .mappingEnd) : Nested .entries [e]
  | entry {k v es : List Event} (key : Nested .node k) (value : Nested .node v)
    (rest : Nested .entries es) : Nested .entries (k ++ (v ++ es))

/-- What a collection leaves behind its first event. -/
def inner (mapping : Bool) : Part := if mapping then .entries else .items

/-- The kind of event that opens a collection. -/
def opening (mapping : Bool) : Event.Kind := if mapping then .mappingStart else .sequenceStart

namespace Nested
variable {part : Part} {es es' : List Event}

/-- The first event of a node is a scalar or opens a collection. -/
theorem head_of_node (h : Nested .node es) : ∃ e rest, es = e :: rest ∧
    (e.kind = .scalar ∨ e.kind = .sequenceStart ∨ e.kind = .mappingStart) := by
  cases h with
  | scalar kind => exact ⟨_, [], rfl, .inl kind⟩
  | sequence kind rest => exact ⟨_, _, rfl, .inr (.inl kind)⟩
  | mapping kind rest => exact ⟨_, _, rfl, .inr (.inr kind)⟩

theorem ne_nil (h : Nested part es) : es ≠ [] := by
  cases h with
  | item first rest =>
      obtain ⟨e, rest', rfl, -⟩ := first.head_of_node
      exact List.cons_ne_nil _ _
  | entry key value rest =>
      obtain ⟨e, rest', rfl, -⟩ := key.head_of_node
      exact List.cons_ne_nil _ _
  | _ => exact List.cons_ne_nil _ _

/-- A node does not start where a collection ends. -/
theorem node_of_end {e : Event} {rest after : List Event} (h : Nested .node es)
    (same : e :: rest = es ++ after) : e.kind ≠ .sequenceEnd ∧ e.kind ≠ .mappingEnd := by
  obtain ⟨e', rest', rfl, kinds⟩ := h.head_of_node
  cases same
  rcases kinds with kind | kind | kind <;> rw [kind] <;> exact ⟨nofun, nofun⟩

theorem of_scalar {e : Event} {rest : List Event} (h : Nested .node (e :: rest))
    (kind : e.kind = .scalar) : rest = [] := by
  cases h with
  | scalar _ => rfl
  | sequence kind' _ | mapping kind' _ =>
      rw [kind] at kind'
      cases kind'

theorem opened {e : Event} {mapping : Bool} (kind : e.kind = opening mapping)
    (h : Nested (inner mapping) es) : Nested .node (e :: es) := by
  cases mapping with
  | true => exact .mapping kind h
  | false => exact .sequence kind h

theorem inside {e : Event} {mapping : Bool} (h : Nested .node (e :: es))
    (kind : e.kind = opening mapping) : Nested (inner mapping) es := by
  cases h with
  | scalar kind' => cases mapping <;> cases kind'.symm.trans kind
  | sequence kind' rest =>
      cases mapping with
      | true => cases kind'.symm.trans kind
      | false => exact rest
  | mapping kind' rest =>
      cases mapping with
      | true => exact rest
      | false => cases kind'.symm.trans kind

/-- Two runs of events that start at a place start with an event of one kind. -/
theorem kind_of_heads {e e' : Event} {rest rest' : List Event} {kind kind' : Event.Kind}
    (first : e.kind = kind) (second : e'.kind = kind') (same : e :: rest = e' :: rest') :
    kind = kind' := by
  rw [← first, ← second, (List.cons.inj same).1]

/-- Of the events that start at a place, only one run is a node, and so for the other parts. -/
theorem unique (h : Nested part es) (h' : Nested part es') {after after' : List Event}
    (same : es ++ after = es' ++ after') : es = es' := by
  induction h generalizing es' after after' with
  | scalar kind =>
      cases h' with
      | scalar kind' => rw [(List.cons.inj same).1]
      | sequence kind' _ | mapping kind' _ => cases kind_of_heads kind kind' same
  | sequence kind rest ih =>
      cases h' with
      | scalar kind' | mapping kind' _ => cases kind_of_heads kind kind' same
      | sequence kind' rest' =>
          obtain ⟨head, tail⟩ := List.cons.inj same
          rw [head, ih rest' tail]
  | mapping kind rest ih =>
      cases h' with
      | scalar kind' | sequence kind' _ => cases kind_of_heads kind kind' same
      | mapping kind' rest' =>
          obtain ⟨head, tail⟩ := List.cons.inj same
          rw [head, ih rest' tail]
  | noItem kind =>
      cases h' with
      | noItem kind' => cases same; rfl
      | item first rest =>
          rw [List.append_assoc] at same
          exact absurd kind (first.node_of_end same).1
  | item first rest ihFirst ih =>
      cases h' with
      | noItem kind' =>
          rw [List.append_assoc] at same
          exact absurd kind' (first.node_of_end same.symm).1
      | item first' rest' =>
          rw [List.append_assoc, List.append_assoc] at same
          have head := ihFirst first' same
          subst head
          rw [ih rest' (List.append_cancel_left same)]
  | noEntry kind =>
      cases h' with
      | noEntry kind' => cases same; rfl
      | entry key value rest =>
          rw [List.append_assoc] at same
          exact absurd kind (key.node_of_end same).2
  | entry key value rest ihKey ihValue ih =>
      cases h' with
      | noEntry kind' =>
          rw [List.append_assoc] at same
          exact absurd kind' (key.node_of_end same.symm).2
      | entry key' value' rest' =>
          simp only [List.append_assoc] at same
          have sameKey := ihKey key' same
          subst sameKey
          have same := List.append_cancel_left same
          have sameValue := ihValue value' same
          subst sameValue
          rw [ih rest' (List.append_cancel_left same)]

end Nested

/-- A mapping, key by key with the events of its value. -/
def IsMapping (entries : List (Event × List Event)) (es : List Event) : Prop :=
  ∃ start finish, start.kind = .mappingStart ∧ finish.kind = .mappingEnd ∧
    es = start :: (entries.flatMap (fun x => x.1 :: x.2) ++ [finish])

/-- A sequence, item by item. -/
def IsSequence (items : List (List Event)) (es : List Event) : Prop :=
  ∃ start finish, start.kind = .sequenceStart ∧ finish.kind = .sequenceEnd ∧
    es = start :: (items.flatten ++ [finish])

def IsScalar (es : List Event) : Prop := ∃ e : Event, e.kind = .scalar ∧ es = [e]

/-- A single scalar, or a sequence of them. -/
def IsScalars (es : List Event) : Prop :=
  IsScalar es ∨ ∃ items, IsSequence items es ∧ ∀ item ∈ items, IsScalar item

theorem IsScalar.nested {es : List Event} (h : IsScalar es) : Nested .node es := by
  obtain ⟨e, kind, rfl⟩ := h
  exact .scalar kind

theorem Nested.ofItems {nodes : List (List Event)} {finish : Event}
    (each : ∀ node ∈ nodes, Nested .node node) (closes : finish.kind = .sequenceEnd) :
    Nested .items (nodes.flatten ++ [finish]) := by
  induction nodes with
  | nil => exact .noItem closes
  | cons node nodes ih =>
      obtain ⟨first, others⟩ := List.forall_mem_cons.mp each
      rw [List.flatten_cons, List.append_assoc]
      exact .item first (ih others)

theorem Nested.ofEntries {entries : List (Event × List Event)} {finish : Event}
    (each : ∀ entry ∈ entries, entry.1.kind = .scalar ∧ Nested .node entry.2)
    (closes : finish.kind = .mappingEnd) :
    Nested .entries (entries.flatMap (fun x => x.1 :: x.2) ++ [finish]) := by
  induction entries with
  | nil => exact .noEntry closes
  | cons entry entries ih =>
      obtain ⟨⟨kind, value⟩, others⟩ := List.forall_mem_cons.mp each
      rw [List.flatMap_cons, List.append_assoc]
      exact .entry (k := [entry.1]) (.scalar kind) value (ih others)

theorem IsScalars.nested {es : List Event} (h : IsScalars es) : Nested .node es := by
  obtain single | ⟨nodes, ⟨start, finish, opens, closes, rfl⟩, each⟩ := h
  · exact single.nested
  · exact .sequence opens (.ofItems (fun node member => (each node member).nested) closes)

/-- A document that holds one node. -/
structure Document where
  start : Event
  node : List Event
  finish : Event
  starts : start.kind = .documentStart
  nested : Nested .node node
  finishes : finish.kind = .documentEnd

def Document.events (d : Document) : List Event := d.start :: (d.node ++ [d.finish])

/-- A balanced stream of at least one document. -/
structure Stream where
  start : Event
  first : Document
  others : List Document
  finish : Event
  starts : start.kind = .streamStart
  finishes : finish.kind = .streamEnd

def Stream.events (s : Stream) : List Event :=
  s.start :: (s.first.events ++ (s.others.flatMap Document.events ++ [s.finish]))

end DataModel.Source
