import Mathlib.Data.List.Forall2
import DataModel.Proofs.Source.Giving

/-!
Collections group by group. What reading a collection gives is what its groups give turn by turn,
so it does not depend on their order where the turns commute, and groups that look alike may stand
for each other.
-/
namespace DataModel.Source
open Read

/-- A key of a mapping, whatever node it is, with its value. -/
abbrev Group := List Event × List Event

def mappingOf (start : Event) (groups : List Group) (finish : Event) : List Event :=
  start :: (groups.flatMap (fun g => g.1 ++ g.2) ++ [finish])

def sequenceOf (start : Event) (nodes : List (List Event)) (finish : Event) : List Event :=
  start :: (nodes.flatten ++ [finish])

/-- Both the key and the value are nodes. -/
def Group.Nested (g : Group) : Prop := Source.Nested .node g.1 ∧ Source.Nested .node g.2

namespace Nested
variable {start finish : Event}

theorem ofGroups {groups : List Group} (each : ∀ g ∈ groups, g.Nested)
    (closes : finish.kind = .mappingEnd) :
    Nested .entries (groups.flatMap (fun g => g.1 ++ g.2) ++ [finish]) := by
  induction groups with
  | nil => exact .noEntry closes
  | cons g groups ih =>
      obtain ⟨⟨key, value⟩, others⟩ := List.forall_mem_cons.mp each
      rw [List.flatMap_cons, List.append_assoc, List.append_assoc]
      exact .entry key value (ih others)

theorem mappingOf {groups : List Group} (opens : start.kind = .mappingStart)
    (each : ∀ g ∈ groups, g.Nested) (closes : finish.kind = .mappingEnd) :
    Nested .node (mappingOf start groups finish) :=
  .mapping opens (.ofGroups each closes)

theorem sequenceOf {nodes : List (List Event)} (opens : start.kind = .sequenceStart)
    (each : ∀ node ∈ nodes, Nested .node node) (closes : finish.kind = .sequenceEnd) :
    Nested .node (sequenceOf start nodes finish) :=
  .sequence opens (.ofItems each closes)

theorem exists_items {es : List Event} (nested : Nested .items es) :
    ∃ (nodes : List (List Event)) (finish : Event), (∀ node ∈ nodes, Nested .node node) ∧
      finish.kind = .sequenceEnd ∧ es = nodes.flatten ++ [finish] := by
  generalize part : Part.items = p at nested
  induction nested with
  | noItem kind => exact ⟨[], _, nofun, kind, rfl⟩
  | @item n es first _ _ ih =>
      obtain ⟨nodes, finish, each, closes, rfl⟩ := ih part
      refine ⟨n :: nodes, finish, List.forall_mem_cons.mpr ⟨first, each⟩, closes, ?_⟩
      rw [List.flatten_cons, List.append_assoc]
  | _ => cases part

/-- A node that starts a sequence is one. -/
theorem exists_sequenceOf {e : Event} {rest : List Event} (nested : Nested .node (e :: rest))
    (kind : e.kind = .sequenceStart) :
    ∃ nodes finish, (∀ node ∈ nodes, Nested .node node) ∧ finish.kind = .sequenceEnd ∧
      e :: rest = Source.sequenceOf e nodes finish := by
  have items : Nested (inner false) rest := nested.inside kind
  obtain ⟨nodes, finish, each, closes, rfl⟩ := items.exists_items
  exact ⟨nodes, finish, each, closes, rfl⟩

end Nested

namespace Read
variable {σ : Type} {start finish : Event}

section Mappings
variable {what : String} {known : Fields σ}

/-- What a section makes of a group: its key is a scalar and its value what the key calls for. -/
def turn (what : String) (known : Fields σ) (d : σ) (g : Group) : Option σ :=
  (scalar? g.1).bind fun key => (field what known key d).given g.2

theorem items_nextKey_given (what : String) (take : known.Take) {groups : List Group}
    (each : ∀ g ∈ groups, g.Nested) (closes : finish.kind = .mappingEnd) (d : σ) :
    ∃ result : Except Rejection σ, result.toOption = groups.foldlM (turn what known) d ∧
      ∀ spare, Reads (groups.flatMap (fun g => g.1 ++ g.2) ++ [finish]) result
        (items nextKey (field what known)
          (spare + (groups.flatMap (fun g => g.1 ++ g.2) ++ [finish]).length) d) := by
  induction groups generalizing d with
  | nil => exact ⟨.ok d, rfl, fun spare => (Reads.noKey closes).settle fun _ => rfl⟩
  | cons g groups ih =>
      obtain ⟨⟨key, value⟩, others⟩ := List.forall_mem_cons.mp each
      obtain ⟨k, v⟩ := g
      obtain ⟨e, more, rfl, -⟩ := key.head_of_node
      rw [List.foldlM_cons, List.flatMap_cons, List.append_assoc, List.append_assoc]
      by_cases kind : e.kind = .scalar
      · obtain rfl := key.of_scalar kind
        have turned : turn what known d ([e], v) = (field what known e d).given v := by
          rw [turn, (scalar?_eq_some key).mpr ⟨kind, rfl⟩, Option.bind_some]
        obtain ⟨y | d', reads⟩ := (take.field what e d).alone value
        · refine ⟨.error y, ?_, fun spare => .onKey kind (reads.reject _)⟩
          rw [turned, reads.given_eq]
          rfl
        · obtain ⟨result, gives, onward⟩ := ih others d'
          refine ⟨result, ?_, fun spare => .turnKey (v := v) kind reads onward spare⟩
          rw [turned, reads.given_eq, gives]
          rfl
      · have inside := (key.node_of_end (List.append_nil _).symm).2
        refine ⟨_, ?_, fun spare => .refusedKey inside kind _⟩
        have none' : scalar? (e :: more) = none := by simp [scalar?, kind]
        rw [turn, none']
        rfl

/-- A section gives what its groups give one after the other. -/
theorem fields_given (take : known.Take) {groups : List Group} (opens : start.kind = .mappingStart)
    (each : ∀ g ∈ groups, g.Nested) (closes : finish.kind = .mappingEnd) (d : σ) :
    (fields what known d).given (mappingOf start groups finish) =
      groups.foldlM (turn what known) d := by
  obtain ⟨result, gives, reads⟩ := items_nextKey_given what take each closes d
  have opens : start.kind = opening true := opens
  have whole : Reads (mappingOf start groups finish) result (eachKey (field what known) d) :=
    .enter opens reads
  rw [fields_eq, whole.given_eq, gives]

theorem fields_given_other {e : Event} (kind : e.kind ≠ .mappingStart) (es : List Event) (d : σ) :
    (fields what known d).given (e :: es) = none := by
  have kind : e.kind ≠ opening true := kind
  obtain ⟨y, reads⟩ : ∃ y, Reads (e :: es) (.error y) (eachKey (field what known) d) :=
    Reads.notEntered kind es
  rw [fields_eq, reads.given_eq]
  rfl

end Mappings

section Sequences
variable {body : σ → Read σ}

theorem items_nextItem_given (takes : ∀ s, TakesNode (body s)) {nodes : List (List Event)}
    (each : ∀ node ∈ nodes, Nested .node node) (closes : finish.kind = .sequenceEnd) (s : σ) :
    ∃ result : Except Rejection σ,
      result.toOption = nodes.foldlM (fun s node => (body s).given node) s ∧
      ∀ spare, Reads (nodes.flatten ++ [finish]) result
        (items nextItem (fun _ => body) (spare + (nodes.flatten ++ [finish]).length) s) := by
  induction nodes generalizing s with
  | nil => exact ⟨.ok s, rfl, fun spare => (Reads.noItem closes).settle fun _ => rfl⟩
  | cons node nodes ih =>
      obtain ⟨first, others⟩ := List.forall_mem_cons.mp each
      obtain ⟨e, more, rfl, -⟩ := first.head_of_node
      have inside := (first.node_of_end (List.append_nil _).symm).1
      rw [List.foldlM_cons, List.flatten_cons, List.append_assoc]
      obtain ⟨y | s', reads⟩ := (takes s).alone _ first
      · refine ⟨.error y, ?_, fun spare => .onItem inside (reads.reject _)⟩
        rw [reads.given_eq]
        rfl
      · obtain ⟨result, gives, onward⟩ := ih others s'
        refine ⟨result, ?_, .turnItem first reads onward⟩
        rw [reads.given_eq, gives]
        rfl

theorem eachItem_given (takes : ∀ s, TakesNode (body s)) {nodes : List (List Event)}
    (opens : start.kind = .sequenceStart) (each : ∀ node ∈ nodes, Nested .node node)
    (closes : finish.kind = .sequenceEnd) (s : σ) :
    (eachItem (fun _ => body) s).given (sequenceOf start nodes finish) =
      nodes.foldlM (fun s node => (body s).given node) s := by
  obtain ⟨result, gives, reads⟩ := items_nextItem_given takes each closes s
  have opens : start.kind = opening false := opens
  have whole : Reads (sequenceOf start nodes finish) result (eachItem (fun _ => body) s) :=
    .enter opens reads
  rw [whole.given_eq, gives]

theorem eachItem_given_other {e : Event} (kind : e.kind ≠ .sequenceStart) (es : List Event)
    (s : σ) : (eachItem (fun _ => body) s).given (e :: es) = none := by
  have kind : e.kind ≠ opening false := kind
  obtain ⟨y, reads⟩ : ∃ y, Reads (e :: es) (.error y) (eachItem (fun _ => body) s) :=
    Reads.notEntered kind es
  rw [reads.given_eq]
  rfl

end Sequences

end Read

section Folds
variable {σ τ γ : Type} {turn : σ → γ → Option σ} {view : σ → τ} {gs gs' : List γ} {s s' : σ}

/-- Where turns that look alike lead to what looks alike, so do runs of them. -/
theorem foldlM_alike {Alike : γ → γ → Prop}
    (step : ∀ s s' g g', view s = view s' → Alike g g' →
      (turn s g).map view = (turn s' g').map view)
    (each : List.Forall₂ Alike gs gs') (same : view s = view s') :
    (gs.foldlM turn s).map view = (gs'.foldlM turn s').map view := by
  induction each generalizing s s' with
  | nil => exact congrArg some same
  | @cons g g' gs gs' first _ ih =>
      have after := step s s' g g' same first
      rw [List.foldlM_cons, List.foldlM_cons]
      cases left : turn s g with
      | none =>
          rw [left] at after
          rw [Option.map_eq_none_iff.mp after.symm]
          rfl
      | some t =>
          rw [left] at after
          obtain ⟨t', right, same'⟩ := Option.map_eq_some_iff.mp after.symm
          rw [right]
          exact ih same'.symm

/-- Where turns that are apart commute, their order does not matter. -/
theorem foldlM_perm {Alike Apart : γ → γ → Prop} (symm : ∀ g g', Apart g g' → Apart g' g)
    (step : ∀ s s' g g', view s = view s' → Alike g g' →
      (turn s g).map view = (turn s' g').map view)
    (refl : ∀ g ∈ gs, Alike g g)
    (swap : ∀ s g g', Apart g g' →
      ((turn s g).bind (turn · g')).map view = ((turn s g').bind (turn · g)).map view)
    (perm : gs.Perm gs') (apart : gs.Pairwise Apart) :
    (gs.foldlM turn s).map view = (gs'.foldlM turn s).map view := by
  induction perm generalizing s with
  | nil => rfl
  | cons g _ ih =>
      rw [List.foldlM_cons, List.foldlM_cons]
      cases turn s g with
      | none => rfl
      | some t => exact ih (List.forall_mem_cons.mp refl).2 (List.pairwise_cons.mp apart).2
  | swap g g' gs =>
      have order := swap s g' g ((List.pairwise_cons.mp apart).1 g List.mem_cons_self)
      have whole : ∀ s g g', (g :: g' :: gs).foldlM turn s =
          ((turn s g).bind (turn · g')).bind (gs.foldlM turn) := by
        intro s g g'
        rw [List.foldlM_cons, Option.bind_assoc]
        exact congrArg _ (funext fun t => List.foldlM_cons ..)
      rw [whole, whole]
      cases left : (turn s g').bind (turn · g) with
      | none =>
          rw [left] at order
          rw [Option.map_eq_none_iff.mp order.symm]
      | some t =>
          rw [left] at order
          obtain ⟨t', right, same⟩ := Option.map_eq_some_iff.mp order.symm
          rw [right]
          have others := (List.forall_mem_cons.mp (List.forall_mem_cons.mp refl).2).2
          exact foldlM_alike step (List.forall₂_same.mpr others) same.symm
  | trans first _ ih ih' =>
      exact (ih refl apart).trans (ih' (fun g member => refl g (first.mem_iff.mpr member))
        ((first.pairwise_iff (fun h => symm _ _ h)).mp apart))

end Folds

/-- Sequences whose items are read alike are read alike. -/
theorem Read.eachItem_alike {σ τ : Type} {view : σ → τ} {body : σ → Read σ}
    {Alike : List Event → List Event → Prop} {start finish : Event}
    {nodes nodes' : List (List Event)} (takes : ∀ s, TakesNode (body s))
    (step : ∀ s s' node node', view s = view s' → Alike node node' →
      ((body s).given node).map view = ((body s').given node').map view)
    (opens : start.kind = .sequenceStart) (closes : finish.kind = .sequenceEnd)
    (each : ∀ node ∈ nodes, Nested .node node) (each' : ∀ node ∈ nodes', Nested .node node)
    (alike : List.Forall₂ Alike nodes nodes') {s s' : σ} (same : view s = view s') :
    ((eachItem (fun _ => body) s).given (sequenceOf start nodes finish)).map view =
      ((eachItem (fun _ => body) s').given (sequenceOf start nodes' finish)).map view := by
  rw [eachItem_given takes opens each closes, eachItem_given takes opens each' closes]
  exact foldlM_alike step alike same

end DataModel.Source
