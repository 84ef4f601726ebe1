import Mathlib.Logic.Relation
import DataModel.Proofs.Grammar.Commuting

/-!
The order of keys does not matter. A mapping whose keys differ may have its groups in any order, and
so may every mapping in it, as long as the leading key of a property stays first: what is read is
the same, and so is what is rejected.
-/
namespace DataModel.Grammar
open DataModel.Source Read

section Turns
variable {σ τ : Type} {place : Place} {what : String} {known : Fields σ} {view : σ → τ}
  {g g' : Group} {d d' : σ}

/-- Two groups that nothing tells apart. -/
structure AlikeGroup (place : Place) (g g' : Group) : Prop where
  key : g.1.head? = g'.1.head?
  value : Agrees (place.within g.1) g.2 g'.2

/-- A group is rejected for its key, or read as its key wants. -/
theorem turn_cases (what : String) (known : Fields σ) (g : Group) :
    (∀ d, turn what known d g = none) ∨ ∃ e read, scalar? g.1 = some e ∧
      known e.value = some read ∧ ∀ d, turn what known d g = (read d).given g.2 := by
  unfold turn
  cases key : scalar? g.1 with
  | none => exact .inl fun _ => rfl
  | some e =>
      cases found : known e.value with
      | none =>
          refine .inl fun d => ?_
          rw [Option.bind_some, field, found]
          rfl
      | some read =>
          refine .inr ⟨e, read, rfl, found, fun d => ?_⟩
          rw [Option.bind_some, field, found]

theorem Commutes.turn_alike (h : Commutes place known view) (same : view d = view d')
    (alike : AlikeGroup place g g') :
    (turn what known d g).map view = (turn what known d' g').map view := by
  have key : scalar? g.1 = scalar? g'.1 := by rw [scalar?, scalar?, alike.key]
  rw [turn, turn, ← key]
  cases here : scalar? g.1 with
  | none => rfl
  | some e =>
      have agrees : Agrees (place.inside e.value) g.2 g'.2 := by
        have value := alike.value
        rwa [Place.within, here] at value
      rw [Option.bind_some, Option.bind_some, field, field]
      cases found : known e.value with
      | none => rfl
      | some read => exact h.alike found agrees same

theorem Commutes.turn_swap (h : Commutes place known view) (apart : place.Apart g g') (d : σ) :
    ((turn what known d g).bind (turn what known · g')).map view =
      ((turn what known d g').bind (turn what known · g)).map view := by
  obtain refused | ⟨e, read, key, found, reads⟩ := turn_cases what known g
  · simp [refused]
  · obtain refused' | ⟨e', read', key', found', reads'⟩ := turn_cases what known g'
    · simp [refused']
    · simp only [reads, reads']
      exact h.swap found found' (apart e key e' key') d g.2 g'.2

end Turns

section Refl

/-- Converters that are alike make lists that are alike. -/
theorem converter_alike {before before' : List Converter} {node node' : List Event}
    (same : before.map Converter.asMaps = before'.map Converter.asMaps)
    (alike : (readConverter.given node).map Converter.asMaps =
      (readConverter.given node').map Converter.asMaps) :
    ((readConverter >>= fun c => pure (before ++ [c])).given node).map (List.map Converter.asMaps) =
      ((readConverter >>= fun c => pure (before' ++ [c])).given node').map
        (List.map Converter.asMaps) := by
  rw [given_map, given_map]
  refine write_alike alike fun c c' given => ?_
  rw [List.map_append, List.map_append, same, List.map_singleton, List.map_singleton, given]

theorem Agrees.refl {es : List Event} (place : Place) (nested : Nested .node es) :
    Agrees place es es := by
  refine ⟨rfl, rfl, ?_⟩
  cases place with
  | converters =>
      intro before before' same
      obtain ⟨e, rest, rfl, -⟩ := nested.head_of_node
      by_cases kind : e.kind = .sequenceStart
      · obtain ⟨nodes, finish, each, closes, whole⟩ := nested.exists_sequenceOf kind
        rw [whole]
        exact eachItem_alike (fun _ => readConverter_takes.map _)
          (fun _ _ _ _ same alike => converter_alike same alike) kind closes each each
          (List.forall₂_same.mpr fun _ _ => rfl) same
      · rw [readConverters, readConverters, eachItem_given_other kind, eachItem_given_other kind]
  | properties | property | domainType | decoratorCode => exact fun _ => rfl
  | plain => trivial
  | _ => rfl

end Refl

section Aligning
variable {place : Place} {start finish : Event} {groups groups' : List Group}
  {es es' : List Event}

/-- The event behind the start of a mapping: the first key begins there. -/
def leadingOf (groups : List Group) (finish : Event) : Event :=
  (groups.head?.bind (·.1.head?)).getD finish

theorem mappingOf_leading (each : ∀ g ∈ groups, g.Nested) :
    ∃ more, mappingOf start groups finish = start :: leadingOf groups finish :: more := by
  cases groups with
  | nil => exact ⟨[], rfl⟩
  | cons g groups =>
      obtain ⟨key, value⟩ := g
      obtain ⟨e, rest, rfl, -⟩ := (each _ List.mem_cons_self).1.head_of_node
      exact ⟨_, rfl⟩

theorem readProperty_mappingOf {slot : Nat} (opens : start.kind = .mappingStart)
    (each : ∀ g ∈ groups, g.Nested) :
    (readProperty slot).given (mappingOf start groups finish) =
      (readVariant slot (leadingOf groups finish)).given (mappingOf start groups finish) := by
  obtain ⟨more, first⟩ := mappingOf_leading each
  rw [first, readProperty_leading slot opens]

/-- Groups that are put into another order, where their keys differ, or exchanged for alike ones. -/
inductive Turned (place : Place) (groups groups' : List Group) : Prop
  | order (distinct : groups.Pairwise place.Apart) (perm : groups.Perm groups')
  | alike (each : List.Forall₂ (AlikeGroup place) groups groups')

/-- Two collections of which the one is read as the other one is, part by part. -/
inductive Aligned (place : Place) : List Event → List Event → Prop
  | mapping {start finish : Event} {groups groups' : List Group}
    (opens : start.kind = .mappingStart) (closes : finish.kind = .mappingEnd)
    (each : ∀ g ∈ groups, g.Nested) (each' : ∀ g ∈ groups', g.Nested)
    (leading : place = .property → leadingOf groups finish = leadingOf groups' finish)
    (turned : Turned place groups groups') :
    Aligned place (mappingOf start groups finish) (mappingOf start groups' finish)
  | sequence {start finish : Event} {nodes nodes' : List (List Event)}
    (opens : start.kind = .sequenceStart) (closes : finish.kind = .sequenceEnd)
    (each : ∀ node ∈ nodes, Nested .node node) (each' : ∀ node ∈ nodes', Nested .node node)
    (items : List.Forall₂ (Agrees place.item) nodes nodes') :
    Aligned place (sequenceOf start nodes finish) (sequenceOf start nodes' finish)

namespace Aligned
variable {α α' σ τ : Type} {known : Fields σ} {view : σ → τ} {view' : α → α'}

theorem nested (h : Aligned place es es') : Nested .node es ∧ Nested .node es' := by
  cases h with
  | mapping opens closes each each' =>
      exact ⟨.mappingOf opens each closes, .mappingOf opens each' closes⟩
  | sequence opens closes each each' =>
      exact ⟨.sequenceOf opens each closes, .sequenceOf opens each' closes⟩

/-- Both start with the same event, which is no scalar. -/
theorem heads (h : Aligned place es es') :
    ∃ e rest rest', es = e :: rest ∧ es' = e :: rest' ∧ e.kind ≠ .scalar := by
  cases h with
  | mapping opens => exact ⟨_, _, _, rfl, rfl, by rw [opens]; nofun⟩
  | sequence opens => exact ⟨_, _, _, rfl, rfl, by rw [opens]; nofun⟩

theorem fields (h : Aligned place es es') (commutes : Commutes place known view) (what : String)
    (d : σ) : ((Read.fields what known d).given es).map view =
      ((Read.fields what known d).given es').map view := by
  cases h with
  | mapping opens closes each each' _ turned =>
      rw [fields_given commutes.take opens each closes,
        fields_given commutes.take opens each' closes]
      cases turned with
      | order distinct perm =>
          refine foldlM_perm (fun _ _ => Place.Apart.symm)
            (fun _ _ _ _ same alike => commutes.turn_alike same alike)
            (fun g member => ?_) (fun d _ _ apart => commutes.turn_swap apart d) perm distinct
          exact ⟨rfl, .refl _ (each g member).2⟩
      | alike groups =>
          exact foldlM_alike (fun _ _ _ _ same alike => commutes.turn_alike same alike) groups rfl
  | sequence opens =>
      have other : ∀ (start : Event) (rest : List Event), start.kind = .sequenceStart →
          (Read.fields what known d).given (start :: rest) = none := fun start rest opens =>
        fields_given_other (by rw [opens]; nofun) rest d
      rw [sequenceOf, sequenceOf, other _ _ opens, other _ _ opens]

/-- A section that completes alike drafts alike. -/
theorem «section» (h : Aligned place es es') (commutes : Commutes place known view) {what : String}
    {d : σ} {tail : Event → σ → Read α} (settles : ∀ start d, Settles start (tail start d))
    (completes : ∀ start d d', view d = view d' →
      ((tail start d).given []).map view' = ((tail start d').given []).map view') :
    ((current >>= fun start => Read.fields what known d >>= tail start).given es).map view' =
      ((current >>= fun start => Read.fields what known d >>= tail start).given es').map view' := by
  have fields := h.fields commutes what d
  obtain ⟨e, rest, rest', rfl, rfl, -⟩ := h.heads
  rw [given_section settles, given_section settles]
  cases left : (Read.fields what known d).given (e :: rest) with
  | none =>
      rw [left] at fields
      rw [Option.map_eq_none_iff.mp fields.symm]
  | some s =>
      rw [left] at fields
      obtain ⟨s', right, same⟩ := Option.map_eq_some_iff.mp fields.symm
      rw [right]
      exact completes e s s' same.symm

/-- A section whose draft is taken as it is. -/
theorem plainSection {known : Fields σ} (h : Aligned place es es')
    (commutes : Commutes place known id) {what : String} {d : σ} {tail : Event → σ → Read α}
    (settles : ∀ start d, Settles start (tail start d)) :
    (current >>= fun start => Read.fields what known d >>= tail start).given es =
      (current >>= fun start => Read.fields what known d >>= tail start).given es' := by
  have whole :
      ((current >>= fun start => Read.fields what known d >>= tail start).given es).map id =
        ((current >>= fun start => Read.fields what known d >>= tail start).given es').map id :=
    h.section commutes settles (by rintro start d _ rfl; rfl)
  rwa [Option.map_id] at whole

/-- Items that agree are read alike. -/
theorem eachItem {body : σ → Read σ} (h : Aligned place es es') (takes : ∀ s, TakesNode (body s))
    (step : ∀ s s' node node', view s = view s' → Agrees place.item node node' →
      ((body s).given node).map view = ((body s').given node').map view) {s s' : σ}
    (same : view s = view s') : ((Read.eachItem (fun _ => body) s).given es).map view =
      ((Read.eachItem (fun _ => body) s').given es').map view := by
  cases h with
  | mapping opens =>
      have other : ∀ (start : Event) (rest : List Event) (s : σ), start.kind = .mappingStart →
          (Read.eachItem (fun _ => body) s).given (start :: rest) = none :=
        fun start rest s opens => eachItem_given_other (by rw [opens]; nofun) rest s
      rw [mappingOf, mappingOf, other _ _ _ opens, other _ _ _ opens]
  | sequence opens closes each each' items =>
      exact eachItem_alike takes step opens closes each each' items same

/-- Items that are read for themselves. -/
theorem plainItems {x : σ → Read α} {u : σ → α → σ} (h : Aligned place es es')
    (takes : ∀ s, TakesNode (x s))
    (step : ∀ s node node', Agrees place.item node node' → (x s).given node = (x s).given node')
    (s : σ) :
    (Read.eachItem (fun _ s => x s >>= fun a => pure (u s a)) s).given es =
      (Read.eachItem (fun _ s => x s >>= fun a => pure (u s a)) s).given es' := by
  have whole : ((Read.eachItem (fun _ s => x s >>= fun a => pure (u s a)) s).given es).map id =
      ((Read.eachItem (fun _ s => x s >>= fun a => pure (u s a)) s).given es').map id := by
    refine h.eachItem (fun s => (takes s).map _) (fun s _ node node' same agrees => ?_) rfl
    cases same
    exact congrArg _ (field_alike (step s node node' agrees))
  rwa [Option.map_id] at whole

theorem scalars (h : Aligned place es es') : Read.scalars.given es = Read.scalars.given es' := by
  have items := h.plainItems (x := fun _ => Read.scalar) (u := fun read e => read ++ [e])
    (fun _ => scalar_takes)
    (fun _ _ _ agrees => by rw [scalar_given, scalar_given, agrees.scalar]) []
  obtain ⟨e, rest, rest', rfl, rfl, kind⟩ := h.heads
  rw [given, given, scalars_alone_other kind, scalars_alone_other kind]
  exact items

/-- A property is told by its leading key, which comes first in both. -/
theorem readProperty (h : Aligned .property es es') (slot : Nat) :
    (Grammar.readProperty slot).given es = (Grammar.readProperty slot).given es' := by
  have variant : ∀ leading, (readVariant slot leading).given es =
      (readVariant slot leading).given es' := by
    intro leading
    unfold readVariant
    split
    · next read known =>
      split
      · unfold variant? at known
        split at known <;> cases known
        · exact h.plainSection regularFields_commute fun _ _ => .bind (.require _ _ _) fun _ =>
            .bind (.require _ _ _) fun _ => .bind (.require _ _ _) fun _ => .pure _
        · exact h.plainSection associationFields_commute fun _ _ => .bind (.require _ _ _) fun _ =>
            .bind (.require _ _ _) fun _ => .pure _
        · exact h.plainSection compositionFields_commute fun _ _ => .bind (.require _ _ _) fun _ =>
            .bind (.require _ _ _) fun _ => .bind (.require _ _ _) fun _ => .pure _
        · exact h.plainSection aliasFields_commute fun _ _ =>
            .bind (.require _ _ _) fun _ => .pure _
      · rfl
    · rfl
  cases h with
  | mapping opens closes each each' leading =>
      rw [readProperty_mappingOf opens each, readProperty_mappingOf opens each', variant,
        leading rfl]
  | sequence opens =>
      rw [sequenceOf, sequenceOf, readProperty_other slot (by rw [opens]; nofun),
        readProperty_other slot (by rw [opens]; nofun)]

theorem readProperties (h : Aligned .properties es es') (before : List Property) :
    (Grammar.readProperties before).given es = (Grammar.readProperties before).given es' := by
  have step : ∀ (ps : List Property) (node node' : List Event), Agrees .property node node' →
      (Grammar.readProperty ps.length).given node = (Grammar.readProperty ps.length).given node' :=
    fun ps _ _ agrees => agrees.reads ps.length
  exact h.plainItems (u := fun ps p => ps ++ [p]) (fun ps => readProperty_takes ps.length) step
    before

theorem reads (h : Aligned place es es') : place.Reads es es' := by
  cases place with
  | header =>
      have fields := h.fields headerFields_commute "file header" {}
      rwa [Option.map_id] at fields
  | «class» =>
      exact h.plainSection classFields_commute fun _ _ => .bind (.require _ _ _) fun _ =>
        .bind (.require _ _ _) fun _ => .pure _
  | properties => exact h.readProperties
  | property => exact h.readProperty
  | selection =>
      exact h.plainSection selectionFields_commute fun _ _ =>
        .bind (.require _ _ _) fun _ => .pure _
  | domain =>
      refine h.section domainFields_commute (fun _ _ => .bind (.require _ _ _) fun _ => .pure _) ?_
      intro start d d' same
      have name : d.name = d'.name := congrArg (·.1.name) same
      simp only [given_require, given_pure, name]
      cases d'.name with
      | none => rfl
      | some name =>
          exact congrArg (fun m => some ((⟨name, m.1.label, m.1.length, m.1.scale, m.1.mediaType,
            [], [], none⟩ : Domain), m.2)) same
  | domainType =>
      exact fun _ => h.plainSection domainTypeFields_commute fun _ _ =>
        .bind (.require _ _ _) fun _ => .pure _
  | converters =>
      exact fun before before' same => h.eachItem (fun _ => readConverter_takes.map _)
        (fun _ _ _ _ same agrees => converter_alike same agrees.reads) same
  | converter =>
      refine h.section converterFields_commute (fun start d => ?_) fun start d d' same => ?_
      · split
        · exact .reject (by simp)
        · exact .pure d
      · have targets : d.targetReferences = d'.targetReferences :=
          congrArg (·.1.targetReferences) same
        rw [targets]
        split
        · rfl
        · exact congrArg some same
  | decorator =>
      refine h.section decoratorFields_commute
        (fun _ _ => .bind (.require _ _ _) fun _ => .pure _) ?_
      intro start d d' same
      have name : d.name = d'.name := congrArg (·.1.name) same
      simp only [given_require, given_pure, name]
      cases d'.name with
      | none => rfl
      | some name =>
          exact congrArg (fun m => some ((⟨name, m.1.description, [], none⟩ : Decorator), m.2)) same
  | decoratorCode =>
      intro language
      have fields := h.fields decoratorCodeFields_commute s!"{language} decorator implementation"
        ⟨[], [], none, []⟩
      rwa [Option.map_id] at fields
  | endpoint =>
      exact h.plainSection endpointFields_commute fun _ _ => .bind (.require _ _ _) fun _ =>
        .bind (.require _ _ _) fun _ => .bind (.require _ _ _) fun _ => .pure _
  | fileAlias =>
      exact h.plainSection fileAliasFields_commute fun _ _ =>
        .bind (.require _ _ _) fun _ => .pure _
  | plain => trivial

theorem agrees (h : Aligned place es es') : Agrees place es es' := by
  refine ⟨?_, h.scalars, h.reads⟩
  obtain ⟨e, rest, rest', rfl, rfl, -⟩ := h.heads
  rfl

end Aligned

end Aligning

section Reordering
variable {place : Place} {es es' : List Event}

/-- Somewhere in a node the groups of one mapping are put into another order. The keys of that
mapping differ, and the leading key of a property stays first. -/
inductive Reorders : Place → List Event → List Event → Prop
  | here {place : Place} {start finish : Event} {groups groups' : List Group}
    (opens : start.kind = .mappingStart) (closes : finish.kind = .mappingEnd)
    (each : ∀ g ∈ groups, g.Nested) (distinct : groups.Pairwise place.Apart)
    (perm : groups.Perm groups') (leading : place = .property → groups.head? = groups'.head?) :
    Reorders place (mappingOf start groups finish) (mappingOf start groups' finish)
  | value {place : Place} {start finish : Event} {before after : List Group}
    {key value value' : List Event} (opens : start.kind = .mappingStart)
    (closes : finish.kind = .mappingEnd) (each : ∀ g ∈ before ++ (key, value) :: after, g.Nested)
    (inside : Reorders (place.within key) value value') :
    Reorders place (mappingOf start (before ++ (key, value) :: after) finish)
      (mappingOf start (before ++ (key, value') :: after) finish)
  | key {place : Place} {start finish : Event} {before after : List Group}
    {key key' value : List Event} (opens : start.kind = .mappingStart)
    (closes : finish.kind = .mappingEnd) (each : ∀ g ∈ before ++ (key, value) :: after, g.Nested)
    (inside : Reorders .plain key key') :
    Reorders place (mappingOf start (before ++ (key, value) :: after) finish)
      (mappingOf start (before ++ (key', value) :: after) finish)
  | item {place : Place} {start finish : Event} {before after : List (List Event)}
    {node node' : List Event} (opens : start.kind = .sequenceStart)
    (closes : finish.kind = .sequenceEnd) (each : ∀ n ∈ before ++ node :: after, Nested .node n)
    (inside : Reorders place.item node node') :
    Reorders place (sequenceOf start (before ++ node :: after) finish)
      (sequenceOf start (before ++ node' :: after) finish)

/-- The groups of some mappings in a node are put into another order, one after the other. -/
def Rearranges (place : Place) : List Event → List Event → Prop :=
  Relation.ReflTransGen (Reorders place)

/-- Lists that differ in one place. -/
theorem forall₂_middle {α : Type} {R : α → α → Prop} {before after : List α} {a a' : α}
    (refl : ∀ b ∈ before ++ a :: after, R b b) (h : R a a') :
    List.Forall₂ R (before ++ a :: after) (before ++ a' :: after) := by
  obtain ⟨early, late⟩ := List.forall_mem_append.mp refl
  exact List.rel_append (List.forall₂_same.mpr early)
    (.cons h (List.forall₂_same.mpr (List.forall_mem_cons.mp late).2))

theorem leadingOf_middle {before after : List Group} {g g' : Group} (finish : Event)
    (same : g.1.head? = g'.1.head?) :
    leadingOf (before ++ g :: after) finish = leadingOf (before ++ g' :: after) finish := by
  cases before with
  | nil => exact congrArg (·.getD finish) same
  | cons first before => rfl

theorem Reorders.aligned (h : Reorders place es es') : Aligned place es es' := by
  -- Every kind of group must be alike itself, for the groups beside the one that changes.
  have refl : ∀ {place : Place} {groups : List Group}, (∀ g ∈ groups, g.Nested) →
      ∀ g ∈ groups, AlikeGroup place g g := fun each g member => ⟨rfl, .refl _ (each g member).2⟩
  have others : ∀ {α : Type} {P : α → Prop} {before after : List α} {a a' : α},
      (∀ b ∈ before ++ a :: after, P b) → P a' → ∀ b ∈ before ++ a' :: after, P b := by
    intro α P before after a a' each holds
    obtain ⟨early, late⟩ := List.forall_mem_append.mp each
    exact List.forall_mem_append.mpr
      ⟨early, List.forall_mem_cons.mpr ⟨holds, (List.forall_mem_cons.mp late).2⟩⟩
  induction h with
  | here opens closes each distinct perm leading =>
      refine .mapping opens closes each (fun g member => each g (perm.mem_iff.mpr member))
        (fun property => ?_) (.order distinct perm)
      rw [leadingOf, leadingOf, leading property]
  | @value place start finish before after key value value' opens closes each _ ih =>
      have here := each (key, value) (List.mem_append_right _ List.mem_cons_self)
      exact .mapping opens closes each (others each ⟨here.1, ih.nested.2⟩)
        (fun _ => leadingOf_middle finish rfl)
        (.alike (forall₂_middle (refl each) ⟨rfl, ih.agrees⟩))
  | @key place start finish before after key key' value opens closes each _ ih =>
      have here := each (key, value) (List.mem_append_right _ List.mem_cons_self)
      refine .mapping opens closes each (others each ⟨ih.nested.2, here.2⟩)
        (fun _ => leadingOf_middle finish ih.agrees.head)
        (.alike (forall₂_middle (refl each) ⟨ih.agrees.head, .refl _ here.2⟩))
  | item opens closes each _ ih =>
      exact .sequence opens closes each (others each ih.nested.2)
        (forall₂_middle (fun n member => .refl _ (each n member)) ih.agrees)

end Reordering

section Outcomes
variable {α β : Type} {place : Place} {es es' : List Event} {x : Read α} {view : α → β}

/-- Of nodes that are rearranged, a read rejects all or none, and gives the same on them. -/
def Indifferent (place : Place) (view : α → β) (x : Read α) : Prop :=
  ∀ es es', Rearranges place es es' → ∀ passed after stop,
    (x.run ⟨passed, es ++ after, stop⟩).1.toOption.map view =
      (x.run ⟨passed, es' ++ after, stop⟩).1.toOption.map view

theorem run_toOption (takes : TakesNode x) (nested : Nested .node es) (passed after : List Event)
    (stop : Event) : (x.run ⟨passed, es ++ after, stop⟩).1.toOption = x.given es := by
  obtain ⟨result, reads⟩ := takes.alone es nested
  obtain ⟨r', run, -⟩ := reads passed after stop
  rw [run, reads.given_eq]

theorem indifferent_of (takes : TakesNode x)
    (same : ∀ es es', place.Reads es es' → (x.given es).map view = (x.given es').map view) :
    Indifferent place view x := by
  intro es es' rearranges passed after stop
  induction rearranges with
  | refl => rfl
  | tail _ last ih =>
      have aligned := last.aligned
      rw [ih, run_toOption takes aligned.nested.1, run_toOption takes aligned.nested.2,
        same _ _ aligned.reads]

/-- A read that goes on over nodes that give the same, where what follows looks at nothing before
them. -/
theorem run_then_alike {f : α → Read β} (takes : TakesNode x) (nested : Nested .node es)
    (nested' : Nested .node es') (same : x.given es = x.given es') {after : List Event}
    {stop : Event} (follows : ∀ a passed passed',
      ((f a).run ⟨passed, after, stop⟩).1 = ((f a).run ⟨passed', after, stop⟩).1)
    (passed : List Event) : ((x >>= f).run ⟨passed, es ++ after, stop⟩).1.toOption =
      ((x >>= f).run ⟨passed, es' ++ after, stop⟩).1.toOption := by
  obtain ⟨result, reads⟩ := takes.alone es nested
  obtain ⟨result', reads'⟩ := takes.alone es' nested'
  rw [reads.given_eq, reads'.given_eq] at same
  obtain ⟨r, run, -⟩ := reads passed after stop
  obtain ⟨r', run', -⟩ := reads' passed after stop
  cases result with
  | error y =>
      cases result' with
      | error y' =>
          rw [run_bind, run_bind, run, run']
          rfl
      | ok a' => cases same
  | ok a =>
      cases result' with
      | error y' => cases same
      | ok a' =>
          cases same
          rw [reads.run_then, reads'.run_then, follows a _ (es'.reverse ++ passed)]

/-- What expects an event looks at nothing before it. -/
theorem run_expect_then {y : Read β} (kinds : List Event.Kind) {e : Event} (settles : Settles e y)
    (passed passed' rest : List Event) (stop : Event) :
    ((discard (expect kinds) >>= fun _ => y).run ⟨passed, rest, stop⟩).1 =
      ((discard (expect kinds) >>= fun _ => y).run ⟨passed', rest, stop⟩).1 := by
  obtain ⟨result, still, -⟩ := settles
  have run : ∀ passed, ((discard (expect kinds) >>= fun _ => y).run ⟨passed, rest, stop⟩).1 =
      if kinds.contains (rest.head?.getD stop).kind then result
      else .error (.at (.unexpected kinds (rest.head?.getD stop)) (rest.head?.getD stop)) := by
    intro passed
    rw [discard_eq, bind_assoc, run_bind, run_expect]
    by_cases wanted : kinds.contains (rest.head?.getD stop).kind = true
    · rw [if_pos wanted, if_pos (by exact wanted)]
      exact congrArg Prod.fst (still _)
    · rw [if_neg wanted, if_neg (by exact wanted)]
      rfl
  rw [run, run]

/-- A header is read field by field, and its module is required behind the end of its document. -/
theorem readHeader_eq (identity : FileIdentity) : ∃ f : Event → HeaderDraft → Read ModelFile,
    (∀ e d, Settles e (f e d)) ∧ readHeader identity =
      discard (expect [.documentStart]) >>= fun _ => current >>= fun e =>
        fields "file header" headerFields {} >>= fun d =>
          discard (expect [.documentEnd]) >>= fun _ => f e d :=
  ⟨_, fun _ _ => .bind (.require _ _ _) fun _ => .pure _, rfl⟩

theorem readHeader_indifferent (identity : FileIdentity) (rearranges : Rearranges .header es es')
    (passed : List Event) (start : Event) (after : List Event) (stop : Event) :
    ((readHeader identity).run ⟨passed, start :: (es ++ after), stop⟩).1.toOption =
      ((readHeader identity).run ⟨passed, start :: (es' ++ after), stop⟩).1.toOption := by
  obtain ⟨f, settles, whole⟩ := readHeader_eq identity
  rw [whole]
  induction rearranges with
  | refl => rfl
  | @tail es es' _ last ih =>
      rw [ih]
      have aligned := last.aligned
      have nested := aligned.nested
      have fields := aligned.reads
      obtain ⟨e, rest, rest', rfl, rfl, -⟩ := aligned.heads
      by_cases starts : [Event.Kind.documentStart].contains start.kind = true
      · have opened := discard_reads (List.contains_iff_mem.mp starts)
        have first : ∀ rest, (discard (expect [.documentStart]) >>= fun _ => current >>= fun e =>
            Read.fields "file header" headerFields {} >>= fun d =>
              discard (expect [.documentEnd]) >>= fun _ => f e d).run
                ⟨passed, start :: (e :: rest ++ after), stop⟩ =
            (Read.fields "file header" headerFields {} >>= fun d =>
              discard (expect [.documentEnd]) >>= fun _ => f e d).run
                ⟨start :: passed, e :: rest ++ after, stop⟩ :=
          fun rest => opened.run_then passed (e :: rest ++ after) stop
        rw [first, first]
        exact run_then_alike (headerFields_take.takes _ _) nested.1 nested.2 fields
          (fun d _ _ => run_expect_then _ (settles e d) _ _ _ _) _
      · have refused : ∀ rest, ((discard (expect [.documentStart]) >>= fun _ => current >>= fun e =>
            Read.fields "file header" headerFields {} >>= fun d =>
              discard (expect [.documentEnd]) >>= fun _ => f e d).run
                ⟨passed, start :: rest, stop⟩).1.toOption = none := by
          intro rest
          rw [discard_eq, bind_assoc, run_bind, run_expect, if_neg (by exact starts)]
          rfl
        rw [refused, refused]

/-- Every section, and the header of a file, is read the same whatever the order of the keys in it
is, if its tables count as maps. -/
theorem sections_ignore_key_order :
    Indifferent .class id readClass ∧ Indifferent .domain Domain.asMaps readDomain ∧
      Indifferent .decorator Decorator.asMaps readDecorator ∧
      Indifferent .endpoint id readEndpoint ∧ Indifferent .fileAlias id readFileAlias ∧
      (∀ slot, Indifferent .property id (readProperty slot)) ∧
      ∀ identity es es', Rearranges .header es es' → ∀ passed start after stop,
        ((readHeader identity).run ⟨passed, start :: (es ++ after), stop⟩).1.toOption =
          ((readHeader identity).run ⟨passed, start :: (es' ++ after), stop⟩).1.toOption := by
  refine ⟨?_, ?_, ?_, ?_, ?_, fun slot => ?_, fun identity _ _ => readHeader_indifferent identity⟩
  · exact indifferent_of readClass_takes fun _ _ => congrArg _
  · exact indifferent_of readDomain_takes fun _ _ => id
  · exact indifferent_of readDecorator_takes fun _ _ => id
  · exact indifferent_of readEndpoint_takes fun _ _ => congrArg _
  · exact indifferent_of readFileAlias_takes fun _ _ => congrArg _
  · exact indifferent_of (readProperty_takes slot) fun _ _ reads => congrArg _ (reads slot)

end Outcomes

namespace KeyOrder
open Describing

def group (key value : String) (column : Nat) : Group :=
  ([text key column], [text value (column + 1)])

def propertyOf (groups : List Group) : List Event :=
  mappingOf (mark .mappingStart 8) (group "name" "x" 9 :: groups) (mark .mappingEnd 15)

def properties (groups : List Group) : Group :=
  ([text "properties" 6],
    sequenceOf (mark .sequenceStart 7) [propertyOf groups] (mark .sequenceEnd 16))

def classOf (groups : List Group) : List Event :=
  mappingOf (mark .mappingStart 1) groups (mark .mappingEnd 17)

/-- The class `{name: A, comment: c, properties: [{name: x, domain: D, comment: d}]}`. -/
def node : List Event :=
  classOf [group "name" "A" 2, group "comment" "c" 4,
    properties [group "domain" "D" 11, group "comment" "d" 13]]

/-- Its keys in another order, and so those of its property but for the leading one. -/
def node' : List Event :=
  classOf [properties [group "comment" "d" 13, group "domain" "D" 11],
    group "comment" "c" 4, group "name" "A" 2]

theorem rearranged : Rearranges .class node node' := by
  have plain : ∀ key value column, (group key value column).Nested :=
    fun _ _ _ => ⟨.scalar rfl, .scalar rfl⟩
  have three : ∀ g g' g'' : Group, g.Nested → g'.Nested → g''.Nested →
      ∀ x ∈ [g, g', g''], x.Nested := by
    intro g g' g'' first second third
    simp [first, second, third]
  have property : Reorders .property (propertyOf [group "domain" "D" 11, group "comment" "d" 13])
      (propertyOf [group "comment" "d" 13, group "domain" "D" 11]) :=
    .here rfl rfl (three _ _ _ (plain _ _ _) (plain _ _ _) (plain _ _ _))
      (by simp [Place.Apart, Place.canon, group, scalar?, text])
      ((List.Perm.swap _ _ []).cons _) fun _ => rfl
  have single := List.forall_mem_singleton.mpr property.aligned.nested.1
  have list : Reorders .properties (properties [group "domain" "D" 11, group "comment" "d" 13]).2
      (properties [group "comment" "d" 13, group "domain" "D" 11]).2 :=
    @Reorders.item _ _ _ [] [] _ _ rfl rfl single property
  obtain ⟨before, behind⟩ := list.aligned.nested
  have value : Reorders .class node (classOf [group "name" "A" 2, group "comment" "c" 4,
      properties [group "comment" "d" 13, group "domain" "D" 11]]) :=
    @Reorders.value .class _ _ [group "name" "A" 2, group "comment" "c" 4] []
      [text "properties" 6] _ _ rfl rfl
      (three _ _ _ (plain _ _ _) (plain _ _ _) ⟨.scalar rfl, before⟩) list
  have each := three _ _ _ (plain "name" "A" 2) (plain "comment" "c" 4)
    (⟨.scalar rfl, behind⟩ : Group.Nested (properties _))
  refine .tail (.single value) (.here rfl rfl each ?_ ?_ fun other => Place.noConfusion other)
  · simp [Place.Apart, Place.canon, group, properties, scalar?, text]
  · exact List.reverse_perm [properties [group "comment" "d" 13, group "domain" "D" 11],
      group "comment" "c" 4, group "name" "A" 2]

/-- The class that is read from both. -/
theorem sections_ignore_key_order_class :
    Rearranges .class node node' ∧
      (readClass.run ⟨[], node ++ [], mark .streamEnd 18⟩).1.toOption.isSome ∧
      (readClass.run ⟨[], node ++ [], mark .streamEnd 18⟩).1.toOption.map id =
        (readClass.run ⟨[], node' ++ [], mark .streamEnd 18⟩).1.toOption.map id :=
  ⟨rearranged, rfl, sections_ignore_key_order.1 node node' rearranged [] [] _⟩

end KeyOrder

end DataModel.Grammar
