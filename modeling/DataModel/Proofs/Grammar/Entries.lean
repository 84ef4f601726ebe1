import DataModel.Proofs.Grammar.Taking
import DataModel.Proofs.Source.Giving

/-!
What the entries of a section say. A key's last value counts, unless all its values are listed. The
rules of a section tell which keys it knows, what their values look like and which must be there;
reading the section writes its entries, which keep the rules, over a draft.
-/
namespace DataModel.Grammar
open DataModel.Source Read

/-- The entries of a mapping: each key with the events of its value. -/
abbrev Entries := List (Event × List Event)

section Values

def textOf (value : List Event) : Option String := (scalar? value).map (·.value)

def referenceOf (value : List Event) : Option Reference :=
  (scalar? value).map fun e => ⟨e.value, e.line, e.column⟩

def flagOf (value : List Event) : Option Bool := (scalar? value).bind fun e =>
  if e.value == "true" then some true else if e.value == "false" then some false else none

def wordOf {α : Type} (words : List (String × α)) (value : List Event) : Option α :=
  (scalar? value).bind fun e => words.lookup e.value

def referencesOf (value : List Event) : List Reference :=
  (value.filter (·.kind == .scalar)).map fun e => ⟨e.value, e.line, e.column⟩

/-- What a key was given last. -/
def last {α : Type} (of : List Event → Option α) (key : String) (entries : Entries) : Option α :=
  (entries.filterMap fun e => if e.1.value = key then of e.2 else none).getLast?

/-- What some keys were given, all together. -/
def listed (keys : List String) (entries : Entries) : List Reference :=
  (entries.filter (keys.contains ·.1.value)).flatMap fun e => referencesOf e.2

variable {α : Type} {of : List Event → Option α} {key : String} {keys : List String}

@[simp] theorem last_nil : last of key [] = none := rfl

theorem last_append (before after : Entries) :
    last of key (before ++ after) = (last of key after).or (last of key before) := by
  rw [last, List.filterMap_append, List.getLast?_append]
  rfl

@[simp] theorem last_single (k : Event) (value : List Event) :
    last of key [(k, value)] = if k.value = key then of value else none := by
  rw [last, List.filterMap_cons, List.filterMap_nil]
  split
  · next none' => simpa using none'.symm
  · next some' => simpa using some'.symm

/-- What a key was given last is the value of one of its entries. -/
theorem exists_of_last {entries : Entries} {a : α} (given : last of key entries = some a) :
    ∃ e ∈ entries, e.1.value = key ∧ of e.2 = some a := by
  obtain ⟨e, member, means⟩ := List.mem_filterMap.mp (List.mem_of_getLast? given)
  split at means
  · next same => exact ⟨e, member, same, means⟩
  · cases means

/-- The last value counts, where every value of the key means something. -/
theorem last_eq {entries : Entries}
    (means : ∀ e ∈ entries, e.1.value = key → (of e.2).isSome) :
    last of key entries = (last some key entries).bind of := by
  induction entries with
  | nil => rfl
  | cons e entries ih =>
      obtain ⟨first, others⟩ := List.forall_mem_cons.mp means
      obtain ⟨k, value⟩ := e
      rw [← List.singleton_append, last_append, last_append, ih others, last_single, last_single]
      cases found : last some key entries with
      | none =>
          simp only [Option.bind_none, Option.none_or]
          by_cases same : k.value = key
          · rw [if_pos same, if_pos same, Option.bind_some]
          · rw [if_neg same, if_neg same, Option.bind_none]
      | some value' =>
          obtain ⟨e, member, same, here⟩ := exists_of_last found
          have known := others e member same
          rw [Option.some.inj here] at known
          obtain ⟨a, known⟩ := Option.isSome_iff_exists.mp known
          rw [Option.bind_some, known, Option.some_or, Option.some_or, Option.bind_some, known]

@[simp] theorem listed_nil : listed keys [] = [] := rfl

theorem listed_append (before after : Entries) :
    listed keys (before ++ after) = listed keys before ++ listed keys after := by
  rw [listed, List.filter_append, List.flatMap_append]
  rfl

@[simp] theorem listed_single (k : Event) (value : List Event) :
    listed keys [(k, value)] = if keys.contains k.value then referencesOf value else [] := by
  rw [listed, List.filter_cons]
  split
  · simp
  · rfl

end Values

section Shapes
variable {value : List Event}

/-- One of the two truth values. -/
def IsFlag (value : List Event) : Prop :=
  ∃ e : Event, e.kind = .scalar ∧ value = [e] ∧ (e.value = "true" ∨ e.value = "false")

def IsWord (words : List String) (value : List Event) : Prop :=
  ∃ e : Event, e.kind = .scalar ∧ value = [e] ∧ e.value ∈ words

theorem isSome_scalar? (nested : Nested .node value) : (scalar? value).isSome ↔ IsScalar value := by
  rw [Option.isSome_iff_exists]
  exact exists_congr fun e => scalar?_eq_some nested

theorem isSome_textOf (nested : Nested .node value) : (textOf value).isSome ↔ IsScalar value := by
  rw [textOf, Option.isSome_map, isSome_scalar? nested]

theorem isSome_referenceOf (nested : Nested .node value) :
    (referenceOf value).isSome ↔ IsScalar value := by
  rw [referenceOf, Option.isSome_map, isSome_scalar? nested]

/-- A scalar whose text has a meaning. -/
theorem isSome_bind_scalar? {α : Type} (nested : Nested .node value) (f : Event → Option α) :
    ((scalar? value).bind f).isSome ↔
      ∃ e : Event, e.kind = .scalar ∧ value = [e] ∧ (f e).isSome := by
  rw [Option.isSome_bind]
  cases found : scalar? value with
  | none =>
      refine iff_of_false Bool.false_ne_true ?_
      rintro ⟨e, kind, same, -⟩
      cases found.symm.trans ((scalar?_eq_some nested).mpr ⟨kind, same⟩)
  | some e =>
      obtain ⟨kind, same⟩ := (scalar?_eq_some nested).mp found
      constructor
      · exact fun known => ⟨e, kind, same, known⟩
      · rintro ⟨e', -, same', known⟩
        cases same.symm.trans same'
        exact known

theorem isSome_flagOf (nested : Nested .node value) : (flagOf value).isSome ↔ IsFlag value := by
  rw [flagOf, isSome_bind_scalar? nested, IsFlag]
  refine exists_congr fun e => and_congr_right fun _ => and_congr_right fun _ => ?_
  by_cases yes : e.value = "true"
  · simp [yes]
  · by_cases no : e.value = "false"
    · simp [no]
    · simp [yes, no]

theorem isSome_wordOf {α : Type} (words : List (String × α)) (nested : Nested .node value) :
    (wordOf words value).isSome ↔ IsWord (words.map (·.1)) value := by
  rw [wordOf, isSome_bind_scalar? nested, IsWord]
  refine exists_congr fun e => and_congr_right fun _ => and_congr_right fun _ => ?_
  rw [List.lookup_isSome_iff]
  simp

end Shapes

section Overlays
variable {σ : Type} {what : String} {known : Fields σ} {entries : Entries} {node : List Event}

/-- What the events of a value may be. -/
structure Shape where
  Fits : List Event → Prop
  nested : ∀ {value}, Fits value → Nested .node value

namespace Shape

def scalar : Shape := ⟨IsScalar, IsScalar.nested⟩

def scalars : Shape := ⟨IsScalars, IsScalars.nested⟩

def flag : Shape := ⟨IsFlag, fun ⟨_, kind, same, _⟩ => same ▸ .scalar kind⟩

def word (words : List String) : Shape :=
  ⟨IsWord words, fun ⟨_, kind, same, _⟩ => same ▸ .scalar kind⟩

end Shape

/-- What the entries of a section may be: the shape of the value of each key, and the keys that
must be there. -/
structure Rules where
  shape? : String → Option Shape
  needed : List String

namespace Rules

/-- The key is a scalar that the rules know, and the value has the shape that it calls for. -/
def Allow (R : Rules) (entry : Event × List Event) : Prop :=
  entry.1.kind = .scalar ∧ ∃ shape, R.shape? entry.1.value = some shape ∧ shape.Fits entry.2

structure Fit (R : Rules) (entries : Entries) : Prop where
  allowed : ∀ entry ∈ entries, R.Allow entry
  complete : ∀ key ∈ R.needed, ∃ entry ∈ entries, entry.1.value = key

def Hold (R : Rules) (node : List Event) : Prop := ∃ entries, IsMapping entries node ∧ R.Fit entries

theorem allow_iff {R : Rules} {key : Event} {value : List Event} {shape : Shape}
    (kind : key.kind = .scalar) (calls : R.shape? key.value = some shape) :
    R.Allow (key, value) ↔ shape.Fits value := by
  constructor
  · rintro ⟨-, shape', calls', fits⟩
    cases calls.symm.trans calls'
    exact fits
  · exact fun fits => ⟨kind, shape, calls, fits⟩

end Rules

theorem Rules.Fit.of_last {R : Rules} (allowed : ∀ entry ∈ entries, R.Allow entry)
    (complete : ∀ key ∈ R.needed, ∃ α, ∃ of : List Event → Option α, (last of key entries).isSome) :
    R.Fit entries := by
  refine ⟨allowed, fun key member => ?_⟩
  obtain ⟨α, of, given⟩ := complete key member
  obtain ⟨a, given⟩ := Option.isSome_iff_exists.mp given
  obtain ⟨entry, member, same, -⟩ := exists_of_last given
  exact ⟨entry, member, same⟩

/-- Where the rules call for a shape, a value of the key means something. -/
theorem Rules.Allow.means {R : Rules} {α : Type} {of : List Event → Option α} {shape : Shape}
    {entry : Event × List Event} (h : R.Allow entry) (calls : R.shape? entry.1.value = some shape)
    (fits : ∀ {value}, Nested .node value → ((of value).isSome ↔ shape.Fits value)) :
    (of entry.2).isSome := by
  obtain ⟨-, shape', calls', fit⟩ := h
  cases calls.symm.trans calls'
  exact (fits (shape.nested fit)).mpr fit

/-- A key that must be there was given something. -/
theorem Rules.Fit.last {R : Rules} {α : Type} {of : List Event → Option α} {key : String}
    {shape : Shape} (h : R.Fit entries) (needed : key ∈ R.needed)
    (calls : R.shape? key = some shape)
    (fits : ∀ {value}, Nested .node value → ((of value).isSome ↔ shape.Fits value)) :
    ∃ a, last of key entries = some a := by
  obtain ⟨entry, member, rfl⟩ := h.complete key needed
  obtain ⟨a, known⟩ := Option.isSome_iff_exists.mp ((h.allowed entry member).means calls fits)
  have some' : a ∈ entries.filterMap fun e => if e.1.value = entry.1.value then of e.2 else none :=
    List.mem_filterMap.mpr ⟨entry, member, by rw [if_pos rfl, known]⟩
  exact Option.isSome_iff_exists.mp (List.getLast?_isSome.mpr (List.ne_nil_of_mem some'))

/-- A section is read by writing its entries, which keep the rules, over a draft. -/
structure Overlay (what : String) (known : Fields σ) (R : Rules) (onto : σ → Entries → σ) :
    Prop where
  take : known.Take
  onto_nil : ∀ d : σ, onto d [] = d
  onto_append : ∀ d before after, onto d (before ++ after) = onto (onto d before) after
  reads : ∀ {key : Event} {value : List Event}, key.kind = .scalar → Nested .node value →
    ∀ d d' : σ, (field what known key d).given value = some d' ↔
      R.Allow (key, value) ∧ d' = onto d [(key, value)]

/-- A mapping whose entries keep the rules. -/
def Rules.shape (R : Rules) : Shape where
  Fits := R.Hold
  nested := by
    rintro value ⟨entries, ⟨start, finish, opens, closes, rfl⟩, fit⟩
    refine .mapping opens (.ofEntries (fun entry member => ?_) closes)
    obtain ⟨kind, shape, -, fits⟩ := fit.allowed entry member
    exact ⟨kind, shape.nested fits⟩

namespace Overlay
variable {R : Rules} {onto : σ → Entries → σ}

theorem follows (h : Overlay what known R onto) {d d' : σ} :
    Follows (field what known) d entries d' ↔
      (∀ entry ∈ entries, R.Allow entry) ∧ d' = onto d entries := by
  induction entries generalizing d with
  | nil =>
      constructor
      · rintro ⟨⟩
        exact ⟨fun _ none => absurd none List.not_mem_nil, (h.onto_nil _).symm⟩
      · rintro ⟨-, rfl⟩
        rw [h.onto_nil]
        exact .nil d
  | cons entry entries ih =>
      obtain ⟨key, value⟩ := entry
      have whole : onto d ((key, value) :: entries) = onto (onto d [(key, value)]) entries := by
        rw [← h.onto_append, List.singleton_append]
      constructor
      · intro follows
        cases follows with
        | cons kind node reads rest =>
            obtain ⟨others, rfl⟩ := ih.mp rest
            obtain ⟨first, rfl⟩ := (h.reads kind node d _).mp (given_eq_some.mpr reads.alone_eq)
            exact ⟨List.forall_mem_cons.mpr ⟨first, others⟩, whole.symm⟩
      · rintro ⟨each, rfl⟩
        obtain ⟨first, others⟩ := List.forall_mem_cons.mp each
        obtain ⟨kind, shape, calls, fits⟩ := id first
        have node := shape.nested fits
        have given := given_eq_some.mp ((h.reads kind node d _).mpr ⟨first, rfl⟩)
        refine .cons kind node (((h.take.field what key d).alone node).reads_iff.mpr given) ?_
        exact ih.mpr ⟨others, whole⟩

/-- The draft of a section is the first one with all entries written over it. -/
theorem fields (h : Overlay what known R onto) (nested : Nested .node node) {d d' : σ} :
    (Read.fields what known d).given node = some d' ↔
      ∃ entries, IsMapping entries node ∧ (∀ entry ∈ entries, R.Allow entry) ∧
        d' = onto d entries := by
  rw [given_eq_some, fields_eq, eachKey_alone (h.take.field what) nested]
  exact exists_congr fun entries => and_congr_right fun _ => h.follows

/-- A section gives what its entries, written over the first draft, are completed to. -/
theorem «section» {β : Type} (h : Overlay what known R onto) (nested : Nested .node node) {d : σ}
    {tail : Event → σ → Read β} (settles : ∀ start d, Settles start (tail start d))
    {Makes : Entries → β → Prop}
    (completes : ∀ start entries b, (∀ entry ∈ entries, R.Allow entry) →
      ((tail start (onto d entries)).given [] = some b ↔ Makes entries b))
    (complete : ∀ entries b, Makes entries b →
      ∀ key ∈ R.needed, ∃ α, ∃ of : List Event → Option α, (last of key entries).isSome) {b : β} :
    (current >>= fun start => Read.fields what known d >>= tail start).given node = some b ↔
      ∃ entries, IsMapping entries node ∧ R.Fit entries ∧ Makes entries b := by
  obtain ⟨e, rest, rfl, -⟩ := nested.head_of_node
  rw [given_section settles, Option.bind_eq_some_iff]
  constructor
  · rintro ⟨_, fields, given⟩
    obtain ⟨entries, mapping, allowed, rfl⟩ := (h.fields nested).mp fields
    have makes := (completes e entries b allowed).mp given
    exact ⟨entries, mapping, .of_last allowed (complete entries b makes), makes⟩
  · rintro ⟨entries, mapping, fit, makes⟩
    exact ⟨_, (h.fields nested).mpr ⟨entries, mapping, fit.allowed, rfl⟩,
      (completes e entries b fit.allowed).mpr makes⟩

end Overlay

end Overlays

section Drafts
variable {α σ : Type} {R : Rules} {key : Event} {value : List Event} {d d' : σ}

theorem readReference_given (value : List Event) :
    readReference.given value = referenceOf value := by
  rw [readReference, given_map, scalar_given]
  rfl

theorem readReferences_given (node : Nested .node value) {references : List Reference} :
    readReferences.given value = some references ↔
      IsScalars value ∧ references = referencesOf value := by
  rw [readReferences, given_map, Option.map_eq_some_iff]
  constructor
  · rintro ⟨all, given, rfl⟩
    obtain ⟨list, rfl⟩ := (scalars_given node).mp given
    exact ⟨list, rfl⟩
  · rintro ⟨list, rfl⟩
    exact ⟨_, (scalars_given node).mpr ⟨list, rfl⟩, rfl⟩

theorem strings_given (node : Nested .node value) {texts : List String} :
    strings.given value = some texts ↔
      IsScalars value ∧ texts = (referencesOf value).map (·.name) := by
  rw [strings, given_map, Option.map_eq_some_iff, referencesOf, List.map_map]
  constructor
  · rintro ⟨all, given, rfl⟩
    obtain ⟨list, rfl⟩ := (scalars_given node).mp given
    exact ⟨list, rfl⟩
  · rintro ⟨list, rfl⟩
    exact ⟨_, (scalars_given node).mpr ⟨list, rfl⟩, rfl⟩

/-- A field that is written over by the value of its key. -/
theorem given_over {x : Read α} {of : List Event → Option α} {g : α → σ} {shape : Shape}
    (gives : x.given value = of value) (kind : key.kind = .scalar)
    (calls : R.shape? key.value = some shape) (fits : (of value).isSome ↔ shape.Fits value)
    (same : ∀ a, of value = some a → g a = d) :
    (x >>= fun a => pure (g a)).given value = some d' ↔ R.Allow (key, value) ∧ d' = d := by
  rw [given_map, gives, R.allow_iff kind calls, ← fits]
  cases found : of value with
  | none => simp
  | some a => simp [same a found, eq_comm]

theorem text_over {g : String → σ} (kind : key.kind = .scalar) (node : Nested .node value)
    (calls : R.shape? key.value = some .scalar) (same : ∀ a, textOf value = some a → g a = d) :
    (string >>= fun a => pure (g a)).given value = some d' ↔ R.Allow (key, value) ∧ d' = d :=
  given_over (string_given value) kind calls (isSome_textOf node) same

theorem reference_over {g : Reference → σ} (kind : key.kind = .scalar) (node : Nested .node value)
    (calls : R.shape? key.value = some .scalar)
    (same : ∀ a, referenceOf value = some a → g a = d) :
    (readReference >>= fun a => pure (g a)).given value = some d' ↔
      R.Allow (key, value) ∧ d' = d :=
  given_over (readReference_given value) kind calls (isSome_referenceOf node) same

theorem flag_over {g : Bool → σ} (kind : key.kind = .scalar) (node : Nested .node value)
    (calls : R.shape? key.value = some .flag) (same : ∀ a, flagOf value = some a → g a = d) :
    (boolean >>= fun a => pure (g a)).given value = some d' ↔ R.Allow (key, value) ∧ d' = d :=
  given_over (boolean_given value) kind calls (isSome_flagOf node) same

theorem word_over {words : List (String × α)} {g : α → σ} (kind : key.kind = .scalar)
    (node : Nested .node value) (calls : R.shape? key.value = some (.word (words.map (·.1))))
    (same : ∀ a, wordOf words value = some a → g a = d) :
    (word words >>= fun a => pure (g a)).given value = some d' ↔ R.Allow (key, value) ∧ d' = d :=
  given_over (word_given words value) kind calls (isSome_wordOf words node) same

/-- A field that is written over by a list of scalars. -/
theorem list_over {x : Read α} {g : α → σ} {a : α}
    (gives : ∀ a', x.given value = some a' ↔ IsScalars value ∧ a' = a) (kind : key.kind = .scalar)
    (calls : R.shape? key.value = some .scalars) (same : g a = d) :
    (x >>= fun a => pure (g a)).given value = some d' ↔ R.Allow (key, value) ∧ d' = d := by
  refine given_over rfl kind calls ?_ fun a' given => ?_
  · rw [Option.isSome_iff_exists]
    simp only [gives, exists_and_left, exists_eq, and_true]
    rfl
  · rw [((gives a').mp given).2, same]

theorem references_over {g : List Reference → σ} (kind : key.kind = .scalar)
    (node : Nested .node value) (calls : R.shape? key.value = some .scalars)
    (same : g (referencesOf value) = d) :
    (readReferences >>= fun a => pure (g a)).given value = some d' ↔
      R.Allow (key, value) ∧ d' = d :=
  list_over (fun _ => readReferences_given node) kind calls same

theorem texts_over {g : List String → σ} (kind : key.kind = .scalar)
    (node : Nested .node value) (calls : R.shape? key.value = some .scalars)
    (same : g ((referencesOf value).map (·.name)) = d) :
    (strings >>= fun a => pure (g a)).given value = some d' ↔ R.Allow (key, value) ∧ d' = d :=
  list_over (fun _ => strings_given node) kind calls same

/-- A key that the rules do not know. -/
theorem unknown_over {e : Event} {problem : Problem} (calls : R.shape? key.value = none) :
    (reject problem e : Read σ).given value = some d' ↔ R.Allow (key, value) ∧ d' = d := by
  refine iff_of_false nofun ?_
  rintro ⟨⟨-, shape, calls', -⟩, -⟩
  cases calls.symm.trans calls'

end Drafts

end DataModel.Grammar
