import DataModel.Proofs.Grammar.Describing
import DataModel.Proofs.Grammar.Documents
import DataModel.Proofs.Source.Grouping

/-!
Keys that commute. Every field of a section is written by keys of its own, so two turns of different
keys may be swapped, and a value may be exchanged for one that reads alike. Tables count as maps.
-/
namespace DataModel

/-- A converter with its templates taken as a map. -/
def Converter.asMaps (c : Converter) : Converter × (String → Option String) :=
  ({ c with templates := [] }, c.templates.get?)

/-- A domain with its tables taken as maps. -/
def Domain.asMaps (d : Domain) : Domain × (String → Option DomainType) ×
    List (Converter × (String → Option String)) :=
  ({ d with implementations := [], converters := [] }, d.implementations.get?,
    d.converters.map Converter.asMaps)

def Decorator.asMaps (d : Decorator) : Decorator × (String → Option DecoratorCode) :=
  ({ d with implementations := [] }, d.implementations.get?)

namespace Grammar
open DataModel.Source Read

section Places

/-- What a node stands for in the grammar. -/
inductive Place where
  | header | «class» | properties | property | selection | domain | domainType | converters
  | converter | decorator | decoratorCode | endpoint | fileAlias | plain

namespace Place

/-- What the value of a key stands for. -/
def inside : Place → String → Place
  | .class, key => if key = "properties" then .properties else .plain
  | .property, key => if key = "alias" then .selection else .plain
  | .domain, key =>
    if key = "converters" then .converters
    else if domainLanguages.contains key then .domainType else .plain
  | .decorator, key => if decoratorLanguages.contains key then .decoratorCode else .plain
  | .endpoint, key =>
    if key = "params" then .properties else if key = "returns" then .property else .plain
  | _, _ => .plain

/-- What the items of a sequence stand for. -/
def item : Place → Place
  | .properties => .property
  | .converters => .converter
  | _ => .plain

/-- What the value behind a key stands for, whatever node the key is. -/
def within (place : Place) (key : List Event) : Place :=
  ((scalar? key).map fun e => place.inside e.value).getD .plain

/-- In the selection of an alias two keys count as one. -/
def canon : Place → String → String
  | .selection, "property" => "include"
  | _, key => key

/-- Two groups with different keys. -/
def Apart (place : Place) (g g' : Group) : Prop :=
  ∀ key ∈ scalar? g.1, ∀ key' ∈ scalar? g'.1, place.canon key.value ≠ place.canon key'.value

theorem Apart.symm {place : Place} {g g' : Group} (h : place.Apart g g') : place.Apart g' g :=
  fun key given key' given' => (h key' given' key given).symm

end Place

def readConverters (before : List Converter) : Read (List Converter) :=
  Read.eachItem (fun _ cs => return cs ++ [← readConverter]) before

/-- That the readers at a place give the same on two nodes. -/
def Place.Reads (es es' : List Event) : Place → Prop
  | .header => (fields "file header" headerFields {}).given es =
      (fields "file header" headerFields {}).given es'
  | .class => readClass.given es = readClass.given es'
  | .properties => ∀ before, (readProperties before).given es = (readProperties before).given es'
  | .property => ∀ slot, (readProperty slot).given es = (readProperty slot).given es'
  | .selection => readSelection.given es = readSelection.given es'
  | .domain => (readDomain.given es).map Domain.asMaps = (readDomain.given es').map Domain.asMaps
  | .domainType => ∀ language,
      (readDomainType language).given es = (readDomainType language).given es'
  | .converters => ∀ before before' : List Converter,
      before.map Converter.asMaps = before'.map Converter.asMaps →
      ((readConverters before).given es).map (List.map Converter.asMaps) =
        ((readConverters before').given es').map (List.map Converter.asMaps)
  | .converter =>
      (readConverter.given es).map Converter.asMaps = (readConverter.given es').map Converter.asMaps
  | .decorator =>
      (readDecorator.given es).map Decorator.asMaps = (readDecorator.given es').map Decorator.asMaps
  | .decoratorCode => ∀ language,
      (readDecoratorCode language).given es = (readDecoratorCode language).given es'
  | .endpoint => readEndpoint.given es = readEndpoint.given es'
  | .fileAlias => readFileAlias.given es = readFileAlias.given es'
  | .plain => True

/-- Two nodes that nothing at a place tells apart. -/
structure Agrees (place : Place) (es es' : List Event) : Prop where
  head : es.head? = es'.head?
  scalars : Read.scalars.given es = Read.scalars.given es'
  reads : place.Reads es es'

end Places

namespace Agrees
variable {place : Place} {es es' : List Event}

theorem scalar (h : Agrees place es es') : scalar? es = scalar? es' := by
  rw [scalar?, scalar?, h.head]

theorem string (h : Agrees place es es') : string.given es = string.given es' := by
  rw [string_given, string_given, h.scalar]

theorem boolean (h : Agrees place es es') : boolean.given es = boolean.given es' := by
  rw [boolean_given, boolean_given, h.scalar]

theorem integer (h : Agrees place es es') : integer.given es = integer.given es' := by
  rw [integer_given, integer_given, h.scalar]

theorem word {α : Type} (h : Agrees place es es') (words : List (String × α)) :
    (word words).given es = (word words).given es' := by
  rw [word_given, word_given, h.scalar]

theorem reference (h : Agrees place es es') : readReference.given es = readReference.given es' := by
  rw [readReference_given, readReference_given, referenceOf, referenceOf, h.scalar]

theorem strings (h : Agrees place es es') : strings.given es = strings.given es' := by
  rw [Read.strings, given_map, given_map, h.scalars]

theorem references (h : Agrees place es es') :
    readReferences.given es = readReferences.given es' := by
  rw [readReferences, given_map, given_map, h.scalars]

theorem method (h : Agrees place es es') : readMethod.given es = readMethod.given es' := by
  have gives : ∀ es, readMethod.given es = (scalar? es).bind fun e =>
      if methods.contains e.value then some e.value else none := by
    refine fun es => given_scalar (fun e r => ?_) es
    split
    · rfl
    · rfl
  rw [gives, gives, h.scalar]

end Agrees

section Writing
variable {α α' β σ τ : Type} {view : σ → τ}

/-- A field that is read for itself. -/
theorem field_alike {x : Read α} {g : α → σ} {v v' : List Event} (same : x.given v = x.given v') :
    (x >>= fun a => pure (g a)).given v = (x >>= fun a => pure (g a)).given v' := by
  rw [given_map, given_map, same]

/-- What reads alike is written alike. -/
theorem write_alike {x x' : Option α} {u u' : α → σ} {view' : α → α'}
    (same : x.map view' = x'.map view')
    (write : ∀ a a', view' a = view' a' → view (u a) = view (u' a')) :
    (x.map u).map view = (x'.map u').map view := by
  cases x with
  | none =>
      rw [Option.map_eq_none_iff.mp same.symm]
      rfl
  | some a =>
      obtain ⟨a', given, alike⟩ := Option.map_eq_some_iff.mp same.symm
      rw [given]
      exact congrArg some (write a a' alike.symm)

/-- Two fields may be written in either order, where the first one does not show in what is read
for the second one. -/
theorem swap_writes {x : Option α} {y : σ → Option β} {y' : Option β} {u : α → σ}
    {u' : σ → α → σ} {w : σ → β → σ} {w' : β → σ} (later : ∀ a, y (u a) = y')
    (commute : ∀ a b, view (w (u a) b) = view (u' (w' b) a)) :
    ((x.map u).bind fun d => (y d).map (w d)).map view =
      ((y'.map w').bind fun d => x.map (u' d)).map view := by
  cases x with
  | none => cases y' <;> rfl
  | some a =>
      show ((y (u a)).map (w (u a))).map view = _
      rw [later]
      cases y' with
      | none => rfl
      | some b => exact congrArg some (commute a b)

end Writing

/-- The keys of a section commute if they differ, and read alike what agrees. -/
structure Commutes {σ τ : Type} (place : Place) (known : Fields σ) (view : σ → τ) : Prop where
  take : known.Take
  alike : ∀ {key read}, known key = some read → ∀ {v v'}, Agrees (place.inside key) v v' →
    ∀ {d d'}, view d = view d' → ((read d).given v).map view = ((read d').given v').map view
  swap : ∀ {key key' read read'}, known key = some read → known key' = some read' →
    place.canon key ≠ place.canon key' → ∀ d v v',
    (((read d).given v).bind fun d => (read' d).given v').map view =
      (((read' d).given v').bind fun d => (read d).given v).map view

theorem Commutes.plain {σ : Type} {place : Place} {known : Fields σ} (take : known.Take)
    (alike : ∀ {key read}, known key = some read → ∀ {v v'}, Agrees (place.inside key) v v' →
      ∀ d, (read d).given v = (read d).given v')
    (swap : ∀ {key key' read read'}, known key = some read → known key' = some read' →
      place.canon key ≠ place.canon key' → ∀ d v v',
      (((read d).given v).bind fun d => (read' d).given v').map id =
        (((read' d).given v').bind fun d => (read d).given v).map id) :
    Commutes place known id where
  take := take
  alike := by
    rintro key read found v v' agrees d _ rfl
    exact congrArg _ (alike found agrees d)
  swap := swap

section Plain

theorem regularFields_commute : Commutes .property regularFields id := by
  refine .plain regularFields_take ?_ ?_
  · intro key read known v v' agrees d
    unfold regularFields at known
    split at known <;> cases known
    exacts [field_alike agrees.string, field_alike agrees.reference, field_alike agrees.string,
      field_alike agrees.string, field_alike agrees.boolean, field_alike agrees.boolean,
      field_alike agrees.boolean, field_alike agrees.string]
  · intro key key' read read' known known' apart d v v'
    unfold regularFields at known known'
    split at known <;> cases known <;> split at known' <;> cases known' <;>
      simp only [given_map] <;>
      first
      | exact swap_writes (fun _ => rfl) fun _ _ => rfl
      | exact absurd rfl apart

theorem associationFields_commute : Commutes .property associationFields id := by
  refine .plain associationFields_take ?_ ?_
  · intro key read known v v' agrees d
    unfold associationFields at known
    split at known <;> cases known
    exacts [field_alike agrees.reference, field_alike agrees.string, field_alike (agrees.word _),
      field_alike agrees.string, field_alike agrees.string, field_alike agrees.boolean,
      field_alike agrees.boolean, field_alike agrees.string]
  · intro key key' read read' known known' apart d v v'
    unfold associationFields at known known'
    split at known <;> cases known <;> split at known' <;> cases known' <;>
      simp only [given_map] <;>
      first
      | exact swap_writes (fun _ => rfl) fun _ _ => rfl
      | exact absurd rfl apart

theorem compositionFields_commute : Commutes .property compositionFields id := by
  refine .plain compositionFields_take ?_ ?_
  · intro key read known v v' agrees d
    unfold compositionFields at known
    split at known <;> cases known
    exacts [field_alike agrees.reference, field_alike agrees.string, field_alike (agrees.word _),
      field_alike agrees.reference, field_alike agrees.string, field_alike agrees.string]
  · intro key key' read read' known known' apart d v v'
    unfold compositionFields at known known'
    split at known <;> cases known <;> split at known' <;> cases known' <;>
      simp only [given_map] <;>
      first
      | exact swap_writes (fun _ => rfl) fun _ _ => rfl
      | exact absurd rfl apart

theorem selectionFields_commute : Commutes .selection selectionFields id := by
  refine .plain selectionFields_take ?_ ?_
  · intro key read known v v' agrees d
    unfold selectionFields at known
    split at known <;> cases known
    exacts [field_alike agrees.reference, field_alike agrees.references,
      field_alike agrees.references, field_alike agrees.references]
  · intro key key' read read' known known' apart d v v'
    unfold selectionFields at known known'
    split at known <;> cases known <;> split at known' <;> cases known' <;>
      simp only [given_map] <;>
      first
      | exact swap_writes (fun _ => rfl) fun _ _ => rfl
      | exact absurd rfl apart

theorem aliasFields_commute : Commutes .property aliasFields id := by
  refine .plain aliasFields_take ?_ ?_
  · intro key read known v v' agrees d
    unfold aliasFields at known
    split at known <;> cases known
    exacts [field_alike agrees.reads, field_alike agrees.string, field_alike agrees.string,
      field_alike agrees.string, field_alike agrees.string, field_alike agrees.boolean,
      field_alike agrees.reference]
  · intro key key' read read' known known' apart d v v'
    unfold aliasFields at known known'
    split at known <;> cases known <;> split at known' <;> cases known' <;>
      simp only [given_map] <;>
      first
      | exact swap_writes (fun _ => rfl) fun _ _ => rfl
      | exact absurd rfl apart

theorem classFields_commute : Commutes .class classFields id := by
  refine .plain classFields_take ?_ ?_
  · intro key read known v v' agrees d
    unfold classFields at known
    split at known <;> cases known
    exacts [field_alike agrees.string, field_alike agrees.string, field_alike agrees.string,
      field_alike agrees.string, field_alike agrees.string, field_alike agrees.string,
      field_alike agrees.string, field_alike agrees.reference, field_alike (agrees.word _),
      field_alike agrees.boolean, field_alike agrees.references,
      field_alike (agrees.reads d.properties)]
  · intro key key' read read' known known' apart d v v'
    unfold classFields at known known'
    split at known <;> cases known <;> split at known' <;> cases known' <;>
      simp only [given_map] <;>
      first
      | exact swap_writes (fun _ => rfl) fun _ _ => rfl
      | exact Eq.symm (swap_writes (fun _ => rfl) fun _ _ => rfl)
      | exact absurd rfl apart

theorem domainTypeFields_commute : Commutes .domainType domainTypeFields id := by
  refine .plain domainTypeFields_take ?_ ?_
  · intro key read known v v' agrees d
    unfold domainTypeFields at known
    split at known <;> cases known
    exacts [field_alike agrees.string, field_alike agrees.strings, field_alike agrees.strings]
  · intro key key' read read' known known' apart d v v'
    unfold domainTypeFields at known known'
    split at known <;> cases known <;> split at known' <;> cases known' <;>
      simp only [given_map] <;>
      first
      | exact swap_writes (fun _ => rfl) fun _ _ => rfl
      | exact absurd rfl apart

theorem decoratorCodeFields_commute : Commutes .decoratorCode decoratorCodeFields id := by
  refine .plain decoratorCodeFields_take ?_ ?_
  · intro key read known v v' agrees d
    unfold decoratorCodeFields at known
    split at known <;> cases known
    exacts [field_alike agrees.strings, field_alike agrees.strings, field_alike agrees.string,
      field_alike agrees.strings]
  · intro key key' read read' known known' apart d v v'
    unfold decoratorCodeFields at known known'
    split at known <;> cases known <;> split at known' <;> cases known' <;>
      simp only [given_map] <;>
      first
      | exact swap_writes (fun _ => rfl) fun _ _ => rfl
      | exact absurd rfl apart

theorem endpointFields_commute : Commutes .endpoint endpointFields id := by
  refine .plain endpointFields_take ?_ ?_
  · intro key read known v v' agrees d
    unfold endpointFields at known
    split at known <;> cases known
    exacts [field_alike agrees.string, field_alike agrees.string, field_alike agrees.string,
      field_alike agrees.method, field_alike (agrees.reads d.params),
      field_alike (agrees.reads 0)]
  · intro key key' read read' known known' apart d v v'
    unfold endpointFields at known known'
    split at known <;> cases known <;> split at known' <;> cases known' <;>
      simp only [given_map] <;>
      first
      | exact swap_writes (fun _ => rfl) fun _ _ => rfl
      | exact Eq.symm (swap_writes (fun _ => rfl) fun _ _ => rfl)
      | exact absurd rfl apart

theorem fileAliasFields_commute : Commutes .fileAlias fileAliasFields id := by
  refine .plain fileAliasFields_take ?_ ?_
  · intro key read known v v' agrees d
    unfold fileAliasFields at known
    split at known <;> cases known
    exacts [field_alike agrees.reference, field_alike agrees.references,
      field_alike agrees.references]
  · intro key key' read read' known known' apart d v v'
    unfold fileAliasFields at known known'
    split at known <;> cases known <;> split at known' <;> cases known' <;>
      simp only [given_map] <;>
      first
      | exact swap_writes (fun _ => rfl) fun _ _ => rfl
      | exact absurd rfl apart

theorem headerFields_commute : Commutes .header headerFields id := by
  refine .plain headerFields_take ?_ ?_
  · intro key read known v v' agrees d
    unfold headerFields at known
    split at known <;> cases known
    exacts [field_alike agrees.string, field_alike agrees.strings, field_alike agrees.references]
  · intro key key' read read' known known' apart d v v'
    unfold headerFields at known known'
    split at known <;> cases known <;> split at known' <;> cases known' <;>
      simp only [given_map] <;>
      first
      | exact swap_writes (fun _ => rfl) fun _ _ => rfl
      | exact absurd rfl apart

end Plain

section Tables
variable {v v' : List Event}

def DomainDraft.asMaps (d : DomainDraft) : DomainDraft × (String → Option DomainType) ×
    List (Converter × (String → Option String)) :=
  ({ d with implementations := [], converters := [] }, d.implementations.get?,
    d.converters.map Converter.asMaps)

def DecoratorDraft.asMaps (d : DecoratorDraft) : DecoratorDraft × (String → Option DecoratorCode) :=
  ({ d with implementations := [] }, d.implementations.get?)

/-- A table with one more value, as a map. -/
theorem get?_put_eq {α : Type} (t : Table α) (key : String) (a : α) :
    (t.put key a).get? = fun k => if k = key then some a else t.get? k :=
  funext fun k => t.get?_put key k a

theorem get?_put_comm {α : Type} {key key' : String} (apart : key ≠ key') (t : Table α) (a a' : α) :
    ((t.put key a).put key' a').get? = ((t.put key' a').put key a).get? := by
  funext k
  simp only [Table.get?_put]
  by_cases first : k = key
  · rw [if_neg (first ▸ apart), if_pos first, if_pos first]
  · rw [if_neg first, if_neg first]

/-- What reads the same is written alike. -/
theorem same_alike {α σ τ : Type} {view : σ → τ} {x x' : Option α} {u u' : α → σ} (same : x = x')
    (write : ∀ a, view (u a) = view (u' a)) : (x.map u).map view = (x'.map u').map view :=
  write_alike (congrArg (Option.map id) same) (by rintro a _ rfl; exact write a)

theorem converterFields_commute : Commutes .converter converterFields Converter.asMaps := by
  refine ⟨converterFields_take, ?_, ?_⟩
  · intro key read known v v' agrees d d' alike
    unfold converterFields at known
    split at known
    · cases known
      simp only [given_map]
      exact same_alike agrees.references fun a =>
        congrArg (fun m => ({ m.1 with targetReferences := a }, m.2)) alike
    · split at known <;> cases known
      simp only [given_map]
      refine same_alike agrees.string fun a => ?_
      simp only [Converter.asMaps, get?_put_eq]
      exact congrArg (fun m => (m.1, fun k => if k = key then some a else m.2 k)) alike
  · intro key key' read read' known known' apart d v v'
    unfold converterFields at known known'
    split at known <;> split at known' <;> (try split at known) <;> (try split at known') <;>
      cases known <;> cases known' <;> simp only [given_map] <;>
      first
      | exact swap_writes (fun _ => rfl) fun _ _ => rfl
      | exact swap_writes (fun _ => rfl) fun a b => Prod.ext rfl (get?_put_comm apart _ a b)
      | exact absurd rfl apart

theorem decoratorFields_commute : Commutes .decorator decoratorFields DecoratorDraft.asMaps := by
  refine ⟨decoratorFields_take, ?_, ?_⟩
  · intro key read known v v' agrees d d' alike
    unfold decoratorFields at known
    split at known
    case h_3 =>
      split at known <;> cases known
      next language =>
      have place : Place.decorator.inside key = .decoratorCode := if_pos language
      have reads := agrees.reads
      rw [place] at reads
      simp only [given_map]
      refine same_alike (reads key) fun a => ?_
      simp only [DecoratorDraft.asMaps, get?_put_eq]
      exact congrArg (fun m => (m.1, fun k => if k = key then some a else m.2 k)) alike
    all_goals cases known; simp only [given_map]
    · exact same_alike agrees.string fun a =>
        congrArg (fun m => ({ m.1 with name := some a }, m.2)) alike
    · exact same_alike agrees.string fun a =>
        congrArg (fun m => ({ m.1 with description := some a }, m.2)) alike
  · intro key key' read read' known known' apart d v v'
    unfold decoratorFields at known known'
    split at known <;> split at known' <;> (try split at known) <;> (try split at known') <;>
      cases known <;> cases known' <;> simp only [given_map] <;>
      first
      | exact swap_writes (fun _ => rfl) fun _ _ => rfl
      | exact swap_writes (fun _ => rfl) fun a b => Prod.ext rfl (get?_put_comm apart _ a b)
      | exact absurd rfl apart

theorem inside_language {key : String} (language : domainLanguages.contains key = true) :
    Place.domain.inside key = .domainType := by
  have other : key ≠ "converters" := by
    rintro rfl
    exact absurd language (by decide)
  rw [Place.inside, if_neg other, if_pos language]

theorem domainFields_commute : Commutes .domain domainFields DomainDraft.asMaps := by
  refine ⟨domainFields_take, ?_, ?_⟩
  · intro key read known v v' agrees d d' alike
    unfold domainFields at known
    split at known
    case h_7 =>
      split at known <;> cases known
      next language =>
      have reads := agrees.reads
      rw [inside_language language] at reads
      simp only [given_map]
      refine same_alike (reads key) fun a => ?_
      simp only [DomainDraft.asMaps, get?_put_eq]
      exact congrArg (fun m => (m.1, (fun k => if k = key then some a else m.2.1 k), m.2.2)) alike
    all_goals cases known; simp only [given_map]
    · exact same_alike agrees.string fun a =>
        congrArg (fun m => ({ m.1 with name := some a }, m.2)) alike
    · exact same_alike agrees.string fun a =>
        congrArg (fun m => ({ m.1 with label := some a }, m.2)) alike
    · exact same_alike agrees.integer fun a =>
        congrArg (fun m => ({ m.1 with length := some a }, m.2)) alike
    · exact same_alike agrees.integer fun a =>
        congrArg (fun m => ({ m.1 with scale := some a }, m.2)) alike
    · exact same_alike agrees.string fun a =>
        congrArg (fun m => ({ m.1 with mediaType := some a }, m.2)) alike
    · have converters := agrees.reads d.converters d'.converters (congrArg (·.2.2) alike)
      refine write_alike converters fun a a' same => ?_
      simp only [DomainDraft.asMaps, same]
      exact congrArg (fun m => (m.1, m.2.1, a'.map Converter.asMaps)) alike
  · intro key key' read read' known known' apart d v v'
    unfold domainFields at known known'
    split at known <;> split at known' <;> (try split at known) <;> (try split at known') <;>
      cases known <;> cases known' <;> simp only [given_map] <;>
      first
      | exact swap_writes (fun _ => rfl) fun _ _ => rfl
      | exact Eq.symm (swap_writes (fun _ => rfl) fun _ _ => rfl)
      | exact swap_writes (fun _ => rfl) fun a b =>
          Prod.ext rfl (Prod.ext (get?_put_comm apart _ a b) rfl)
      | exact absurd rfl apart

end Tables

end Grammar
end DataModel
