import DataModel.Proofs.Grammar.Loading
import DataModel.Proofs.Grammar.Entries

/-!
A file is read document by document. No document reads into the next one, so each is accepted or
rejected on its own, and the file holds what its documents give, in their order.
-/
namespace DataModel.Grammar
open DataModel.Source Read

section Headers

theorem addTags_append (tags before after : List String) :
    addTags tags (before ++ after) = addTags (addTags tags before) after :=
  List.foldl_append

/-- Of texts that are added one after the other, the first of each stays. -/
theorem addTags_eraseDups (tags more : List String) :
    addTags tags.eraseDups more = (tags ++ more).eraseDups := by
  induction more generalizing tags with
  | nil => rw [List.append_nil]; rfl
  | cons tag more ih =>
      have first : addTags tags.eraseDups [tag] = (tags ++ [tag]).eraseDups := by
        rw [List.eraseDups_append, addTags, List.foldl_cons, List.foldl_nil, List.removeAll]
        by_cases there : tag ∈ tags
        · simp [there]
        · simp [there]
          rfl
      rw [← List.singleton_append, addTags_append, first, ih, List.append_assoc]

def headerRules : Rules where
  shape?
    | "module" => some .scalar
    | "tags" | "uses" => some .scalars
    | _ => none
  needed := ["module"]

/-- A header is a mapping that gives a module, and tags and uses if it wants. -/
abbrev IsHeader (node : List Event) : Prop := headerRules.Hold node

def HeaderDraft.onto (d : HeaderDraft) (entries : Entries) : HeaderDraft where
  module := (last textOf "module" entries).or d.module
  tags := addTags d.tags ((listed ["tags"] entries).map (·.name))
  uses := (last (fun value => some (referencesOf value)) "uses" entries).getD d.uses

theorem headerFields_take : headerFields.Take := by
  intro key read known d
  unfold headerFields at known
  split at known <;> cases known
  · exact string_takes.map _
  · exact strings_takes.map _
  · exact readReferences_takes.map _

theorem header_overlay : Overlay "file header" headerFields headerRules HeaderDraft.onto where
  take := headerFields_take
  onto_nil d := by simp [HeaderDraft.onto, addTags]
  onto_append d before after := by
    simp [HeaderDraft.onto, last_append, listed_append, Option.or_assoc, addTags_append]
  reads := by
    intro key value kind node d d'
    unfold field
    split
    · next read known =>
      unfold headerFields at known
      split at known <;> cases known
      · next same =>
        exact text_over kind node (by rw [same]; rfl) fun a found => by
          simp [HeaderDraft.onto, same, found, addTags]
      · next same =>
        exact texts_over kind node (by rw [same]; rfl) (by simp [HeaderDraft.onto, same])
      · next same =>
        exact references_over kind node (by rw [same]; rfl) (by
          simp [HeaderDraft.onto, same, addTags])
    · next unknown =>
      refine unknown_over ?_
      unfold headerFields at unknown
      split at unknown <;> cases unknown
      simp [headerRules]

end Headers

section Sections

/-- What the only key of a document and the node of its value make, by the reader that the key
calls for: what that reader gives, which stands where the key does. -/
def Section.IsOf (home : Namespace) (key : Event) (value : List Event) : Section → Prop :=
  let location := some (⟨key.value, key.line, key.column⟩ : Reference)
  fun
  | .domain d => key.value = "domain" ∧
      ∃ a, readDomain.alone value = .ok a ∧ d = { a with location }
  | .decorator d => key.value = "decorator" ∧
      ∃ a, readDecorator.alone value = .ok a ∧ d = { a with location }
  | .class c => key.value = "class" ∧
      ∃ a, readClass.alone value = .ok a ∧ c = { a with location, home }
  | .endpoint e => key.value = "endpoint" ∧
      ∃ a, readEndpoint.alone value = .ok a ∧ e = { a with location, home }
  | .alias l => key.value = "alias" ∧
      ∃ a, readFileAlias.alone value = .ok a ∧ l = { a with location }

/-- A document of one key, whose value makes a section. -/
def Section.Of (home : Namespace) (node : List Event) (s : Section) : Prop :=
  ∃ key value, IsMapping [(key, value)] node ∧ key.kind = .scalar ∧ Nested .node value ∧
    s.IsOf home key value

/-- A document of one key, whose value is accepted by the reader that the key calls for. -/
def IsSection (node : List Event) : Prop :=
  ∃ key value, IsMapping [(key, value)] node ∧ key.kind = .scalar ∧ Nested .node value ∧
    (key.value = "domain" ∧ Accepts readDomain value ∨
      key.value = "decorator" ∧ Accepts readDecorator value ∨
      key.value = "class" ∧ Accepts readClass value ∨
      key.value = "endpoint" ∧ Accepts readEndpoint value ∨
      key.value = "alias" ∧ Accepts readFileAlias value)

theorem isSection_iff (home : Namespace) (node : List Event) :
    IsSection node ↔ ∃ s : Section, s.Of home node := by
  constructor
  · rintro ⟨key, value, shape, kind, nested, accepted⟩
    obtain ⟨same, a, given⟩ | ⟨same, a, given⟩ | ⟨same, a, given⟩ | ⟨same, a, given⟩ |
      ⟨same, a, given⟩ := accepted
    · exact ⟨.domain _, key, value, shape, kind, nested, same, a, given, rfl⟩
    · exact ⟨.decorator _, key, value, shape, kind, nested, same, a, given, rfl⟩
    · exact ⟨.class _, key, value, shape, kind, nested, same, a, given, rfl⟩
    · exact ⟨.endpoint _, key, value, shape, kind, nested, same, a, given, rfl⟩
    · exact ⟨.alias _, key, value, shape, kind, nested, same, a, given, rfl⟩
  · rintro ⟨s, key, value, shape, kind, nested, is⟩
    refine ⟨key, value, shape, kind, nested, ?_⟩
    cases s with
    | domain d => exact .inl ⟨is.1, is.2.imp fun _ given => given.1⟩
    | decorator d => exact .inr (.inl ⟨is.1, is.2.imp fun _ given => given.1⟩)
    | «class» c => exact .inr (.inr (.inl ⟨is.1, is.2.imp fun _ given => given.1⟩))
    | endpoint e => exact .inr (.inr (.inr (.inl ⟨is.1, is.2.imp fun _ given => given.1⟩)))
    | «alias» a => exact .inr (.inr (.inr (.inr ⟨is.1, is.2.imp fun _ given => given.1⟩)))

theorem section?_takes {home : Namespace} {location : Reference} {key : String}
    {read : Read Section} (known : section? home location key = some read) : TakesNode read := by
  unfold section? at known
  split at known <;> cases known
  · exact readDomain_takes.map _
  · exact readDecorator_takes.map _
  · exact readClass_takes.map _
  · exact readEndpoint_takes.map _
  · exact readFileAlias_takes.map _

theorem section?_alone {home : Namespace} {key : Event} {value : List Event} {read : Read Section}
    (known : section? home (reference key) key.value = some read) (node : Nested .node value)
    {s : Section} (given : read.alone value = .ok s) : s.IsOf home key value := by
  unfold section? at known
  split at known <;> cases known
  · next same =>
    obtain ⟨a, accepted, rfl⟩ := readDomain_takes.of_alone_map node given
    exact ⟨same, a, accepted, rfl⟩
  · next same =>
    obtain ⟨a, accepted, rfl⟩ := readDecorator_takes.of_alone_map node given
    exact ⟨same, a, accepted, rfl⟩
  · next same =>
    obtain ⟨a, accepted, rfl⟩ := readClass_takes.of_alone_map node given
    exact ⟨same, a, accepted, rfl⟩
  · next same =>
    obtain ⟨a, accepted, rfl⟩ := readEndpoint_takes.of_alone_map node given
    exact ⟨same, a, accepted, rfl⟩
  · next same =>
    obtain ⟨a, accepted, rfl⟩ := readFileAlias_takes.of_alone_map node given
    exact ⟨same, a, accepted, rfl⟩

/-- The section that a document's key calls for, read to the end of the document. -/
def readValue (home : Namespace) (key : Event) : Read Section :=
  match section? home (reference key) key.value with
  | none => Read.reject (.unknownSection key.value) key
  | some read => do
    let s ← read
    discard (Read.expect [.mappingEnd])
    return s

theorem readSection_eq (home : Namespace) : readSection home = (do
    discard (Read.expect [.mappingStart])
    let key ← Read.scalar
    readValue home key) := rfl

/-- A document that has another key is rejected at it. -/
theorem readValue_reads (home : Namespace) (key : Event) {value es : List Event}
    (node : Nested .node value) (others : Nested .entries es) :
    (∃ s finish, es = [finish] ∧ finish.kind = .mappingEnd ∧ s.IsOf home key value ∧
      Reads (value ++ es) (.ok s) (readValue home key)) ∨
    ∃ y, Reads (value ++ es) (.error y) (readValue home key) := by
  unfold readValue
  cases known : section? home (reference key) key.value with
  | none => exact .inr ⟨_, reject_reads (.unknownSection key.value) key _⟩
  | some read =>
      obtain ⟨y | s, reads⟩ := (section?_takes known).alone value node
      · exact .inr ⟨y, reads.reject es⟩
      · cases others with
        | noEntry kind =>
            have ended := discard_reads (List.mem_singleton.mpr kind)
            exact .inl ⟨s, _, rfl, kind, section?_alone known node reads.alone_eq,
              reads.bind (ended.settle fun _ => rfl)⟩
        | @entry k v more key' node' others =>
            obtain ⟨e, rest, rfl, -⟩ := key'.head_of_node
            have inside := (key'.node_of_end (List.append_nil _).symm).2
            have another := discard_rejects (mt List.mem_singleton.mp inside) rest
            exact .inr ⟨_, reads.bind (another.reject (v ++ more))⟩

/-- A document is a section, or is rejected. -/
theorem readSection_reads (home : Namespace) {node : List Event} (nested : Nested .node node) :
    (∃ s, Reads node (.ok s) (readSection home) ∧ s.Of home node) ∨
      ∃ y, Reads node (.error y) (readSection home) := by
  rw [readSection_eq]
  obtain ⟨start, rest, rfl, -⟩ := nested.head_of_node
  by_cases opens : start.kind = .mappingStart
  · have opened := discard_reads (List.mem_singleton.mpr opens)
    have entries : Nested (inner true) rest := nested.inside opens
    cases entries with
    | @noEntry finish kind =>
        have bare : finish.kind ∉ [Event.Kind.scalar] := by simp [kind]
        exact .inr ⟨_, opened.bind ((expect_rejects bare []).reject [])⟩
    | @entry k value es keyNode node others =>
        obtain ⟨key, more, rfl, -⟩ := keyNode.head_of_node
        by_cases kind : key.kind = .scalar
        · obtain rfl := keyNode.of_scalar kind
          have keyed := expect_reads (List.mem_singleton.mpr kind)
          obtain ⟨s, finish, rfl, closes, is, reads⟩ | ⟨y, reads⟩ :=
            readValue_reads home key node others
          · refine .inl ⟨s, opened.bind (keyed.bind reads), key, value, ?_, kind, node, is⟩
            exact ⟨start, finish, opens, closes, by simp⟩
          · exact .inr ⟨y, opened.bind (keyed.bind reads)⟩
        · have wrong := expect_rejects (mt List.mem_singleton.mp kind) more
          exact .inr ⟨_, opened.bind (wrong.reject (value ++ es))⟩
  · exact .inr ⟨_, (discard_rejects (mt List.mem_singleton.mp opens) []).reject rest⟩

/-- Every kind of section has a reader of its own. -/
theorem Section.IsOf.read {home : Namespace} {key : Event} {value : List Event} {s : Section}
    (h : s.IsOf home key value) (node : Nested .node value) :
    ∃ read, section? home (reference key) key.value = some read ∧ Reads value (.ok s) read := by
  cases s with
  | domain d =>
      obtain ⟨same, a, given, rfl⟩ := h
      exact ⟨_, by rw [same]; rfl, readDomain_takes.reads_map node given _⟩
  | decorator d =>
      obtain ⟨same, a, given, rfl⟩ := h
      exact ⟨_, by rw [same]; rfl, readDecorator_takes.reads_map node given _⟩
  | «class» c =>
      obtain ⟨same, a, given, rfl⟩ := h
      exact ⟨_, by rw [same]; rfl, readClass_takes.reads_map node given _⟩
  | endpoint e =>
      obtain ⟨same, a, given, rfl⟩ := h
      exact ⟨_, by rw [same]; rfl, readEndpoint_takes.reads_map node given _⟩
  | «alias» l =>
      obtain ⟨same, a, given, rfl⟩ := h
      exact ⟨_, by rw [same]; rfl, readFileAlias_takes.reads_map node given _⟩

theorem Section.Of.reads {home : Namespace} {node : List Event} {s : Section} (h : s.Of home node) :
    Reads node (.ok s) (readSection home) := by
  obtain ⟨key, value, ⟨start, finish, opens, closes, rfl⟩, kind, node, is⟩ := h
  obtain ⟨read, known, reads⟩ := is.read node
  have opened := discard_reads (List.mem_singleton.mpr opens)
  have keyed := expect_reads (List.mem_singleton.mpr kind)
  have ended := discard_reads (List.mem_singleton.mpr closes)
  have whole : Reads (value ++ [finish]) (.ok s) (readValue home key) := by
    rw [readValue, known]
    exact reads.bind (ended.settle fun _ => rfl)
  rw [List.flatMap_singleton, readSection_eq]
  exact opened.bind (keyed.bind whole)

end Sections

section Files

def Section.domain? : Section → Option Domain
  | .domain d => some d
  | _ => none

def Section.decorator? : Section → Option Decorator
  | .decorator d => some d
  | _ => none

def Section.class? : Section → Option Class
  | .class c => some c
  | _ => none

def Section.endpoint? : Section → Option Endpoint
  | .endpoint e => some e
  | _ => none

def Section.alias? : Section → Option FileAlias
  | .alias a => some a
  | _ => none

/-- A file has its place and text, what the entries of its header say, and some sections, kind by
kind in their order. -/
structure MadeOf (identity : FileIdentity) (header : Entries) (sections : List Section)
    (f : ModelFile) : Prop where
  name : f.name = identity.name
  path : f.path = identity.path
  source : f.source = identity.source
  module : last textOf "module" header = some f.module
  tags : f.tags = ((listed ["tags"] header).map (·.name)).eraseDups
  uses : f.uses = (last (fun value => some (referencesOf value)) "uses" header).getD []
  domains : f.domains = sections.filterMap Section.domain?
  decorators : f.decorators = sections.filterMap Section.decorator?
  classes : f.classes = sections.filterMap Section.class?
  endpoints : f.endpoints = sections.filterMap Section.endpoint?
  aliases : f.aliases = sections.filterMap Section.alias?

theorem MadeOf.add {identity : FileIdentity} {header : Entries} {sections : List Section}
    {f : ModelFile} (h : MadeOf identity header sections f) (s : Section) :
    MadeOf identity header (sections ++ [s]) (s.addTo f) := by
  obtain ⟨name, path, source, module, tags, uses, domains, decorators, classes, endpoints,
    aliases⟩ := h
  cases s <;> constructor <;>
    simp [Section.addTo, Section.domain?, Section.decorator?, Section.class?, Section.endpoint?,
      Section.alias?, *]

/-- The first document is a header, or is rejected. -/
theorem readHeader_reads (identity : FileIdentity) (d : Document) :
    (∃ header f, Reads d.events (.ok f) (readHeader identity) ∧ IsMapping header d.node ∧
      headerRules.Fit header ∧ MadeOf identity header [] f) ∨
      ∃ y, Reads d.events (.error y) (readHeader identity) ∧ ¬ IsHeader d.node := by
  obtain ⟨start, node, finish, starts, nested, finishes⟩ := d
  have opened := discard_reads (List.mem_singleton.mpr starts)
  have closed := discard_reads (List.mem_singleton.mpr finishes)
  have fields : ∀ draft, (Read.fields "file header" headerFields {}).given node = some draft ↔
      ∃ entries, IsMapping entries node ∧ (∀ entry ∈ entries, headerRules.Allow entry) ∧
        draft = HeaderDraft.onto {} entries := fun _ => header_overlay.fields nested
  obtain ⟨e, rest, rfl, -⟩ := nested.head_of_node
  obtain ⟨y | draft, reads⟩ := (headerFields_take.takes "file header" {}).alone _ nested
  · refine .inr ⟨y, opened.bind (.onCurrent (reads.reject [finish])), ?_⟩
    rintro ⟨header, mapping, fit⟩
    cases reads.given_eq.symm.trans ((fields _).mpr ⟨header, mapping, fit.allowed, rfl⟩)
  · cases known : draft.module with
    | none =>
        refine .inr ⟨.at (.missingProperty "module" "file header") e, ?_, ?_⟩
        · refine opened.bind (.onCurrent (reads.bind (closed.settle fun r => ?_)))
          rw [known]
          rfl
        · rintro ⟨header, mapping, fit⟩
          obtain ⟨module, told⟩ : ∃ module, last textOf "module" header = some module :=
            fit.last (by simp [headerRules]) rfl isSome_textOf
          have given := (fields _).mpr ⟨header, mapping, fit.allowed, rfl⟩
          cases reads.given_eq.symm.trans given
          simp [HeaderDraft.onto, told] at known
    | some module =>
        obtain ⟨header, mapping, allowed, rfl⟩ := (fields _).mp reads.given_eq
        have told : last textOf "module" header = some module := by
          simpa [HeaderDraft.onto] using known
        have fit : headerRules.Fit header := .of_last allowed (by
          simpa [headerRules] using ⟨_, _, Option.isSome_of_eq_some told⟩)
        have tags := addTags_eraseDups [] ((listed ["tags"] header).map (·.name))
        let draft := HeaderDraft.onto {} header
        let f : ModelFile := {
          name := identity.name, path := identity.path, source := identity.source, module
          tags := draft.tags, uses := draft.uses, domains := [], decorators := [], classes := []
          endpoints := [], aliases := [] }
        refine .inl ⟨header, f, ?_, mapping, fit,
          ⟨rfl, rfl, rfl, told, tags, rfl, rfl, rfl, rfl, rfl, rfl⟩⟩
        refine opened.bind (.onCurrent (reads.bind (closed.settle fun r => ?_)))
        rw [known]
        rfl

/-- The first of some documents that is no section, with what it is rejected for. -/
def FirstRejected (home : Namespace) (documents : List Document) (y : Rejection) : Prop :=
  ∃ before d after, documents = before ++ d :: after ∧ (∀ d' ∈ before, IsSection d'.node) ∧
    ¬ IsSection d.node ∧ (readSection home).alone d.node = .error y

/-- A section that is accepted is added, and the documents behind it come next. -/
theorem readSections_turn {home : Namespace} {d : Document} {s : Section}
    (h : Reads d.node (.ok s) (readSection home)) (fuel : Nat) (f : ModelFile)
    (passed after : List Event) (stop : Event) :
    (readSections home (fuel + 1) f).run ⟨passed, d.events ++ after, stop⟩ =
      (readSections home fuel (s.addTo f)).run ⟨d.events.reverse ++ passed, after, stop⟩ := by
  have opened := accept_reads d.starts
  have closed := discard_reads (List.mem_singleton.mpr d.finishes)
  have shape : d.events ++ after = [d.start] ++ (d.node ++ ([d.finish] ++ after)) := by
    simp [Document.events]
  rw [shape, readSections, opened.run_then]
  show (readSection home >>= fun s => discard (Read.expect [.documentEnd]) >>= fun _ =>
    readSections home fuel (s.addTo f)).run _ = _
  rw [h.run_then, closed.run_then]
  simp [Document.events]

theorem readSections_rejected {home : Namespace} {d : Document} {y : Rejection}
    (h : Reads d.node (.error y) (readSection home)) (fuel : Nat) (f : ModelFile) :
    Reads d.events (.error y) (readSections home (fuel + 1) f) :=
  (accept_reads d.starts).bind (h.reject [d.finish])

/-- What the documents behind the header give, with whatever fuel suffices. -/
theorem readSections_run (home : Namespace) {stop : Event} (closed : stop.kind = .streamEnd)
    {identity : FileIdentity} {header : Entries} (documents : List Document) (fuel : Nat)
    (enough : documents.length < fuel) (before : List Section) (f : ModelFile)
    (made : MadeOf identity header before f) (passed : List Event) :
    (∃ f' sections passed', (readSections home fuel f).run
        ⟨passed, documents.flatMap Document.events, stop⟩ = (.ok f', ⟨passed', [], stop⟩) ∧
      MadeOf identity header (before ++ sections) f' ∧
      List.Forall₂ (fun (d : Document) (s : Section) => s.Of home d.node) documents sections) ∨
    ∃ y r, (readSections home fuel f).run ⟨passed, documents.flatMap Document.events, stop⟩ =
      (.error y, r) ∧ FirstRejected home documents y := by
  induction documents generalizing fuel before f passed with
  | nil =>
      obtain ⟨fuel, rfl⟩ := Nat.exists_eq_add_of_lt enough
      refine .inl ⟨f, [], passed, ?_, by rwa [List.append_nil], .nil⟩
      have ended : (Reader.mk passed [] stop).current.kind ≠ .documentStart := by
        rw [show (Reader.mk passed [] stop).current = stop from rfl, closed]
        nofun
      rw [List.flatMap_nil, readSections, run_bind, run_accept_other ended]
      rfl
  | cons d documents ih =>
      obtain ⟨spare, rfl⟩ := Nat.exists_eq_add_of_lt enough
      rw [List.flatMap_cons]
      obtain ⟨s, reads, is⟩ | ⟨y, reads⟩ := readSection_reads home d.nested
      · rw [readSections_turn reads]
        obtain ⟨f', sections, passed', run, whole, each⟩ | ⟨y, r, run, first, d', after, rfl, valid,
          wrong, given⟩ := ih ((d :: documents).length + spare) (by rw [List.length_cons]; omega)
            (before ++ [s]) (s.addTo f) (made.add s) (d.events.reverse ++ passed)
        · rw [List.append_assoc, List.singleton_append] at whole
          exact .inl ⟨f', s :: sections, passed', run, whole, .cons is each⟩
        · refine .inr ⟨y, r, run, d :: first, d', after, rfl, ?_, wrong, given⟩
          exact List.forall_mem_cons.mpr ⟨(isSection_iff home d.node).mpr ⟨s, is⟩, valid⟩
      · obtain ⟨r, run, -⟩ := readSections_rejected reads _ f passed
          (documents.flatMap Document.events) stop
        refine .inr ⟨y, r, run, [], d, documents, rfl, fun _ none => absurd none List.not_mem_nil,
          fun valid => ?_, reads.alone_eq⟩
        obtain ⟨s, is⟩ := (isSection_iff home d.node).mp valid
        cases is.reads.alone_eq.symm.trans reads.alone_eq

/-- What a stream holds as a file. -/
def fileOf (app : String) (identity : FileIdentity) (s : Stream) :
    Except Rejection (Option ModelFile) :=
  ((readFile app identity).run (.ofEvents s.events)).1

/-- A stream with a header, and nothing but sections behind it. -/
def IsModelFile (s : Stream) : Prop :=
  IsHeader s.first.node ∧ ∀ d ∈ s.others, IsSection d.node

/-- A file holds what a stream says: what its header gives, and one section of each of the documents
behind it, kind by kind in their order, in the namespace of the application and the module. -/
def Holds (app : String) (identity : FileIdentity) (s : Stream) (f : ModelFile) : Prop :=
  ∃ header sections, IsMapping header s.first.node ∧ headerRules.Fit header ∧
    MadeOf identity header sections f ∧
    List.Forall₂ (fun (d : Document) (s : Section) => s.Of ⟨app, f.module⟩ d.node)
      s.others sections

/-- What the first invalid document of a stream is rejected for. -/
def FirstInvalid (app : String) (identity : FileIdentity) (s : Stream) (y : Rejection) : Prop :=
  ¬ IsHeader s.first.node ∧ (readHeader identity).alone s.first.events = .error y ∨
    ∃ header module, IsMapping header s.first.node ∧ headerRules.Fit header ∧
      last textOf "module" header = some module ∧ FirstRejected ⟨app, module⟩ s.others y

theorem ofEvents_stream (s : Stream) : Reader.ofEvents s.events =
    ⟨[], s.start :: (s.first.events ++ s.others.flatMap Document.events), s.finish⟩ := by
  have shape : s.events =
      (s.start :: (s.first.events ++ s.others.flatMap Document.events)) ++ [s.finish] := by
    simp [Stream.events]
  rw [shape, Reader.ofEvents, List.dropLast_concat, List.getLast?_concat]
  rfl

theorem length_flatMap_events (documents : List Document) :
    documents.length ≤ (documents.flatMap Document.events).length := by
  induction documents with
  | nil => exact Nat.le_refl 0
  | cons d documents ih =>
      rw [List.flatMap_cons, List.length_append, List.length_cons, Document.events,
        List.length_cons]
      omega

/-- Behind the start of a stream, its header is read and then the documents behind it. -/
theorem run_readFile (app : String) (identity : FileIdentity) (s : Stream) :
    (readFile app identity).run (.ofEvents s.events) =
      (do
        let f ← readHeader identity
        let f ← readSections ⟨app, f.module⟩ (← Read.bound) f
        discard (Read.expect [.streamEnd])
        return some f : Read (Option ModelFile)).run
          ⟨[s.start], s.first.events ++ s.others.flatMap Document.events, s.finish⟩ := by
  have opened := discard_reads (List.mem_singleton.mpr s.starts)
  have started : s.first.start.kind ≠ .streamEnd := by rw [s.first.starts]; nofun
  rw [ofEvents_stream, readFile]
  refine (opened.run_then _ _ _).trans ?_
  show (if [Event.Kind.streamEnd].contains s.first.start.kind then pure none else _ :
    Read (Option ModelFile)).run _ = _
  rw [if_neg (by simpa using started)]
  rfl

/-- The end of a stream is seen, and not consumed. -/
theorem run_streamEnd {stop : Event} (closed : stop.kind = .streamEnd) (passed : List Event) :
    (discard (Read.expect [.streamEnd])).run ⟨passed, [], stop⟩ = (.ok (), ⟨passed, [], stop⟩) := by
  rw [discard_eq, run_bind, run_expect]
  have here : [Event.Kind.streamEnd].contains (Reader.mk passed [] stop).current.kind = true :=
    List.contains_iff_mem.mpr (List.mem_singleton.mpr closed)
  rw [if_pos here]
  rfl

theorem sections_of_each {home : Namespace} {documents : List Document} {sections : List Section}
    (each : List.Forall₂ (fun (d : Document) (s : Section) => s.Of home d.node) documents sections) :
    ∀ d ∈ documents, IsSection d.node := by
  induction each with
  | nil => exact fun _ none => absurd none List.not_mem_nil
  | cons is _ ih =>
      exact List.forall_mem_cons.mpr ⟨(isSection_iff home _).mpr ⟨_, is⟩, ih⟩

theorem fileOf_cases (app : String) (identity : FileIdentity) (s : Stream) :
    (IsModelFile s ∧ ∃ f, fileOf app identity s = .ok (some f) ∧ Holds app identity s f) ∨
    (¬ IsModelFile s ∧ ∃ y, fileOf app identity s = .error y ∧ FirstInvalid app identity s y) := by
  rw [fileOf, run_readFile]
  obtain ⟨header, start, reads, mapping, fit, made⟩ | ⟨y, reads, wrong⟩ :=
    readHeader_reads identity s.first
  · rw [reads.run_then]
    have enough := Nat.lt_succ_of_le (length_flatMap_events s.others)
    obtain ⟨f, sections, passed, run, whole, each⟩ | ⟨y, r, run, rejected⟩ :=
      readSections_run ⟨app, start.module⟩ s.finishes s.others _ enough [] start made
        (s.first.events.reverse ++ [s.start])
    · rw [run_bound, run_bind, run]
      dsimp only
      rw [run_bind, run_streamEnd s.finishes]
      have module : start.module = f.module :=
        Option.some.inj (made.module.symm.trans whole.module)
      exact .inl ⟨⟨⟨header, mapping, fit⟩, sections_of_each each⟩, f, rfl, header, sections, mapping,
        fit, whole, module ▸ each⟩
    · rw [run_bound, run_bind, run]
      obtain ⟨before, d, after, others, passes, wrong, given⟩ := rejected
      refine .inr ⟨fun whole => wrong (whole.2 d (by rw [others]; simp)), y, rfl, ?_⟩
      exact .inr ⟨header, start.module, mapping, fit, made.module, before, d, after, others, passes,
        wrong, given⟩
  · obtain ⟨r, run, -⟩ := reads [s.start] (s.others.flatMap Document.events) s.finish
    rw [run_bind, run]
    exact .inr ⟨fun whole => wrong whole.1, y, rfl, .inl ⟨wrong, reads.alone_eq⟩⟩

/-- A stream is loaded document by document. It makes a file exactly when its first document is a
header and each of the others one section that its reader accepts on its own, and the file then
holds what the header and these sections say; else it is rejected for its first invalid document. -/
theorem fileOf_stream (app : String) (identity : FileIdentity) (s : Stream) :
    (IsModelFile s → ∃ f, fileOf app identity s = .ok (some f) ∧ Holds app identity s f) ∧
    (¬ IsModelFile s → ∃ y, fileOf app identity s = .error y ∧ FirstInvalid app identity s y) ∧
    (events identity.source = .ok s.events →
      loadText app identity = (fileOf app identity s).mapError .rejected) := by
  refine ⟨fun valid => ?_, fun wrong => ?_, fun read => ?_⟩
  · obtain ⟨-, made⟩ | ⟨wrong, -⟩ := fileOf_cases app identity s
    · exact made
    · exact absurd valid wrong
  · obtain ⟨valid, -⟩ | ⟨-, rejected⟩ := fileOf_cases app identity s
    · exact absurd valid wrong
    · exact rejected
  · rw [loadText_eq, Reader.ofText, read]
    rfl

end Files
end DataModel.Grammar
