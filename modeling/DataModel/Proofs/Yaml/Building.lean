import DataModel.Proofs.Yaml.Composing
import DataModel.Yaml.Value

/-!
Building values. Merging moves pairs from mapping to mapping and turns value keys into texts, and it
does nothing else to the nodes; so a document in which every text has a value of its type keeps such
texts, and building it comes upon no text without one.
-/
namespace DataModel.Yaml
open DataModel.Text

/-- A text has a value, if a tag asks for one. -/
structure HasValue (tag text : String) : Prop where
  boolean : tag = Tag.boolean → ∃ v, Scalar.boolean text = .ok v
  integer : tag = Tag.integer → ∃ v, Scalar.integer text = .ok v
  number : tag = Tag.number → ∃ v, Scalar.number text = .ok v
  timestamp : tag = Tag.timestamp → ∃ v, Scalar.timestamp text = .ok v

theorem HasValue.untyped {tag : String} (text : String)
    (free : tag ∉ [Tag.boolean, Tag.integer, Tag.number, Tag.timestamp]) : HasValue tag text := by
  simp only [List.mem_cons, List.not_mem_nil, or_false, not_or] at free
  obtain ⟨boolean, integer, number, timestamp⟩ := free
  exact ⟨fun same => absurd same boolean, fun same => absurd same integer,
    fun same => absurd same number, fun same => absurd same timestamp⟩

namespace Document
variable {d d' d'' : Document} {id key value : NodeId} {text : String}

def IsPair (d : Document) (key value : NodeId) : Prop := ∃ id, (key, value) ∈ d.pairsOf id

def IsMapping (d : Document) (id : NodeId) : Prop := ∃ pairs, d.contentOf id = .mapping pairs

/-- A text that a node may be read as: its own, or for a mapping that of the value of a value key. -/
inductive Reads (d : Document) : NodeId → String → Prop
  | own {id : NodeId} {text : String} (scalar : d.contentOf id = .scalar text) : Reads d id text
  | value {id key value : NodeId} {text : String} (mapping : d.IsMapping id)
    (pair : d.IsPair key value) (tag : d.tagOf key = Tag.value) (reads : Reads d value text) :
    Reads d id text

/-- Without value keys a node is read as nothing but its own text. -/
theorem Reads.scalar (free : ∀ key value, d.IsPair key value → d.tagOf key ≠ Tag.value)
    (reads : d.Reads id text) : d.contentOf id = .scalar text := by
  cases reads with
  | own scalar => exact scalar
  | value _ pair tag _ => exact absurd tag (free _ _ pair)

/-- Every text that is read for a type has a value of it, and no mapping is to be a time. -/
structure Valued (d : Document) : Prop where
  texts : ∀ id text, d.Reads id text → HasValue (d.tagOf id) text
  times : ∀ id, d.tagOf id = Tag.timestamp → ¬ d.IsMapping id

/-- What merging makes of a document: pairs are moved, and value keys become texts. -/
structure Becomes (d d' : Document) : Prop where
  tag : ∀ id, d'.tagOf id = d.tagOf id ∨ d.tagOf id = Tag.value ∧ d'.tagOf id = Tag.text
  scalar : ∀ id text, d'.contentOf id = .scalar text → d.contentOf id = .scalar text
  mapping : ∀ id, d'.IsMapping id ↔ d.IsMapping id
  pair : ∀ key value, d'.IsPair key value → d.IsPair key value

namespace Becomes

theorem refl (d : Document) : Becomes d d :=
  ⟨fun _ => .inl rfl, fun _ _ => id, fun _ => .rfl, fun _ _ => id⟩

theorem trans (h : Becomes d d') (h' : Becomes d' d'') : Becomes d d'' where
  tag id := by
    rcases h'.tag id with same | ⟨before, after⟩
    · rw [same]
      exact h.tag id
    · rcases h.tag id with same | ⟨-, text⟩
      · exact .inr ⟨same ▸ before, after⟩
      · rw [text] at before
        exact absurd before (by decide)
  scalar id text here := h.scalar id text (h'.scalar id text here)
  mapping id := (h'.mapping id).trans (h.mapping id)
  pair key value here := h.pair key value (h'.pair key value here)

theorem reads (h : Becomes d d') (reads : d'.Reads id text) : d.Reads id text := by
  induction reads with
  | own scalar => exact .own (h.scalar _ _ scalar)
  | value mapping pair tag _ ih =>
      refine .value ((h.mapping _).mp mapping) (h.pair _ _ pair) ?_ ih
      rcases h.tag _ with same | ⟨before, -⟩
      · rw [← same, tag]
      · exact before

theorem valued (h : Becomes d d') (valued : d.Valued) : d'.Valued where
  texts id text reads := by
    rcases h.tag id with same | ⟨-, after⟩
    · rw [same]
      exact valued.texts id text (h.reads reads)
    · rw [after]
      exact .untyped text (by decide)
  times id tag mapping := by
    rcases h.tag id with same | ⟨-, after⟩
    · exact valued.times id (same ▸ tag) ((h.mapping id).mp mapping)
    · rw [after] at tag
      exact absurd tag (by decide)

end Becomes

section Steps
variable {pairs : List (NodeId × NodeId)}

/-- A document with one node changed. -/
def amend (d : Document) (id : NodeId) (f : Node → Node) : Document :=
  { d with nodes := d.nodes.modify id f }

theorem node?_amend (d : Document) (id j : NodeId) (f : Node → Node) :
    (d.amend id f).node? j = if id = j then (d.node? j).map f else d.node? j :=
  Array.getElem?_modify

/-- A value key becomes a text. -/
theorem Becomes.retag (h : Becomes d d') (tag : d'.tagOf key = Tag.value) :
    Becomes d (d'.amend key fun n => { n with tag := Tag.text }) := by
  refine h.trans ?_
  have content (id : NodeId) :
      (d'.amend key fun n => { n with tag := Tag.text }).contentOf id = d'.contentOf id := by
    rw [contentOf, contentOf, node?_amend]
    split
    · rw [Option.map_map]
      rfl
    · rfl
  refine ⟨fun id => ?_, fun id text here => content id ▸ here, fun id => ?_, ?_⟩
  · by_cases here : key = id
    · subst here
      refine .inr ⟨tag, ?_⟩
      rw [tagOf] at tag ⊢
      rw [node?_amend, if_pos rfl]
      cases node : d'.node? key with
      | none =>
          rw [node] at tag
          exact absurd tag (by decide)
      | some n => rfl
    · rw [tagOf, tagOf, node?_amend, if_neg here]
      exact .inl rfl
  · rw [IsMapping, IsMapping, content]
  · rintro k v ⟨id, member⟩
    rw [pairsOf, content] at member
    exact ⟨id, member⟩

theorem Becomes.valueKeysAsTexts (h : Becomes d d') (id : NodeId) :
    Becomes d (d'.valueKeysAsTexts id) := by
  unfold Document.valueKeysAsTexts
  generalize d'.pairsOf id = pairs
  induction pairs generalizing d' with
  | nil => exact h
  | cons p rest ih =>
      rw [List.foldl_cons]
      dsimp only
      split
      · next tag => exact ih (h.retag (beq_iff_eq.mp tag))
      · exact ih h

/-- The pairs of a mapping become others that stand in a mapping. -/
theorem Becomes.setPairs (h : Becomes d d') (mapping : d.IsMapping id)
    (known : ∀ p ∈ pairs, d.IsPair p.1 p.2) : Becomes d (d'.setPairs id pairs) := by
  have node (j : NodeId) : (d'.setPairs id pairs).node? j =
      if id = j then (d'.node? j).map fun n => { n with content := .mapping pairs }
      else d'.node? j := node?_amend d' id j _
  have other {j : NodeId} (apart : id ≠ j) :
      (d'.setPairs id pairs).contentOf j = d'.contentOf j := by
    rw [contentOf, contentOf, node, if_neg apart]
  have own : (d'.setPairs id pairs).contentOf id = .mapping pairs := by
    obtain ⟨before, here⟩ := (h.mapping id).mpr mapping
    rw [contentOf] at here ⊢
    rw [node, if_pos rfl]
    cases there : d'.node? id with
    | none =>
        rw [there] at here
        cases here
    | some n => rfl
  refine ⟨fun j => ?_, fun j text same => ?_, fun j => ?_, ?_⟩
  · have same : (d'.setPairs id pairs).tagOf j = d'.tagOf j := by
      rw [tagOf, tagOf, node]
      split
      · rw [Option.map_map]
        rfl
      · rfl
    rw [same]
    exact h.tag j
  · by_cases here : id = j
    · rw [← here, own] at same
      cases same
    · rw [other here] at same
      exact h.scalar j text same
  · by_cases here : id = j
    · rw [← here]
      exact ⟨fun _ => mapping, fun _ => ⟨pairs, own⟩⟩
    · rw [IsMapping, other here]
      exact h.mapping j
  · rintro k v ⟨j, member⟩
    by_cases here : id = j
    · rw [← here, pairsOf, own] at member
      exact known (k, v) member
    · rw [pairsOf, other here] at member
      exact h.pair k v ⟨j, member⟩

theorem mem_of_takeMerge {others : List (NodeId × NodeId)} {v : NodeId}
    (taken : d.takeMerge pairs = some (v, others)) : ∀ p ∈ others, p ∈ pairs := by
  induction pairs generalizing others with
  | nil => cases taken
  | cons p rest ih =>
      rw [Document.takeMerge] at taken
      split at taken
      · cases taken
        exact fun p => List.mem_cons_of_mem _
      · obtain ⟨⟨w, kept⟩, taken', same⟩ := Option.map_eq_some_iff.mp taken
        cases same
        intro q member
        rcases List.mem_cons.mp member with rfl | inside
        · exact List.mem_cons_self
        · exact List.mem_cons_of_mem _ (ih taken' q inside)

end Steps

section Merging
variable {α β : Type} {P : α → Prop} {Q : β → Prop} {merged : List (NodeId × NodeId)}

/-- Something ends as it should, or fails for a reason other than a value that does not exist. -/
structure Fine (P : α → Prop) (r : Except Failure α) : Prop where
  ends : ∀ a, r = .ok a → P a
  fails : ∀ f, r ≠ .error (.value f)

theorem Fine.done {a : α} (h : P a) : Fine P (.ok a) := ⟨fun _ same => Except.ok.inj same ▸ h, nofun⟩

theorem Fine.fault (fault : Fault) : Fine P (.error (.fault fault)) := ⟨nofun, nofun⟩

theorem Fine.mono {P' : α → Prop} {r : Except Failure α} (h : Fine P r) (weaker : ∀ a, P a → P' a) :
    Fine P' r := ⟨fun a same => weaker a (h.ends a same), h.fails⟩

theorem Fine.bind {r : Except Failure α} {k : α → Except Failure β} (first : Fine P r)
    (next : ∀ a, P a → Fine Q (k a)) : Fine Q (r >>= k) := by
  cases r with
  | ok a => exact next a (first.ends a rfl)
  | error e => exact ⟨nofun, fun f same => first.fails f (congrArg _ (Except.error.inj same))⟩

theorem Fine.discard {r : Except Failure α} (h : Fine P r) :
    Fine (fun _ => True) (Functor.discard r) := by
  cases r with
  | ok a => exact .done trivial
  | error e => exact ⟨nofun, fun f same => h.fails f (congrArg _ (Except.error.inj same))⟩

theorem Fine.foldlM {f : β → α → Except Failure β} {xs : List α} {b : β} (begun : Q b)
    (step : ∀ b, ∀ x ∈ xs, Q b → Fine Q (f b x)) : Fine Q (xs.foldlM f b) := by
  induction xs generalizing b with
  | nil => exact .done begun
  | cons x rest ih =>
      rw [List.foldlM_cons]
      exact (step b x List.mem_cons_self begun).bind fun b' kept =>
        ih kept fun b y inside => step b y (List.mem_cons_of_mem _ inside)

theorem fail_fine (problem : Problem) (at' : NodeId) : Fine P (d.fail problem at') := .fault _

theorem failIn_fine (what : String) (within : NodeId) (problem : Problem) (at' : NodeId) :
    Fine P (d.failIn what within problem at') := .fault _

theorem Becomes.pairsOf (h : Becomes d d') (id : NodeId) :
    ∀ p ∈ d'.pairsOf id, d.IsPair p.1 p.2 := fun p member => h.pair p.1 p.2 ⟨id, member⟩

theorem flattenFrom_fine (fuel : Nat) (h : Becomes d d') (mapping : d.IsMapping id)
    (known : ∀ p ∈ merged, d.IsPair p.1 p.2) :
    Fine (Becomes d) (flattenFrom fuel id merged d') := by
  induction fuel generalizing id merged d' with
  | zero => exact .done h
  | succ fuel ih =>
      have keyed := h.valueKeysAsTexts id
      rw [flattenFrom]
      generalize d'.valueKeysAsTexts id = d₁ at keyed ⊢
      dsimp only
      cases taken : d₁.takeMerge (d₁.pairsOf id) with
      | none =>
          refine .done ?_
          split
          · exact keyed
          · exact keyed.setPairs mapping fun p member =>
              (List.mem_append.mp member).elim (known p) (keyed.pairsOf id p)
      | some r =>
          obtain ⟨v, others⟩ := r
          dsimp only
          have left : Becomes d (d₁.setPairs id others) := keyed.setPairs mapping fun p member =>
            keyed.pairsOf id p (mem_of_takeMerge taken p member)
          generalize d₁.setPairs id others = d₂ at left ⊢
          cases content : d₂.contentOf v with
          | mapping pairs =>
              refine (ih left ((left.mapping v).mp ⟨pairs, content⟩) (by simp)).bind fun d₃ kept => ?_
              exact ih kept mapping fun p member =>
                (List.mem_append.mp member).elim (known p) (kept.pairsOf v p)
          | sequence items =>
              refine Fine.bind (P := fun r => Becomes d r.1 ∧
                ∀ group ∈ r.2, ∀ p ∈ group, d.IsPair p.1 p.2) (Fine.foldlM ⟨left, by simp⟩ ?_) ?_
              · rintro ⟨d₃, groups⟩ item - ⟨kept, gathered⟩
                dsimp only
                cases here : d₃.contentOf item with
                | mapping pairs =>
                    refine (ih kept ((kept.mapping item).mp ⟨pairs, here⟩) (by simp)).bind
                      fun d₄ kept' => .done ⟨kept', fun group member => ?_⟩
                    rcases List.mem_cons.mp member with rfl | before
                    · exact kept'.pairsOf item
                    · exact gathered group before
                | sequence _ => exact failIn_fine _ _ _ _
                | scalar _ => exact failIn_fine _ _ _ _
              · rintro ⟨d₃, groups⟩ ⟨kept, gathered⟩
                refine ih kept mapping fun p member => ?_
                rcases List.mem_append.mp member with before | new
                · exact known p before
                · obtain ⟨group, inside, here⟩ := List.mem_flatten.mp new
                  exact gathered group inside p here
          | scalar _ => exact failIn_fine _ _ _ _

/-- Merging names no value, and makes of a document only what it may become. -/
theorem flatten_fine (mapping : d.IsMapping id) : Fine (Becomes d) (d.flatten id) :=
  flattenFrom_fine _ (.refl d) mapping (by simp)

end Merging

section Scalars

theorem textOf_fine (fuel : Nat) : Fine (d.Reads id) (d.textOf fuel id) := by
  induction fuel generalizing id with
  | zero => exact fail_fine _ _
  | succ fuel ih =>
      rw [textOf]
      cases content : d.contentOf id with
      | scalar text => exact .done (.own content)
      | sequence items => exact fail_fine _ _
      | mapping pairs =>
          dsimp only
          cases found : pairs.find? fun p => d.tagOf p.1 == Tag.value with
          | none => exact fail_fine _ _
          | some p =>
              obtain ⟨key, value⟩ := p
              have pair : d.IsPair key value :=
                ⟨id, by rw [pairsOf, content]; exact List.mem_of_find?_eq_some found⟩
              have tag := List.find?_some found
              exact ih.mono fun text reads => .value ⟨pairs, content⟩ pair (beq_iff_eq.mp tag) reads

theorem fine_of_ok {r : Except Failure Value} (ok : ∃ v, r = .ok v) : Fine (fun _ => True) r := by
  obtain ⟨v, rfl⟩ := ok
  exact .done trivial

theorem isMapping_of_reads (reads : d.Reads id text) (other : ∀ text, d.contentOf id ≠ .scalar text) :
    d.IsMapping id := by
  cases reads with
  | own scalar => exact absurd scalar (other text)
  | value mapping _ _ _ => exact mapping

theorem binary_fine (text : String) (pos : Position) :
    Fine (fun _ => True) (Scalar.binary text pos) := by
  rw [Scalar.binary]
  cases Scalar.notAscii? (codes text) with
  | some reason => exact .fault _
  | none =>
      dsimp only
      cases Base64.decode text with
      | ok bytes => exact .done trivial
      | error f => exact .fault _

/-- Where every text has a value of its type, a scalar is no value only for another reason. -/
theorem scalarValue_fine (valued : d.Valued) (id : NodeId) :
    Fine (fun _ => True) (d.scalarValue id) := by
  have read : Fine (d.Reads id) (d.text id) := textOf_fine _
  unfold scalarValue
  dsimp only
  split
  · exact read.discard.bind fun _ _ => .done trivial
  split
  · next tag =>
    exact read.bind fun text reads =>
      fine_of_ok ((valued.texts id text reads).boolean (beq_iff_eq.mp tag))
  split
  · next tag =>
    exact read.bind fun text reads =>
      fine_of_ok ((valued.texts id text reads).integer (beq_iff_eq.mp tag))
  split
  · next tag =>
    exact read.bind fun text reads =>
      fine_of_ok ((valued.texts id text reads).number (beq_iff_eq.mp tag))
  split
  · exact read.bind fun text _ => binary_fine text _
  split
  · next tag =>
    refine read.bind fun text reads => ?_
    split
    · exact fine_of_ok ((valued.texts id text reads).timestamp (beq_iff_eq.mp tag))
    · next other =>
      exact absurd (isMapping_of_reads reads other) (valued.times id (beq_iff_eq.mp tag))
  split
  · exact read.bind fun text _ => .done trivial
  · exact fail_fine _ _

end Scalars
end Document

namespace Build
open Document (Becomes Fine)
variable {b : Building}

/-- Merging changes the document, and a value that does not exist is named only where some text has
none of its type. -/
def building : Course Building Failure where
  leads b b' := Becomes b.document b'.document
  fails b e := ∀ f, e = .value f → ¬ b.document.Valued
  refl b := .refl b.document
  trans := Becomes.trans
  sooner h fails f same valued := fails f same (h.valued valued)

section Steps
variable {α : Type}

theorem lift_at {P : α → Prop} {r : Except Failure α} {k : α → Build Unit}
    (fine : b.document.Valued → Fine P r) (next : ∀ a, r = .ok a → building.At b (k a)) :
    building.At b (StateT.lift r >>= k) := by
  cases r with
  | ok a => exact next a rfl
  | error e => exact fun f same valued => (fine valued).fails f (congrArg _ same)

theorem check_keeps {f : Document → Except Failure Unit} (fine : ∀ d, Fine (fun _ => True) (f d)) :
    building.Keeps (check f) := by
  intro b
  refine .get ?_
  cases result : f b.document with
  | ok u => exact Becomes.refl b.document
  | error e => exact fun g same _ => (result ▸ fine b.document).fails g (congrArg _ same)

theorem meet_keeps (id : NodeId) : building.Keeps (meet id) := by
  intro b
  refine .get (.ite (.ite (.set (.refl b.document)) ?_) (.set (.refl b.document)))
  exact lift_at (fun valued => Document.scalarValue_fine valued id) fun v _ =>
    .set (.refl b.document)

theorem forM_keeps {f : α → Build Unit} {xs : List α} (kept : ∀ x, building.Keeps (f x)) :
    building.Keeps (xs.forM f) := by
  induction xs with
  | nil => exact .pure ()
  | cons x rest ih => exact .bind (kept x) fun _ => ih

end Steps

section Parts

theorem mappingParts_keeps (id : NodeId) : building.Keeps (mappingParts id) := by
  intro b
  refine .get ?_
  cases content : b.document.contentOf id with
  | mapping pairs =>
      have fine := Document.flatten_fine (d := b.document) ⟨pairs, content⟩
      refine lift_at (fun _ => fine) fun d merged => ?_
      have becomes : building.leads b { b with document := d } := fine.ends d merged
      refine .bind (.set becomes) fun _ b' _ => ?_
      refine forM_keeps (fun p => ?_) b'
      refine .bind (meet_keeps p.1) fun _ => ?_
      exact .ite (.bind (check_keeps fun d => Document.failIn_fine _ _ _ _) fun _ => meet_keeps p.2)
        (meet_keeps p.2)
  | sequence items => exact check_keeps (fun d => Document.fail_fine _ _) b
  | scalar text => exact check_keeps (fun d => Document.fail_fine _ _) b

theorem sequenceParts_keeps (id : NodeId) : building.Keeps (sequenceParts id) := by
  refine .bind .get fun b => ?_
  split
  · exact forM_keeps meet_keeps
  · exact check_keeps fun d => Document.fail_fine _ _

theorem pairParts_keeps (what : String) (id : NodeId) : building.Keeps (pairParts what id) := by
  refine .bind .get fun b => ?_
  split
  · refine forM_keeps fun item => .bind .get fun b => ?_
    split
    · exact .bind (meet_keeps _) fun _ => meet_keeps _
    · exact check_keeps fun d => Document.failIn_fine _ _ _ _
    · exact check_keeps fun d => Document.failIn_fine _ _ _ _
  · exact check_keeps fun d => Document.failIn_fine _ _ _ _

theorem parts_keeps (id : NodeId) : building.Keeps (parts id) :=
  .bind .get fun _ => .ite (sequenceParts_keeps id) <| .ite (pairParts_keeps _ id) <|
    .ite (pairParts_keeps _ id) (mappingParts_keeps id)

theorem buildWaiting_keeps (fuel : Nat) : building.Keeps (buildWaiting fuel) := by
  induction fuel with
  | zero => exact .pure ()
  | succ fuel ih =>
      intro b
      refine .get ?_
      cases b.waiting with
      | nil => exact .set (.refl b.document)
      | cons id waiting =>
          refine .bind (.set (.refl b.document)) fun _ b' _ => ?_
          exact Course.Keeps.bind (parts_keeps id) (fun _ => ih) b'

end Parts
end Build

/-- A document in which every text has a value of its type is built, or is none for another
reason. -/
theorem Document.build_fine {d : Document} (valued : d.Valued) (f : ValueFault) :
    d.build ≠ .error (.value f) := by
  intro failed
  have keeps : Build.building.Keeps (do Build.meet d.root; Build.buildWaiting (d.nodes.size + 1)) :=
    .bind (Build.meet_keeps d.root) fun _ => Build.buildWaiting_keeps _
  have begun := keeps ⟨⟨d, []⟩, [], []⟩
  unfold Document.build at failed
  dsimp only at failed
  generalize (do Build.meet d.root; Build.buildWaiting (d.nodes.size + 1) : Build Unit) = all
    at failed begun
  cases run : StateT.run all ⟨⟨d, []⟩, [], []⟩ with
  | ok r =>
      rw [run] at failed
      cases failed
  | error e =>
      rw [run] at failed
      cases failed
      exact begun.fails run f rfl valued

end DataModel.Yaml
