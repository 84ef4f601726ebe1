import DataModel.Proofs.Model.Names
import DataModel.Proofs.Store.Isolation
import DataModel.Proofs.Store.Steady

/-!
Rebuilding a store: every committed file is loaded afresh from its own text, in the order of the
registry, and all are resolved together. A settled store has nothing that a rebuild would do
otherwise: it succeeds without an error, and what it makes is the committed model, version by
version, at the places of a new model.
-/
namespace DataModel
open Resolution

namespace Store
variable {s : Store}

/-- Where a rebuild puts a version: in the order of the registry, and what is not committed behind
all. -/
def place (s : Store) (v : VersionId) : VersionId :=
  if v ∈ s.committed.values then s.committed.values.idxOf v else s.committed.values.length + v

/-- Loads a committed file afresh. -/
def reloadInto (s : Store) : Model × Table VersionId → String × VersionId →
    Except Source.Failure (Model × Table VersionId) := fun (m, view) (name, v) =>
  match s.model.file? v with
  | none => .ok (m, view)
  | some file => do
    match ← Grammar.loadText s.settings.app ⟨file.name, file.path, file.source⟩ with
    | none => return (m, view)
    | some fresh =>
      let (m, id) := m.add fresh
      return (m, view.put name id)

/-- All committed files as one batch of a new model. -/
def rebuild (s : Store) : Except Source.Failure Batch := do
  let (m, view) ← s.committed.foldlM s.reloadInto (.empty, [])
  return ⟨m, view, view.values⟩

theorem reloadInto_file {m : Model} {view : Table VersionId} {name : String} {v : VersionId}
    {file f : ModelFile} (found : s.model.file? v = some file)
    (text : Grammar.loadText s.settings.app ⟨file.name, file.path, file.source⟩ = .ok (some f)) :
    s.reloadInto (m, view) (name, v) = .ok ((m.add f).1, view.put name (m.add f).2) := by
  rw [reloadInto]
  dsimp only
  rw [found]
  dsimp only
  rw [text]
  rfl

theorem place_injective (s : Store) : s.place.Injective := by
  intro v w same
  unfold place at same
  by_cases hv : v ∈ s.committed.values
  · have low := List.idxOf_lt_length_of_mem hv
    by_cases hw : w ∈ s.committed.values
    · rw [if_pos hv, if_pos hw] at same
      exact (List.idxOf_inj hv).mp same
    · rw [if_pos hv, if_neg hw] at same
      rw [same] at low
      exact absurd low (Nat.not_lt.mpr (Nat.le_add_right _ _))
  · by_cases hw : w ∈ s.committed.values
    · have low := List.idxOf_lt_length_of_mem hw
      rw [if_neg hv, if_pos hw] at same
      rw [← same] at low
      exact absurd low (Nat.not_lt.mpr (Nat.le_add_right _ _))
    · rw [if_neg hv, if_neg hw] at same
      exact Nat.add_left_cancel same

/-- A rebuild in which every file is as it was loaded. -/
structure Rebuilt (s : Store) (files : Table VersionId) (m : Model) (view : Table VersionId) :
    Prop where
  size : m.versions.size = files.length
  view : view = Table.mapValues s.place files
  fresh : ∀ {name v}, (name, v) ∈ files → ∀ {f m₁ n ds}, s.Made v f m₁ n ds →
    m.version? (s.place v) = some (.fresh (s.place v) f)

theorem nodup_committed (h : s.Settled) (sound : s.Sound) : s.committed.values.Nodup := by
  have once := sound.committedOnce
  rw [Table.values, List.Nodup, List.pairwise_map]
  rw [Table.keys, List.Nodup, List.pairwise_map] at once
  refine once.imp_of_mem ?_
  intro p q hp hq apart same
  have first := h.named (Table.get?_of_mem sound.committedOnce (k := p.1) (v := p.2) hp)
  have second := h.named (Table.get?_of_mem sound.committedOnce (k := q.1) (v := q.2) hq)
  rw [same] at first
  exact apart (first.symm.trans second)

theorem place_of_split (h : s.Settled) (sound : s.Sound) {before after : Table VersionId}
    {name : String} {v : VersionId} (split : s.committed = before ++ (name, v) :: after) :
    s.place v = before.length := by
  have once := nodup_committed h sound
  have values : s.committed.values = before.values ++ v :: after.values := by
    rw [split, Table.values, List.map_append]
    rfl
  rw [values, List.nodup_append'] at once
  have early : v ∉ before.values := fun hv => once.2.2 hv List.mem_cons_self
  have here : v ∈ s.committed.values := values ▸ List.mem_append_right _ List.mem_cons_self
  rw [place, if_pos here, values, List.idxOf_append, if_neg early, List.idxOf_cons_self,
    Nat.zero_add, Table.values, List.length_map]

theorem place_lt (h : s.Settled) (sound : s.Sound) {before after : Table VersionId}
    {x : String × VersionId} (split : s.committed = before ++ x :: after)
    {name : String} {v : VersionId} (early : (name, v) ∈ before) : s.place v < before.length := by
  obtain ⟨first, rest, rfl⟩ := List.append_of_mem early
  have split' : s.committed = first ++ (name, v) :: (rest ++ x :: after) := by
    rw [split, List.append_assoc]
    rfl
  rw [place_of_split h sound split', List.length_append, List.length_cons]
  exact Nat.lt_add_of_pos_right (Nat.succ_pos _)

theorem Rebuilt.step (h : s.Settled) (sound : s.Sound) {before after : Table VersionId}
    {x : String × VersionId} (split : s.committed = before ++ x :: after) {m : Model}
    {view : Table VersionId} (sofar : s.Rebuilt before m view) :
    ∃ r, s.reloadInto (m, view) x = .ok r ∧ s.Rebuilt (before ++ [x]) r.1 r.2 := by
  obtain ⟨name, v⟩ := x
  have member : (name, v) ∈ s.committed := split ▸ List.mem_append_right _ List.mem_cons_self
  have known := Table.get?_of_mem sound.committedOnce member
  obtain ⟨f, m₁, n, ds, made⟩ := h.made known
  obtain ⟨file, found, bare⟩ := Option.map_eq_some_iff.mp made.bare
  have text : Grammar.loadText s.settings.app ⟨file.name, file.path, file.source⟩ =
      .ok (some f) := by
    have identity : (⟨file.name, file.path, file.source⟩ : Grammar.FileIdentity) =
        ⟨file.bare.name, file.bare.path, file.bare.source⟩ := rfl
    rw [identity, bare]
    exact made.loaded
  have here := place_of_split h sound split
  have new : name ∉ view.keys := by
    have once := sound.committedOnce
    rw [split, Table.keys, List.map_append, List.nodup_append'] at once
    rw [sofar.view, Table.keys_mapValues]
    exact fun early => once.2.2 early List.mem_cons_self
  have id : (m.add f).2 = s.place v := sofar.size.trans here.symm
  refine ⟨_, reloadInto_file found text, ?_, ?_, ?_⟩
  · rw [Model.add, Array.size_push, sofar.size, List.length_append]
    rfl
  · rw [id, Table.put_of_not_mem new, sofar.view, Table.mapValues, Table.mapValues,
      List.map_append]
    rfl
  · intro name' w hw f' m' n' ds' made'
    rcases List.mem_append.mp hw with early | last
    · have old := sofar.fresh early made'
      have apart : s.place w ≠ (m.add f).2 := by
        rw [id, here]
        exact Nat.ne_of_lt (place_lt h sound split early)
      rw [← old]
      exact Model.version?_add_old f (Model.has_of_version? old)
    · cases List.mem_singleton.mp last
      have same : f' = f := by
        have bare' := Option.some.inj (made'.bare.symm.trans made.bare)
        exact made'.loaded.unique made.loaded (congrArg ModelFile.name bare' :)
          (congrArg ModelFile.path bare' :) (congrArg ModelFile.source bare' :)
      rw [same, ← id]
      exact Model.version?_add_new m f

/-- Every committed file can be loaded afresh. -/
theorem rebuild_ok (h : s.Settled) (sound : s.Sound) : ∃ b, s.rebuild = .ok b ∧
    s.Rebuilt s.committed b.model b.view ∧ b.members = s.committed.values.map s.place := by
  obtain ⟨⟨m, view⟩, done, rebuilt⟩ : ∃ r, s.committed.foldlM s.reloadInto (.empty, []) = .ok r ∧
      s.Rebuilt s.committed r.1 r.2 := by
    refine foldlM_total (I := fun before (r : Model × Table VersionId) =>
      s.Rebuilt before r.1 r.2) ?_ ?_
    · exact ⟨rfl, rfl, fun member => absurd member List.not_mem_nil⟩
    · exact fun before x after r split sofar => sofar.step h sound split
  refine ⟨⟨m, view, view.values⟩, ?_, rebuilt, ?_⟩
  · rw [rebuild, done]
    rfl
  · rw [← Table.values_mapValues, ← rebuilt.view]

section Resolving
variable {b : Batch} (h : s.Settled) (sound : s.Sound)
  (rebuilt : s.Rebuilt s.committed b.model b.view)
  (members : b.members = s.committed.values.map s.place)
include h rebuilt

theorem rebuilt_fresh {name : String} {v : VersionId} (known : s.committed.get? name = some v) :
    ∃ f m n ds, s.Made v f m n ds ∧
      b.model.version? (s.place v) = some (.fresh (s.place v) f) := by
  obtain ⟨f, m, n, ds, made⟩ := h.made known
  exact ⟨f, m, n, ds, made, rebuilt.fresh (Table.mem_of_get? known) made⟩

theorem rebuilt_bare {name : String} {v : VersionId} (known : s.committed.get? name = some v) :
    (b.model.file? (s.place v)).map ModelFile.bare = (s.model.file? v).map ModelFile.bare := by
  obtain ⟨f, m, n, ds, made, fresh⟩ := rebuilt_fresh h rebuilt known
  rw [made.bare, Model.file?, fresh]
  rfl

theorem rebuilt_dependencies {name : String} {v : VersionId}
    (known : s.committed.get? name = some v) :
    b.dependencies (s.place v) = (s.dependencies v).map s.place := by
  have uses : b.model.uses (s.place v) = s.model.uses v := by
    rw [Model.uses, Model.reading_of_bare (fun _ => rfl) (rebuilt_bare h rebuilt known),
      Model.uses]
  rw [Batch.dependencies, uses, Store.dependencies, List.map_filterMap]
  refine List.filterMap_congr fun use _ => ?_
  rw [rebuilt.view, Table.get?_mapValues]

include sound in
theorem rebuilt_domains :
    b.model.domainTable b.view.values = Table.mapValues (Key.rename s.place) s.domains := by
  rw [rebuilt.view, Table.values_mapValues, Model.domainTable, Store.domains, Model.domainTable,
    ← Table.ofList_mapValues, List.map_flatMap, List.flatMap_map]
  refine congrArg Table.ofList (List.flatMap_congr fun v hv => ?_)
  obtain ⟨name, known⟩ := (Table.mem_values_iff sound.committedOnce).mp hv
  rw [Model.domainsOf_eq, Model.domainsOf_eq,
    Model.reading_of_bare Model.domainNames_bare (rebuilt_bare h rebuilt known), List.map_map]
  rfl

/-- A rebuild in which some versions, at their places, are what they are in the store. -/
structure Redone (s : Store) (b : Batch) (before : List VersionId) (m : Model)
    (found : List (VersionId × List Diagnostic)) : Prop where
  done : ∀ {name v}, s.committed.get? name = some v → s.place v ∈ before →
    m.version? (s.place v) = (s.model.version? v).map (Version.rename s.place)
  ahead : ∀ {w}, w ∉ before → m.version? w = b.model.version? w
  shape : Model.KeepsShape b.model m
  clean : ∀ p ∈ found, Clean p.2

section Turns
variable {ordered before after : List VersionId} {v : VersionId} {name : String}
  (order : Graph.Sorted b.dependencies b.members ordered)
  (split : ordered = before ++ s.place v :: after)
  (known : s.committed.get? name = some v)
include members order split known

/-- What is below a version is resolved before it. -/
theorem below_redone {w : VersionId} (below : s.Below v w) : w = v ∨ s.place w ∈ before := by
  induction below with
  | refl => exact .inl rfl
  | @tail u d path step ih =>
      obtain ⟨name', known'⟩ := committed_of_below path known
      obtain ⟨use, -, found⟩ := committed_of_dependency step
      have member : s.place d ∈ b.members := by
        rw [members]
        exact List.mem_map_of_mem (Table.mem_values_of_mem (Table.mem_of_get? found))
      have dependency : s.place d ∈ b.dependencies (s.place u) := by
        rw [rebuilt_dependencies h rebuilt known']
        exact List.mem_map_of_mem step
      rcases ih with rfl | early
      · exact .inr (order.behind before _ after split _ dependency member)
      · obtain ⟨first, rest, rfl⟩ := List.append_of_mem early
        have split' : ordered = first ++ s.place u :: (rest ++ s.place v :: after) := by
          rw [split, List.append_assoc]
          rfl
        exact .inr (List.mem_append_left _ (order.behind first _ _ split' _ dependency member))

include sound in
/-- A model in which all below a version is redone is like the one in which the version was made. -/
theorem made_like {f : ModelFile} {m₁ n : Model} {ds : List Diagnostic} {m : Model}
    {found : List (VersionId × List Diagnostic)} (made : s.Made v f m₁ n ds)
    (new : s.place v ∉ before) (sofar : s.Redone b before m found) :
    Model.Like s.place (s.reach v) m₁ m := by
  have self := made.like fun {w ver} below _ there => by
    obtain ⟨name', known'⟩ := committed_of_below below known
    exact h.linked known' there
  refine ⟨fun {w} below => exists_movedTo ?_, self.linked, fun {name' k} found => ?_⟩
  · by_cases here : w = v
    · subst here
      rw [sofar.ahead new, rebuilt.fresh (Table.mem_of_get? known) made, made.fresh,
        Option.map_some, Version.fresh_rename _ made.loaded.unlinked]
    · have early := (below_redone h rebuilt members order split known below).resolve_left here
      obtain ⟨name', known'⟩ := committed_of_below below known
      rw [sofar.done known' early, made.below below here]
  · obtain ⟨name'', known'⟩ := domains_file sound.committedOnce found
    rw [← made.domains found, sofar.shape.fileName, Model.fileName, Model.fileName,
      Model.reading_of_bare (fun _ => rfl) (rebuilt_bare h rebuilt known')]

include sound in
/-- The turn of a version in the rebuild makes of it what it is in the store. -/
theorem redo {m : Model} {found : List (VersionId × List Diagnostic)}
    (new : s.place v ∉ before) (sofar : s.Redone b before m found) :
    ∃ ds m', m.resolve (s.place v) (b.dependencies (s.place v))
        (b.model.domainTable b.view.values) s.settings.allowCompositeKeys = .ok (ds, m') ∧
      s.Redone b (before ++ [s.place v]) m'
        (found ++ [(s.place v, Batch.reported s.settings ds)]) := by
  obtain ⟨f, m₁, n, ds, made⟩ := h.made known
  have like := made_like h sound rebuilt members order split known made new sofar
  have alike := Model.resolve_like (place_injective s) like made.covers
    s.settings.allowCompositeKeys
  rw [← rebuilt_dependencies h rebuilt known, ← rebuilt_domains h sound rebuilt] at alike
  rcases alike with ⟨ds', n', m', run, run', like'⟩ | ⟨e, failed, -⟩
  · rw [made.done] at run
    cases run
    have fresh : m.version? (s.place v) = some (.fresh (s.place v) f) := by
      rw [sofar.ahead new]
      exact rebuilt.fresh (Table.mem_of_get? known) made
    have evolves := Model.resolve_evolves fresh run'
    refine ⟨_, m', run', ?_, ?_, sofar.shape.trans evolves.keepsShape, ?_⟩
    · intro name' w known' hw
      by_cases here : w = v
      · subst here
        rw [made.result]
        refine like'.exact .refl ?_
        rw [Model.reading_of_bare (fun _ => rfl) evolves.bare,
          Model.reading_of_bare (fun _ => rfl) made.evolves.bare, Model.file?, Model.file?, fresh,
          made.fresh]
        rfl
      · have other : s.place w ≠ s.place v := fun same => here (place_injective s same)
        rw [List.mem_append, List.mem_singleton] at hw
        rw [evolves.others other]
        exact sofar.done known' (hw.resolve_right other)
    · intro w hw
      rw [List.mem_append, List.mem_singleton, not_or] at hw
      rw [evolves.others hw.2]
      exact sofar.ahead hw.1
    · intro p hp
      rcases List.mem_append.mp hp with old | last
      · exact sofar.clean p old
      · cases List.mem_singleton.mp last
        intro d hd
        obtain ⟨d', hd', rfl⟩ := List.mem_map.mp (List.mem_of_mem_filter hd)
        exact made.clean d' hd'
  · rw [made.done] at failed
    cases failed

end Turns

omit h rebuilt in
include sound members in
theorem mem_rebuilt {x : VersionId} (member : x ∈ b.members) :
    ∃ name v, s.committed.get? name = some v ∧ s.place v = x := by
  rw [members] at member
  obtain ⟨v, hv, rfl⟩ := List.mem_map.mp member
  obtain ⟨name, known⟩ := (Table.mem_values_iff sound.committedOnce).mp hv
  exact ⟨name, v, known, rfl⟩

include sound members in
/-- The rebuild can be sorted, since no committed file depends on itself. -/
theorem rebuilt_sorted : ∃ ordered, Graph.sort b.dependencies b.members = .ok ordered := by
  obtain ⟨rank, falls⟩ := h.falls
  have back := Function.leftInverse_invFun (place_injective s)
  have rebuiltFalls : Graph.Falls b.dependencies b.members
      fun x => rank (Function.invFun s.place x) := by
    intro x hx d hd _
    obtain ⟨name, v, known, rfl⟩ := mem_rebuilt sound members hx
    rw [rebuilt_dependencies h rebuilt known] at hd
    obtain ⟨d', hd', rfl⟩ := List.mem_map.mp hd
    dsimp only
    rw [back, back]
    exact falls known d' hd'
  exact Graph.sort_of_falls rebuiltFalls

include sound members in
/-- Resolving the rebuild makes every committed version again, without an error. -/
theorem rebuilt_resolve : ∃ r, b.resolve s.settings = .ok r ∧ Clean (r.found.flatMap (·.2)) ∧
    ∀ {name v}, s.committed.get? name = some v →
      r.model.version? (s.place v) = (s.model.version? v).map (Version.rename s.place) := by
  obtain ⟨ordered, sorted⟩ := rebuilt_sorted h sound rebuilt members
  have order := Graph.sort_sorted sorted
  obtain ⟨⟨m, found⟩, run, redone⟩ : ∃ r : Model × List (VersionId × List Diagnostic),
      b.resolveEach s.settings (b.model.domainTable b.view.values) ordered = .ok r ∧
        s.Redone b ordered r.1 r.2 := by
    refine foldlM_total (I := fun before (r : Model × List (VersionId × List Diagnostic)) =>
      s.Redone b before r.1 r.2) ?_ ?_
    · exact ⟨fun _ early => absurd early List.not_mem_nil, fun _ => rfl, .refl _,
        fun _ hp => absurd hp List.not_mem_nil⟩
    · intro before x after r split sofar
      obtain ⟨m, found⟩ := r
      obtain ⟨name, v, known, rfl⟩ := mem_rebuilt sound members
        (order.known x (split ▸ List.mem_append_right _ List.mem_cons_self))
      have once := order.once
      rw [split, List.nodup_append'] at once
      have new : s.place v ∉ before := fun early => once.2.2 early List.mem_cons_self
      obtain ⟨ds, m', step, redone⟩ :=
        redo h sound rebuilt members order split known new sofar
      refine ⟨(m', found ++ [(s.place v, Batch.reported s.settings ds)]), ?_, redone⟩
      dsimp only
      rw [step]
      rfl
  refine ⟨⟨m, b.members.map fun v => (v, (found.lookup v).getD []), ordered⟩, ?_, ?_, ?_⟩
  · rw [Batch.resolve, Graph.sortVersions, sorted]
    dsimp only [Except.mapError]
    rw [run]
    rfl
  · intro d hd
    obtain ⟨p, hp, hd'⟩ := List.mem_flatMap.mp hd
    obtain ⟨x, -, rfl⟩ := List.mem_map.mp hp
    cases here : found.lookup x with
    | none =>
        rw [here] at hd'
        cases hd'
    | some ds =>
        rw [here] at hd'
        obtain ⟨first, rest, whole, -⟩ := List.lookup_eq_some_iff.mp here
        exact redone.clean (x, ds) (whole ▸ List.mem_append_right _ List.mem_cons_self) d hd'
  · intro name v known
    refine redone.done known ((Graph.mem_sort sorted).mpr ?_)
    rw [members]
    exact List.mem_map_of_mem (Table.mem_values_of_mem (Table.mem_of_get? known))

end Resolving

section Names

/-- The properties of a committed file are linked within its reach. -/
theorem Settled.property_linked (h : s.Settled) {name : String} {v : VersionId}
    (known : s.committed.get? name = some v) {p : Property} (member : p ∈ s.model.properties v) :
    p.Linked (s.reach v) := by
  obtain ⟨f, m, n, ds, made⟩ := h.made known
  rw [Model.properties] at member
  rcases List.mem_append.mp member with inClass | inEndpoint
  · obtain ⟨k, own, hp⟩ := List.mem_flatMap.mp inClass
    obtain ⟨rfl, c, there⟩ := made.own_class own
    rw [there] at hp
    obtain ⟨ver, found, at'⟩ := Model.class?_eq_some there
    exact ((h.linked known found).file.classes c (List.mem_of_getElem? at')).properties p hp
  · obtain ⟨k, own, hp⟩ := List.mem_flatMap.mp inEndpoint
    obtain ⟨rfl, e, there⟩ := made.own_endpoint own
    rw [there] at hp
    obtain ⟨ver, found, at'⟩ := Model.endpoint?_eq_some there
    have linked := (h.linked known found).file.endpoints e (List.mem_of_getElem? at')
    rcases List.mem_append.mp hp with param | returned
    · exact linked.params p param
    · exact linked.returns p (Option.mem_toList.mp returned)

/-- A model that holds the committed versions at their places looks like the store's from each. -/
theorem Settled.like_of_placed (h : s.Settled) (sound : s.Sound) {m : Model}
    (placed : ∀ {name v}, s.committed.get? name = some v →
      m.version? (s.place v) = (s.model.version? v).map (Version.rename s.place))
    {name : String} {v : VersionId} (known : s.committed.get? name = some v) :
    Model.Like s.place (s.reach v) s.model m where
  same below := by
    obtain ⟨name', known'⟩ := committed_of_below below known
    exact exists_movedTo (placed known')
  linked below found := by
    obtain ⟨name', known'⟩ := committed_of_below below known
    exact (h.linked known' found).mono (reach_within below)
  domains {name' k} found := by
    obtain ⟨name'', known'⟩ := domains_file sound.committedOnce found
    rw [Model.fileName, Model.file?, placed known', Option.map_map, Option.map_map, Model.fileName,
      Model.file?, Option.map_map]
    rfl

end Names

end Store

/-- After a steady history the committed model is what a full rebuild makes: all committed files
can be loaded afresh and resolved together without an error, and each becomes, at its place, what
it is in the store, with the same names of its properties. -/
theorem committed_rebuilt (settings : Settings) (history : List Moment)
    (steady : Steady settings history) :
    let s := Store.after settings history
    s.place.Injective ∧ ∃ b r, s.rebuild = .ok b ∧
      b.view = Table.mapValues s.place s.committed ∧ b.members = s.committed.values.map s.place ∧
      b.resolve settings = .ok r ∧ Clean (r.found.flatMap (·.2)) ∧
      ∀ name v, s.file? name = some v →
        r.model.version? (s.place v) = (s.model.version? v).map (Version.rename s.place) ∧
        ∀ p ∈ s.model.properties v,
          r.model.propertyName? (p.rename s.place) = s.model.propertyName? p := by
  obtain ⟨sound, same⟩ := Store.after_sound settings history
  have settled := steady.settled
  dsimp only
  generalize Store.after settings history = s at sound same settled
  obtain ⟨b, done, rebuilt, members⟩ := Store.rebuild_ok settled sound
  obtain ⟨r, resolved, clean, placed⟩ := Store.rebuilt_resolve settled sound rebuilt members
  rw [same] at resolved
  refine ⟨s.place_injective, b, r, done, rebuilt.view, members, resolved, clean, ?_⟩
  intro name v known
  refine ⟨placed known, fun p hp => ?_⟩
  exact (settled.like_of_placed sound placed known).propertyName?
    (settled.property_linked known hp)

theorem committed_rebuilt_steady : Steady Relinking.settings Relinking.steady ∧
    let s := Store.after Relinking.settings Relinking.steady
    s.file? "L" = some 3 ∧ ∃ b r, s.rebuild = .ok b ∧ b.resolve Relinking.settings = .ok r ∧
      Clean (r.found.flatMap (·.2)) ∧
      r.model.version? (s.place 3) = (s.model.version? 3).map (Version.rename s.place) := by
  obtain ⟨-, b, r, done, -, -, resolved, clean, same⟩ :=
    committed_rebuilt _ _ Relinking.steady_keeps
  exact ⟨Relinking.steady_keeps, Relinking.file_steady, b, r, done, resolved, clean,
    (same "L" 3 Relinking.file_steady).1⟩

/-- What a rebuild makes of two files of one name, one of which uses the name. -/
def Relinking.rebuilt : Batch :=
  ⟨⟨#[.fresh 0 (shares "Z"), .fresh 1 (shares "L")]⟩, [("Z", 0), ("L", 1)], [0, 1]⟩

/-- When a link comes back, the committed files can be such that a rebuild has an error. -/
theorem rebuild_of_unsteady :
    ∃ b r, (Store.after Relinking.settings Relinking.unsteady).rebuild = .ok b ∧
      b.resolve Relinking.settings = .ok r ∧ ¬ Clean (r.found.flatMap (·.2)) := by
  rw [Relinking.after_unsteady]
  generalize same : (⟨Relinking.settings, [], Relinking.resolved "L.tmd" "Z",
    [("Z", 3), ("L", 1)], [], []⟩ : Store) = s
  have rebuilt : s.rebuild = .ok Relinking.rebuilt := by
    have first : s.model.file? 3 = some (Relinking.shares "Z") := same ▸ rfl
    have second : s.model.file? 1 = some (Relinking.shares "L") := same ▸ rfl
    have text : ∀ name, Grammar.loadText s.settings.app ⟨name, "/m/L.tmd", Relinking.sharing⟩ =
        .ok (some (Relinking.shares name)) := same ▸ Relinking.load_sharing
    have files : s.committed = [("Z", 3), ("L", 1)] := same ▸ rfl
    rw [Store.rebuild, files, List.foldlM_cons, Store.reloadInto_file first (text "Z")]
    change (s.reloadInto _ ("L", 1) >>= fun r => pure r) >>= _ = Except.ok Relinking.rebuilt
    rw [Store.reloadInto_file second (text "L")]
    rfl
  have circle : Graph.IsCircle Relinking.rebuilt.dependencies [0, 1] [0, 0] := by
    refine ⟨⟨0, [], rfl⟩, by decide, ?_⟩
    exact List.isChain_pair.mpr (List.mem_singleton_self 0)
  obtain ⟨r, done⟩ := Store.resolve_of_circle (b := Relinking.rebuilt) circle Relinking.settings
  obtain ⟨d, only, error⟩ := (Store.resolve_circular (by decide) circle done).only
  refine ⟨Relinking.rebuilt, r, rebuilt, done, fun clean => ?_⟩
  rw [only] at clean
  rw [clean d (List.mem_singleton_self d)] at error
  cases error

end DataModel
