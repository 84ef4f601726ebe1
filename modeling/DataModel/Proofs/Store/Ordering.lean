import DataModel.Proofs.Store.Rebuild
import DataModel.Proofs.Store.Resolving

/-!
Orders of a batch. Files may be resolved in any order in which each comes after those that it
uses. A file meets everything below it as it stays, whatever else came before, so the order shows
neither in the model nor in what is reported of a file.
-/
namespace DataModel.Batch
variable {b : Batch} {settings : Settings} {domains : Table Key} {settled : VersionId → Prop}
  {files order order' : List VersionId}

/-- Files as they were loaded. Each uses only others of them, and versions that are settled: these
are linked with one another and with domains only. -/
structure Afresh (b : Batch) (settled : VersionId → Prop) (files : List VersionId) : Prop where
  loaded : ∀ v ∈ files, ∃ f, b.model.version? v = some (.fresh v f) ∧ f.Unlinked
  uses : ∀ v ∈ files, ∀ d ∈ b.dependencies v, d ∈ files ∨ settled d
  apart : ∀ v ∈ files, ¬ settled v
  closed : ∀ {v ver}, settled v → b.model.version? v = some ver → ver.Linked (.among settled)

/-- A file that another uses over any number of files, or the other itself. -/
def Below (b : Batch) (files : List VersionId) : VersionId → VersionId → Prop :=
  Relation.ReflTransGen fun v w => w ∈ b.dependencies v ∧ w ∈ files

/-- What a resolved file may be linked with. -/
def reach (b : Batch) (settled : VersionId → Prop) (files : List VersionId) (v : VersionId) :
    Horizon := .among fun w => settled w ∨ b.Below files v w

theorem reach_within {v w : VersionId} (below : b.Below files v w) :
    (b.reach settled files w).Within (b.reach settled files v) :=
  Horizon.among_within fun _ => Or.imp_right below.trans

/-- A file whose turn it is: it has not passed, and all below it has. -/
structure Due (b : Batch) (files passed : List VersionId) (v : VersionId) : Prop where
  member : v ∈ files
  known : ∀ w ∈ passed, w ∈ files
  new : v ∉ passed
  below : ∀ {w}, b.Below files v w → w = v ∨ w ∈ passed

theorem due_of_sorted (sorted : Graph.Sorted b.dependencies files order)
    {before after : List VersionId} {v : VersionId} (split : order = before ++ v :: after) :
    b.Due files before v := by
  refine ⟨?_, ?_, ?_, fun below => ?_⟩
  · exact sorted.known v (split ▸ List.mem_append_right _ List.mem_cons_self)
  · exact fun w hw => sorted.known w (split ▸ List.mem_append_left _ hw)
  · have once := sorted.once
    rw [split, List.nodup_append'] at once
    exact fun early => once.2.2 early List.mem_cons_self
  · induction below with
    | refl => exact .inl rfl
    | @tail u d _ step ih =>
        rcases ih with rfl | early
        · exact .inr (sorted.behind before _ after split d step.1 step.2)
        · obtain ⟨first, rest, rfl⟩ := List.append_of_mem early
          have split' : order = first ++ u :: (rest ++ v :: after) := by
            rw [split, List.append_assoc]
            rfl
          exact .inr (List.mem_append_left _ (sorted.behind first u _ split' d step.1 step.2))

/-- A model on the way to another: the files that passed are what they become, and the others are
what they were. -/
structure Midway (b : Batch) (final : Model) (passed : List VersionId) (m : Model) : Prop where
  done : ∀ {w}, w ∈ passed → m.version? w = final.version? w
  ahead : ∀ {w}, w ∉ passed → m.version? w = b.model.version? w
  shape : Model.KeepsShape b.model m

theorem Midway.start (final : Model) : b.Midway final [] b.model :=
  ⟨fun h => absurd h List.not_mem_nil, fun _ => rfl, .refl _⟩

/-- The turn of a file that becomes what it is in the end. -/
theorem Midway.step {final m m' : Model} {passed : List VersionId} {v : VersionId}
    (h : b.Midway final passed m) (evolves : Model.Evolves v m m')
    (here : m'.version? v = final.version? v) : b.Midway final (passed ++ [v]) m' := by
  refine ⟨?_, ?_, h.shape.trans evolves.keepsShape⟩
  · intro w hw
    by_cases same : w = v
    · rw [same, here]
    · rw [List.mem_append, List.mem_singleton] at hw
      rw [evolves.others same]
      exact h.done (hw.resolve_right same)
  · intro w hw
    rw [List.mem_append, List.mem_singleton, not_or] at hw
    rw [evolves.others hw.2]
    exact h.ahead hw.1

section Turns
variable (afresh : b.Afresh settled files) {final m m' : Model} {passed passed' : List VersionId}
  {v : VersionId}
include afresh

/-- Two models on the way to one look the same from a file whose turn it is in both. -/
theorem Midway.like (h : b.Midway final passed m) (h' : b.Midway final passed' m')
    (due : b.Due files passed v) (due' : b.Due files passed' v)
    (linked : ∀ w ∈ passed, ∀ ver, final.version? w = some ver →
      ver.Linked (b.reach settled files w)) :
    Model.Like id (b.reach settled files v) m m' := by
  have same : ∀ {w}, (b.reach settled files v).files w → m'.version? w = m.version? w := by
    rintro w (outside | inside)
    · rw [h.ahead fun hw => afresh.apart w (due.known w hw) outside,
        h'.ahead fun hw => afresh.apart w (due'.known w hw) outside]
    · by_cases here : w = v
      · rw [here, h.ahead due.new, h'.ahead due'.new]
      · rw [h.done ((due.below inside).resolve_left here),
          h'.done ((due'.below inside).resolve_left here)]
  refine ⟨fun {w} reach => exists_movedTo ?_, fun {w ver} reach found => ?_, fun {_ k} _ => ?_⟩
  · rw [id, same reach, Version.rename_id, Option.map_id]
    rfl
  · rcases reach with outside | inside
    · rw [h.ahead fun hw => afresh.apart w (due.known w hw) outside] at found
      exact (afresh.closed outside found).mono (Horizon.among_within fun _ => .inl)
    · rcases due.below inside with rfl | early
      · obtain ⟨f, fresh, unlinked⟩ := afresh.loaded w due.member
        rw [h.ahead due.new, fresh] at found
        cases found
        exact Version.fresh_linked unlinked (.inr .refl)
      · rw [h.done early] at found
        exact (linked w early ver found).mono (reach_within inside)
  · rw [id, h'.shape.fileName, h.shape.fileName]

/-- What a file sees covers what it is resolved against. -/
theorem Afresh.covers (member : v ∈ files) :
    Resolution.Covers (b.reach settled files v) m v (b.dependencies v) domains where
  self := .inr .refl
  dependencies := by
    intro d hd
    rcases afresh.uses v member d hd with inside | outside
    · exact .inr (.single ⟨hd, inside⟩)
    · exact .inl outside
  classes reach _ := reach
  decorators reach _ _ := reach
  domains _ := trivial

end Turns

section Runs
variable {m : Model} {found : List (VersionId × List Diagnostic)}

/-- In a run over some files, each meets a model on the way to the last one. -/
theorem Resolved.midway (resolved : b.Resolved settings domains order m found)
    {before after : List VersionId} {v : VersionId} (split : order = before ++ v :: after) :
    ∃ ds m₁ m₂, m₁.resolve v (b.dependencies v) domains settings.allowCompositeKeys = .ok (ds, m₂) ∧
      b.Midway m before m₁ ∧ m₂.version? v = m.version? v ∧ (v, reported settings ds) ∈ found := by
  obtain ⟨ds, m₁, m₂, turn, listed⟩ := resolved.turns split
  refine ⟨ds, m₁, m₂, turn.done, ⟨turn.earlier, turn.later, fun w => ?_⟩, turn.kept, listed⟩
  by_cases hw : w ∈ before
  · rw [Model.file?_congr (turn.earlier hw), resolved.shape]
  · rw [Model.file?_congr (turn.later hw)]

/-- A run in another order, so far: its model is on the way to the same one, and what was found
is what is found of the files that passed. -/
structure Follows (b : Batch) (m : Model) (found : List (VersionId × List Diagnostic))
    (passed : List VersionId) (r : Model × List (VersionId × List Diagnostic)) : Prop where
  midway : b.Midway m passed r.1
  names : r.2.map Prod.fst = passed
  listed : ∀ p ∈ r.2, p ∈ found

/-- A run over the same files finds the same of each. -/
theorem Follows.lookup {r : Model × List (VersionId × List Diagnostic)}
    (h : b.Follows m found order' r) (names : found.map Prod.fst = order) (once : order.Nodup)
    (same : order'.Perm order) (v : VersionId) : r.2.lookup v = found.lookup v := by
  have listed : ∀ {v}, v ∈ order' → ∃ ds, (v, ds) ∈ r.2 := by
    intro v hv
    rw [← h.names] at hv
    obtain ⟨p, hp, rfl⟩ := List.mem_map.mp hv
    exact ⟨p.2, hp⟩
  by_cases hv : v ∈ order'
  · obtain ⟨ds, member⟩ := listed hv
    rw [lookup_of_mem (h.names ▸ same.nodup_iff.mpr once) member,
      lookup_of_mem (names ▸ once) (h.listed _ member)]
  · have absent : ∀ {ps : List (VersionId × List Diagnostic)}, v ∉ ps.map Prod.fst →
        ps.lookup v = none := by
      intro ps none
      rw [List.lookup_eq_none_iff]
      intro p hp
      refine bne_iff_ne.mpr fun here => none ?_
      exact List.mem_map.mpr ⟨p, hp, here.symm⟩
    rw [absent (h.names ▸ hv), absent (names ▸ fun inside => hv (same.mem_iff.mpr inside))]

variable (afresh : b.Afresh settled files) (sorted : Graph.Sorted b.dependencies files order)
include afresh sorted

/-- What a file becomes is linked with nothing but what is below it. -/
theorem Resolved.linked (resolved : b.Resolved settings domains order m found)
    {before after : List VersionId} (split : order = before ++ after) :
    ∀ v ∈ before, ∀ ver, m.version? v = some ver → ver.Linked (b.reach settled files v) := by
  induction before using List.reverseRecOn generalizing after with
  | nil => exact fun v hv => absurd hv List.not_mem_nil
  | append_singleton before v ih =>
      rw [List.append_assoc] at split
      have earlier := ih split
      intro w hw ver known
      rcases List.mem_append.mp hw with early | here
      · exact earlier w early ver known
      · cases List.mem_singleton.mp here
        obtain ⟨ds, m₁, m₂, done, midway, kept, -⟩ := resolved.midway split
        have due := due_of_sorted sorted split
        have like := midway.like afresh midway due due earlier
        obtain ⟨n, done', like'⟩ := Model.resolve_same like (afresh.covers due.member) done
        rw [done] at done'
        cases done'
        exact like'.linked (.inr .refl) (kept.trans known)

/-- The turn of a file in another order does what its turn did in the first. -/
theorem Follows.step (resolved : b.Resolved settings domains order m found)
    {passed : List VersionId} {v : VersionId} {m' : Model}
    {found' : List (VersionId × List Diagnostic)} (h : b.Follows m found passed (m', found'))
    (due' : b.Due files passed v) (listed : v ∈ order) :
    ∃ ds n, m'.resolve v (b.dependencies v) domains settings.allowCompositeKeys = .ok (ds, n) ∧
      b.Follows m found (passed ++ [v]) (n, found' ++ [(v, reported settings ds)]) := by
  obtain ⟨before, after, split⟩ := List.append_of_mem listed
  obtain ⟨ds, m₁, m₂, done, midway, kept, inFound⟩ := resolved.midway split
  have due := due_of_sorted sorted split
  have like := midway.like afresh h.midway due due' (resolved.linked afresh sorted split)
  obtain ⟨n, done', like'⟩ := Model.resolve_same like (afresh.covers due.member) done
  obtain ⟨f, loaded, -⟩ := afresh.loaded v due.member
  have fresh := (midway.ahead due.new).trans loaded
  have fresh' := (h.midway.ahead due'.new).trans loaded
  have evolves := Model.resolve_evolves fresh done
  have evolves' := Model.resolve_evolves fresh' done'
  have place : (n.file? v).map (·.path) = (m₂.file? v).map (·.path) := by
    rw [Model.reading_of_bare (fun _ => rfl) evolves'.bare,
      Model.reading_of_bare (fun _ => rfl) evolves.bare, Model.file?, Model.file?, fresh, fresh']
  have here : n.version? v = m₂.version? v := by
    refine (like'.exact (.inr .refl) place).trans ?_
    rw [Version.rename_id, Option.map_id]
    rfl
  refine ⟨ds, n, done', h.midway.step evolves' (here.trans kept), ?_, ?_⟩
  · rw [List.map_append, h.names]
    rfl
  · intro p hp
    rcases List.mem_append.mp hp with old | last
    · exact h.listed p old
    · exact List.mem_singleton.mp last ▸ inFound

/-- A run in one order can be followed in any other. -/
theorem resolveEach_follows (sorted' : Graph.Sorted b.dependencies files order')
    (same : order'.Perm order) (done : b.resolveEach settings domains order = .ok (m, found)) :
    ∃ found', b.resolveEach settings domains order' = .ok (m, found') ∧
      ∀ v, found'.lookup v = found.lookup v := by
  have fresh : ∀ v ∈ order, ∃ f, b.model.version? v = some (.fresh v f) := by
    intro v hv
    obtain ⟨f, loaded, -⟩ := afresh.loaded v (sorted.known v hv)
    exact ⟨f, loaded⟩
  have resolved := resolveEach_resolved sorted.once fresh done
  have run : ∃ r, b.resolveEach settings domains order' = .ok r ∧ b.Follows m found order' r := by
    refine foldlM_total (I := b.Follows m found)
      ⟨.start m, rfl, fun p hp => absurd hp List.not_mem_nil⟩ ?_
    rintro passed v after ⟨m', found'⟩ split' follows
    have listed : v ∈ order :=
      same.subset (split' ▸ List.mem_append_right passed List.mem_cons_self)
    obtain ⟨ds, n, done', follows'⟩ :=
      follows.step afresh sorted resolved (due_of_sorted sorted' split') listed
    refine ⟨_, ?_, follows'⟩
    dsimp only
    rw [done']
    rfl
  obtain ⟨⟨n, found'⟩, done', follows⟩ := run
  have final : n = m := by
    refine Model.ext fun w => ?_
    by_cases hw : w ∈ order'
    · exact follows.midway.done hw
    · rw [follows.midway.ahead hw, resolved.others fun inside => hw (same.mem_iff.mpr inside)]
  exact ⟨found', final ▸ done', follows.lookup resolved.names sorted.once same⟩

end Runs

/-- Two runs that end alike: with the same model and the same diagnostics of each file, or stuck in
the same way. -/
inductive EndAlike : Except Resolution.Stuck (Model × List (VersionId × List Diagnostic)) →
    Except Resolution.Stuck (Model × List (VersionId × List Diagnostic)) → Prop
  | done {m : Model} {found found' : List (VersionId × List Diagnostic)}
    (same : ∀ v, found'.lookup v = found.lookup v) : EndAlike (.ok (m, found)) (.ok (m, found'))
  | stuck (e : Resolution.Stuck) : EndAlike (.error e) (.error e)

/-- The order of files does not matter as long as each comes after those it uses: resolving them
in one order or in another ends with the same model and the same diagnostics of each file. -/
theorem resolveEach_any_order (afresh : b.Afresh settled order)
    (sorted : Graph.Sorted b.dependencies order order)
    (sorted' : Graph.Sorted b.dependencies order order') (same : order'.Perm order) :
    EndAlike (b.resolveEach settings domains order) (b.resolveEach settings domains order') := by
  cases run : b.resolveEach settings domains order with
  | ok r =>
      obtain ⟨found', done', agree⟩ := resolveEach_follows afresh sorted sorted' same run
      rw [done']
      exact .done agree
  | error e =>
      cases run' : b.resolveEach settings domains order' with
      | ok r' =>
          obtain ⟨found, done, -⟩ := resolveEach_follows afresh sorted' sorted same.symm run'
          rw [run] at done
          cases done
      | error e' =>
          cases e
          cases e'
          exact .stuck _

namespace Diamond

/-- A file with one class, which may extend another. -/
def declaring (name : String) (uses : List String) (parent : Option String) : ModelFile :=
  ⟨name, s!"/m/\x7bname\x7d.tmd", "M", "", [], uses.map (⟨·, 2, 8⟩), [], [],
    [⟨name, "c", none, none, none, .none, false, none, none, parent.map (⟨·, 4, 22⟩), none, [], [],
      [], some ⟨"a", "M"⟩, some ⟨"class", 4, 1⟩⟩], [], []⟩

theorem declaring_unlinked (name : String) (uses : List String) (parent : Option String) :
    (declaring name uses parent).Unlinked := by
  refine ⟨fun _ h => absurd h List.not_mem_nil, fun c hc => ?_, fun _ h => absurd h List.not_mem_nil⟩
  cases List.mem_singleton.mp hc
  exact ⟨.none, .nil, fun _ h => absurd h List.not_mem_nil⟩

/-- A file that is resolved, two that use it, and one that uses both of them. -/
def batch : Batch where
  model := ⟨#[.fresh 0 (declaring "Z" [] none), .fresh 1 (declaring "A" ["Z"] (some "Z")),
    .fresh 2 (declaring "B" ["Z"] (some "Z")), .fresh 3 (declaring "C" ["A", "B"] (some "A"))]⟩
  view := [("Z", 0), ("A", 1), ("B", 2), ("C", 3)]
  members := [1, 2, 3]

theorem afresh : batch.Afresh (· = 0) [1, 2, 3] where
  loaded := by
    have loaded : ∀ v ∈ [1, 2, 3], v = 1 ∨ v = 2 ∨ v = 3 := by decide
    intro v hv
    rcases loaded v hv with rfl | rfl | rfl
    all_goals exact ⟨_, rfl, declaring_unlinked _ _ _⟩
  uses := by decide
  apart := by decide
  closed := by
    rintro _ _ rfl ⟨⟩
    exact Version.fresh_linked (declaring_unlinked _ _ _) rfl

theorem sorted : Graph.Sorted batch.dependencies [1, 2, 3] [1, 2, 3] :=
  (((Graph.Sorted.nil _ _).snoc (x := 1) (by decide) (by decide) (by decide)).snoc (x := 2)
    (by decide) (by decide) (by decide)).snoc (x := 3) (by decide) (by decide) (by decide)

theorem sorted_swapped : Graph.Sorted batch.dependencies [1, 2, 3] [2, 1, 3] :=
  (((Graph.Sorted.nil _ _).snoc (x := 2) (by decide) (by decide) (by decide)).snoc (x := 1)
    (by decide) (by decide) (by decide)).snoc (x := 3) (by decide) (by decide) (by decide)

end Diamond

theorem resolveEach_any_order_diamond : Diamond.batch.Afresh (· = 0) [1, 2, 3] ∧
    Graph.Sorted Diamond.batch.dependencies [1, 2, 3] [1, 2, 3] ∧
    Graph.Sorted Diamond.batch.dependencies [1, 2, 3] [2, 1, 3] ∧
    EndAlike (Diamond.batch.resolveEach Relinking.settings [] [1, 2, 3])
      (Diamond.batch.resolveEach Relinking.settings [] [2, 1, 3]) :=
  ⟨Diamond.afresh, Diamond.sorted, Diamond.sorted_swapped,
    resolveEach_any_order Diamond.afresh Diamond.sorted Diamond.sorted_swapped (.swap 1 2 [3])⟩

end DataModel.Batch
