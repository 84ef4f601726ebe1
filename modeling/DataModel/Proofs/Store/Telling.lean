import DataModel.Proofs.Resolution.Naming
import DataModel.Proofs.Store.Arrival
import DataModel.Proofs.Store.Atomic
import DataModel.Store.View

/-!
What watchers are told of a batch: each of them once what was found in its files and, if it is
committed, once which files it brought, those they use before them.
-/
namespace DataModel
open Resolution

namespace Batch
variable {b : Batch} {settings : Settings}

/-- No class leads back to itself through its keys when a file of the batch has its turn. -/
def Acyclic (b : Batch) (settings : Settings) : Prop :=
  ∀ before v after m found,
    Graph.sort b.dependencies b.members = .ok (before ++ v :: after) →
    b.resolveEach settings (b.model.domainTable b.view.values) before = .ok (m, found) →
    (Scope.of m v (b.dependencies v) (b.model.domainTable b.view.values)).Acyclic m

/-- One more file has its turn. -/
theorem resolveEach_snoc {domains : Table Key} {before : List VersionId} {v : VersionId}
    {m n : Model} {found : List (VersionId × List Diagnostic)} {ds : List Diagnostic}
    (sofar : b.resolveEach settings domains before = .ok (m, found))
    (turn : m.resolve v (b.dependencies v) domains settings.allowCompositeKeys = .ok (ds, n)) :
    b.resolveEach settings domains (before ++ [v]) = .ok (n, found ++ [(v, reported settings ds)]) := by
  have before' := sofar
  unfold resolveEach at before' ⊢
  rw [List.foldlM_append, before']
  simp only [List.foldlM_cons, List.foldlM_nil, Bind.bind, Except.bind, turn]
  rfl

/-- A batch in which no class leads back to itself is resolved to its end. -/
theorem resolve_ok (acyclic : b.Acyclic settings)
    (fresh : ∀ v ∈ b.members, ∃ f, b.model.version? v = some (.fresh v f) ∧ f.Declared) :
    ∃ r, b.resolve settings = .ok r := by
  let domains := b.model.domainTable b.view.values
  unfold resolve Graph.sortVersions
  cases sorting : Graph.sort b.dependencies b.members with
  | error circle => exact ⟨_, rfl⟩
  | ok ordered =>
      have order := Graph.sort_sorted sorting
      -- Whoever has had no turn yet is as it was loaded, so its turn comes to an end.
      have each : ∀ before after, ordered = before ++ after → ∃ m found,
          b.resolveEach settings domains before = .ok (m, found) ∧
            ∀ w, w ∉ before → m.version? w = b.model.version? w := by
        intro before
        induction before using List.reverseRecOn with
        | nil => exact fun _ _ => ⟨b.model, [], rfl, fun _ _ => rfl⟩
        | append_singleton before v ih =>
            intro after split
            rw [List.append_assoc] at split
            obtain ⟨m, found, sofar, others⟩ := ih _ split
            have new : v ∉ before := by
              have once := order.once
              rw [split, List.nodup_append'] at once
              exact fun member => once.2.2 member List.mem_cons_self
            have known : v ∈ ordered := split ▸ List.mem_append_right _ List.mem_cons_self
            obtain ⟨f, there, declared⟩ := fresh v (order.known v known)
            rw [← others v new] at there
            obtain ⟨ds, n, turn, -⟩ := @Model.resolve_of_acyclic m v f _ _
              settings.allowCompositeKeys there declared
              (acyclic before v after m found (split ▸ sorting) sofar)
            have evolves := Model.resolve_evolves there turn
            refine ⟨n, _, resolveEach_snoc sofar turn, fun w outside => ?_⟩
            rw [List.mem_append, List.mem_singleton, not_or] at outside
            exact (evolves.others outside.2).trans (others w outside.1)
      obtain ⟨m, found, run, -⟩ := each ordered [] (List.append_nil _).symm
      dsimp only [Except.mapError]
      rw [show b.resolveEach settings (b.model.domainTable b.view.values) ordered = _ from run]
      exact ⟨_, rfl⟩

/-- In a batch without classes none leads back to itself. -/
theorem acyclic_of_classless
    (fresh : ∀ v ∈ b.members, ∃ f, b.model.version? v = some (.fresh v f))
    (classless : b.model.classKeys = []) : b.Acyclic settings := by
  intro before v after m found sorting sofar
  have order := Graph.sort_sorted sorting
  have inside : ∀ w ∈ before, w ∈ b.members :=
    fun w earlier => order.known w (List.mem_append_left _ earlier)
  have resolved := resolveEach_resolved (List.nodup_append'.mp order.once).1
    (fun w earlier => fresh w (inside w earlier)) sofar
  refine Scope.Acyclic.of_rank (fun _ => 0) fun k t step => ?_
  obtain ⟨c, key, known, -⟩ := step
  have named := resolved.shape.className k
  rw [known] at named
  have listed := Model.mem_classKeys (k := k) (m := b.model) <| by
    rw [← Option.isSome_map, ← named]
    rfl
  rw [classless] at listed
  cases listed

theorem Ends.names {r : BatchResult} (h : b.Ends settings r) :
    r.found.map Prod.fst = b.members := by
  cases h with
  | circle _ _ _ _ names _ => exact names
  | sorted _ _ reports =>
      rw [reports, List.map_map]
      exact List.map_id' _

end Batch

namespace Store
variable {s : Store} {t : FileTree} {b : Batch} {r : BatchResult}

section Preparing

/-- Every file that the next batch loads again has its name still. -/
def FindsNames (s : Store) (t : FileTree) : Prop :=
  ∀ name ∈ s.batchNames, name ∉ s.pending → ∀ v file, s.committed.get? name = some v →
    s.model.file? v = some file → s.fileName t (.ofString file.path) = .ok name

theorem FindsNames.keeps (h : s.FindsNames t) : s.KeepsNames t := by
  intro name inside free v file known found name' named
  rw [h name inside free v file known found] at named
  exact (Except.ok.inj named).symm

/-- A file that has its name still is loaded again. -/
theorem renew_ok (sound : s.Sound) (finds : s.FindsNames t) {done : List String} {m : Model}
    {view : Table VersionId} (holds : s.Renews t done m view) {name : String}
    (inside : name ∈ s.batchNames) (new : name ∉ done) :
    ∃ r, s.renew t (m, view) name = .ok r := by
  by_cases staged : name ∈ s.pending
  · exact ⟨_, renew_pending staged⟩
  · obtain ⟨v, viewed⟩ := Table.exists_get? (mem_view_of_batchNames inside)
    have known : s.committed.get? name = some v := by
      rw [← get?_view_unstaged sound.stagedOnce staged]
      exact viewed
    obtain ⟨there, -⟩ := sound.committed known
    obtain ⟨ver, found⟩ := Model.has_iff.mp there
    have file : s.model.file? v = some ver.file := by rw [Model.file?, found]; rfl
    obtain ⟨f₀, loaded, bare⟩ := sound.loaded file
    have text : Grammar.loadText s.settings.app ⟨name, ver.file.path, ver.file.source⟩ =
        .ok (some (Grammar.relabel name ver.file.path f₀)) :=
      Grammar.loadText_again loaded (congrArg ModelFile.source bare).symm
    exact ⟨_, renew_committed staged ((holds.kept new).trans viewed)
      ((Model.file?_congr (holds.old there)).trans file)
      (finds name inside staged v ver.file known file) text⟩

/-- Where the names of the files are found, there is a next batch. -/
theorem nextBatch_ok (sound : s.Sound) (finds : s.FindsNames t) : ∃ b, s.nextBatch t = .ok b := by
  have distinct := nodup_batchNames sound.committedOnce
  obtain ⟨r, run, -⟩ : ∃ r, s.batchNames.foldlM (s.renew t) (s.model, s.view) = .ok r ∧
      s.Renews t s.batchNames r.1 r.2 := by
    refine foldlM_total (I := fun done (r : Model × Table VersionId) => s.Renews t done r.1 r.2)
      (.start s t) ?_
    intro before name after r split holds
    rw [split, List.nodup_append'] at distinct
    have new : name ∉ before := fun member => distinct.2.2 member List.mem_cons_self
    have inside : name ∈ s.batchNames := split ▸ List.mem_append_right _ List.mem_cons_self
    obtain ⟨r', step⟩ := renew_ok sound finds holds inside new
    exact ⟨r', step, holds.step sound new step⟩
  rw [nextBatch_eq, run]
  exact ⟨_, rfl⟩

end Preparing

section Telling

theorem tell_each {stage : Stage} (event : String → StoreEvent) {watchers : List Watcher}
    (quiet : ∀ w ∈ watchers, w.failing = none) :
    tell stage event watchers = (watchers.map (event ·.fullName), none) := by
  induction watchers with
  | nil => rfl
  | cons w rest ih =>
      obtain ⟨here, others⟩ := List.forall_mem_cons.mp quiet
      rw [tell, here, if_neg (Option.some_ne_none stage).symm, ih others]
      rfl

theorem reportEvents_logs (m : Model) (found : List Diagnostic) :
    ∀ e ∈ reportEvents m found, ∃ record, e = .log record := by
  refine List.forall_mem_append.mpr ⟨List.forall_mem_append.mpr ⟨?_, ?_⟩, ?_⟩
  · exact List.forall_mem_map.mpr fun d _ => ⟨_, rfl⟩
  · exact List.forall_mem_map.mpr fun d _ => ⟨_, rfl⟩
  · split
    · exact fun _ none => absurd none List.not_mem_nil
    · exact List.forall_mem_singleton.mpr ⟨_, rfl⟩

/-- What the watchers are told of a batch that was resolved. -/
theorem applyUpdates_tells (some' : s.staged ≠ []) (quiet : ∀ w ∈ s.watchers, w.failing = none)
    (next : s.nextBatch t = .ok b) (resolved : b.resolve s.settings = .ok r) :
    ∃ logs, (∀ e ∈ logs, ∃ record, e = .log record) ∧
      ((¬ Clean (r.found.flatMap (·.2)) ∧ s.applyUpdates t =
        ⟨.ok false, { s with model := r.model, staged := s.removals },
          s.watchers.map (.diagnosed ·.fullName r.found) ++ logs⟩) ∨
      (Clean (r.found.flatMap (·.2)) ∧ s.applyUpdates t =
        ⟨.ok true, { s with model := r.model, committed := s.commit b, staged := [] },
          s.watchers.map (.diagnosed ·.fullName r.found) ++ logs ++
            s.watchers.map (.changed ·.fullName r.ordered)⟩)) := by
  have staged : s.staged.isEmpty = false := List.isEmpty_eq_false_iff.mpr some'
  rw [applyUpdates, staged, applyBatch, next]
  dsimp only
  rw [resolved]
  simp only [tell_each _ quiet]
  cases wrong : (r.found.flatMap (·.2)).any (·.isError) with
  | true =>
      refine ⟨reportEvents r.model (r.found.flatMap (·.2)), reportEvents_logs _ _, .inl ⟨?_, rfl⟩⟩
      intro clean
      rw [clean_iff.mpr clean] at wrong
      cases wrong
  | false =>
      refine ⟨reportEvents r.model (r.found.flatMap (·.2)) ++
        [logEvent .info s!"Model updated: {r.ordered.length} file(s) resolved"], ?_,
        .inr ⟨clean_iff.mp wrong, ?_⟩⟩
      · exact List.forall_mem_append.mpr
          ⟨reportEvents_logs _ _, List.forall_mem_singleton.mpr ⟨_, rfl⟩⟩
      · rw [← List.append_assoc]
        rfl

end Telling

section Bringing

/-- The files of a batch are those that are not committed yet as they are after it. -/
theorem Prepared.mem_members_iff (h : s.Prepared t b) (sound : s.Sound) {v : VersionId} :
    v ∈ b.members ↔ ∃ name, b.view.get? name = some v ∧ s.file? name ≠ some v := by
  rw [h.mem_members]
  constructor
  · rintro ⟨name, inside, found⟩
    refine ⟨name, found, fun known => ?_⟩
    obtain ⟨there, free⟩ := sound.committed known
    exact (h.waits_of_member (h.mem_members.mpr ⟨name, inside, found⟩)).elim free
      fun new => new there
  · rintro ⟨name, found, other⟩
    refine ⟨name, ?_, found⟩
    by_contra outside
    have viewed := (h.kept outside).symm.trans found
    obtain ⟨free, -⟩ := outside_batch viewed outside
    rw [get?_view_unstaged sound.stagedOnce free] at viewed
    exact other viewed

/-- The files that a committed batch brought, as the watchers are told them: the committed files
that were not so before, which are those of the batch, those that they use before them. -/
structure Brings (s s' : Store) (members ordered : List VersionId) : Prop where
  once : ordered.Nodup
  members : ∀ v, v ∈ ordered ↔ v ∈ members
  replaced : ∀ v, v ∈ ordered ↔ ∃ name, s'.file? name = some v ∧ s.file? name ≠ some v
  behind : ∀ before v after, ordered = before ++ v :: after →
    ∀ d ∈ s'.dependencies v, d ∈ ordered → d ∈ before

theorem Prepared.brings (h : s.Prepared t b) (sound : s.Sound) (keeps : s.KeepsNames t)
    (resolved : b.resolve s.settings = .ok r) {ordered : List VersionId}
    (sorting : Graph.sort b.dependencies b.members = .ok ordered) {s' : Store}
    (model : s'.model = r.model) (committed : s'.committed = s.commit b) :
    s.Brings s' b.members ordered := by
  have order := Graph.sort_sorted sorting
  rw [h.commit_eq sound keeps] at committed
  refine ⟨order.once, fun v => Graph.mem_sort sorting, fun v => ?_, ?_⟩
  · rw [Graph.mem_sort sorting, h.mem_members_iff sound, ← committed]
    rfl
  · intro before v after split d used inside
    refine order.behind before v after split d ?_ (order.known d inside)
    have shape := (h.resolved sound resolved).2.1
    rw [dependencies, model, shape.uses, committed] at used
    exact used

end Bringing

/-- After any history, let no watcher fail, let the committed files have their names still, and let
no class lead back to itself. Then every watcher is told once what was found in each file of the next
batch. If the batch is committed, and only then, every watcher is told once which files it brought. -/
theorem watchers_told (settings : Settings) (history : List Moment) (a : Moment) :
    let s := (a.load (after settings history)).store
    let o := s.applyUpdates a.tree
    s.staged ≠ [] → (∀ w ∈ s.watchers, w.failing = none) → s.FindsNames a.tree →
    (∀ b, s.nextBatch a.tree = .ok b → b.Acyclic s.settings) →
    ∃ b found logs, s.nextBatch a.tree = .ok b ∧ b.members.Nodup ∧
      found.map Prod.fst = b.members ∧ (∀ e ∈ logs, ∃ record, e = .log record) ∧
      ((o.result = .ok false ∧ o.store.committed = s.committed ∧
        o.events = s.watchers.map (.diagnosed ·.fullName found) ++ logs) ∨
      (o.result = .ok true ∧ ∃ ordered, s.Brings o.store (found.map Prod.fst) ordered ∧
        o.events = s.watchers.map (.diagnosed ·.fullName found) ++ logs ++
          s.watchers.map (.changed ·.fullName ordered))) := by
  intro s o some' quiet finds acyclic
  have sound : s.Sound := (Moment.load_extends (after_sound settings history).1 a).1
  obtain ⟨b, next⟩ := nextBatch_ok sound finds
  have prepared := nextBatch_prepared sound next
  have once := prepared.nodup_members sound
  obtain ⟨r, resolved⟩ := Batch.resolve_ok (acyclic b next) fun v member => by
    obtain ⟨f, fresh, loaded⟩ := prepared.fresh member
    exact ⟨f, fresh, loaded.declared⟩
  have ends := Batch.resolve_ends once resolved
  obtain ⟨logs, logging, told⟩ := applyUpdates_tells some' quiet next resolved
  refine ⟨b, r.found, logs, next, once, ends.names, logging, ?_⟩
  rw [ends.names]
  obtain ⟨-, outcome⟩ | ⟨clean, outcome⟩ := told
  · rw [show o = _ from outcome]
    exact .inl ⟨rfl, rfl, rfl⟩
  · rw [show o = _ from outcome]
    cases ends with
    | circle _ error _ _ _ only =>
        rw [only] at clean
        rw [clean _ List.mem_cons_self] at error
        cases error
    | sorted sorting _ _ =>
        exact .inr ⟨rfl, r.ordered, prepared.brings sound finds.keeps resolved sorting rfl rfl, rfl⟩

end Store

/-- Somebody who watches and does not fail. -/
def Watcher.listener : Watcher := ⟨"w", 1, none⟩

namespace Releasing
open Relinking (settings path unlinked)
open Retrying (plain plainFile userFile load_plain name_user name_used exists_missing renew_user)
open Arriving (anew scratch run_anew fit_old)

/-- A file that uses another. -/
def chained : String := "module: M\nuses: [C]\n"

def chainedFile : ModelFile :=
  ⟨"B", (path "B.tmd").toString, "M", chained, [], [⟨"C", 2, 8⟩], [], [], [], [], []⟩

/-- A file uses another, which uses a third one, and the removal of that one is rejected. -/
def begun : List Moment :=
  [anew, ⟨.change (path "C.tmd") (some plain), unlinked, []⟩,
    ⟨.change (path "B.tmd") (some chained), unlinked, []⟩,
    ⟨.change (path "C.tmd") none, unlinked, []⟩]

/-- The second file does not use the third one any more, and somebody watches. -/
def released : Moment := ⟨.change (path "B.tmd") (some plain), unlinked, [.listener]⟩

/-- The files as they are loaded one after the other. -/
def files : List ModelFile :=
  [userFile, plainFile "B" "B.tmd", plainFile "C" "C.tmd", chainedFile, userFile, userFile,
    chainedFile, plainFile "B" "B.tmd", userFile]

/-- So many of them, as versions. -/
def loaded (n : Nat) : Model := ⟨((files.take n).map (.fresh 0)).toArray⟩

/-- What there is to say of a file that uses another one for nothing. -/
def idle (v : VersionId) (used : String) : Diagnostic :=
  Finding.unusedUse.diagnostic v (.file v) (some ⟨used, 2, 8⟩)

def first : Store := ⟨settings, [], loaded 3, [("A", 0), ("B", 1), ("C", 2)], [], []⟩

def second : Store := ⟨settings, [], loaded 5, [("A", 4), ("B", 3), ("C", 2)], [], []⟩

/-- The removal waits after a batch that was rejected. -/
def waiting : Store :=
  ⟨settings, [], loaded 7, [("A", 4), ("B", 3), ("C", 2)], [("C", none)], []⟩

/-- The removal and the second file wait. -/
def pending : Store :=
  ⟨settings, [.listener], loaded 8, [("A", 4), ("B", 3), ("C", 2)],
    [("C", none), ("B", some 7)], []⟩

/-- The batch of the second file, with which the first one is loaded again. -/
def batch : Batch := ⟨loaded 9, [("A", 8), ("B", 7)], [8, 7]⟩

section Loading
variable {s : Store} {m : Model} {view : Table VersionId} {v : VersionId}

set_option maxRecDepth 2000 in
theorem load_chained : Grammar.loadText settings.app ⟨"B", (path "B.tmd").toString, chained⟩ =
    .ok (some chainedFile) := by
  cbv

theorem name_third : settings.fileName unlinked ⟨"/", []⟩ (path "C.tmd") = .ok "C" :=
  fit_old.named rfl (.inl rfl) rfl

theorem renew_chained (settled : s.settings = settings) (free : "B" ∉ s.pending)
    (found : view.get? "B" = some v) (known : m.file? v = some chainedFile) :
    s.renew unlinked (m, view) "B" =
      .ok ((m.add chainedFile).1, view.put "B" (m.add chainedFile).2) :=
  Store.renew_again settled free found known name_used load_chained

end Loading

section Runs

theorem run_first :
    (Moment.run ⟨.change (path "C.tmd") (some plain), unlinked, []⟩ scratch).store = first := by
  have next : (Moment.staging scratch "C" (path "C.tmd") (plainFile "C" "C.tmd")).nextBatch
      unlinked = .ok ⟨loaded 3, [("A", 0), ("B", 1), ("C", 2)], [2]⟩ := rfl
  have done : Batch.resolve ⟨loaded 3, [("A", 0), ("B", 1), ("C", 2)], [2]⟩ settings =
      .ok ⟨loaded 3, [(2, [])], [2]⟩ := rfl
  rw [Moment.run_change (s := scratch) name_third (load_plain "C" "C.tmd") next done
    (by simp [Resolution.Clean])]
  rfl

theorem run_second :
    (Moment.run ⟨.change (path "B.tmd") (some chained), unlinked, []⟩ first).store = second := by
  let s := Moment.staging first "B" (path "B.tmd") chainedFile
  have next : s.nextBatch unlinked =
      .ok ⟨loaded 5, [("A", 4), ("B", 3), ("C", 2)], [4, 3]⟩ := by
    have names : s.batchNames = ["A", "B"] := by decide +kernel
    rw [Store.nextBatch_eq, names]
    simp only [List.foldlM_cons, List.foldlM_nil, Bind.bind, Except.bind]
    rw [renew_user (v := 0) rfl (by decide) rfl rfl]
    dsimp only
    rw [Store.renew_pending (by decide)]
    rfl
  have done : Batch.resolve ⟨loaded 5, [("A", 4), ("B", 3), ("C", 2)], [4, 3]⟩ settings =
      .ok ⟨loaded 5, [(4, [idle 4 "B"]), (3, [idle 3 "C"])], [3, 4]⟩ := by
    with_unfolding_all rfl
  rw [Moment.run_change (s := first) name_used load_chained next done
    (by simp [Resolution.Clean, idle, Finding.diagnostic, Finding.isError])]
  rfl

theorem run_waiting :
    (Moment.run ⟨.change (path "C.tmd") none, unlinked, []⟩ second).store = waiting := by
  have attempt := Store.attempt_missing (s := second) name_third (exists_missing fit_old rfl rfl)
  have loaded' := Moment.load_loaded second (path "C.tmd") none unlinked []
  obtain ⟨ok, store⟩ := (attempt ▸ loaded').of_missing
  let s : Store := { second with staged := [("C", none)] }
  have next : s.nextBatch unlinked = .ok ⟨loaded 7, [("A", 5), ("B", 6)], [5, 6]⟩ := by
    have names : s.batchNames = ["A", "B"] := by decide +kernel
    rw [Store.nextBatch_eq, names]
    simp only [List.foldlM_cons, List.foldlM_nil, Bind.bind, Except.bind]
    rw [renew_user (v := 4) rfl (by decide) rfl rfl]
    dsimp only
    rw [renew_chained (v := 3) rfl (by decide) rfl rfl]
    rfl
  have done : Batch.resolve ⟨loaded 7, [("A", 5), ("B", 6)], [5, 6]⟩ settings =
      .ok ⟨loaded 7, [(5, [idle 5 "B"]),
        (6, [Finding.missingFile.diagnostic 6 (.file 6) (some ⟨"C", 2, 8⟩)])], [6, 5]⟩ := by
    with_unfolding_all rfl
  rw [Moment.run_store ok, store]
  exact Store.applyUpdates_refuses (s := s) (List.cons_ne_nil _ _) rfl next done
    (by simp [Finding.diagnostic, Finding.isError])

theorem after_begun : Store.after settings begun = waiting := by
  have steps : begun = [] ++ [anew] ++
      [⟨.change (path "C.tmd") (some plain), unlinked, []⟩] ++
      [⟨.change (path "B.tmd") (some chained), unlinked, []⟩] ++
      [⟨.change (path "C.tmd") none, unlinked, []⟩] := rfl
  have start : Store.after settings [] = .new settings [] := rfl
  rw [steps, Store.after_snoc, Store.after_snoc, Store.after_snoc, Store.after_snoc, start, run_anew,
    run_first, run_second, run_waiting]

theorem load_released : (released.load (Store.after settings begun)).store = pending := by
  rw [after_begun, released, Moment.load_watched (s := waiting) [.listener] name_used
    (load_plain "B" "B.tmd")]
  rfl

theorem batchNames_pending : pending.batchNames = ["A", "B"] := by decide +kernel

theorem nextBatch_pending : pending.nextBatch unlinked = .ok batch := by
  rw [Store.nextBatch_eq, batchNames_pending]
  simp only [List.foldlM_cons, List.foldlM_nil, Bind.bind, Except.bind]
  rw [renew_user (v := 4) rfl (by decide) rfl rfl]
  dsimp only
  rw [Store.renew_pending (by decide)]
  rfl

theorem resolve_batch : batch.resolve settings =
    .ok ⟨loaded 9, [(8, [idle 8 "B"]), (7, [])], [7, 8]⟩ := by
  with_unfolding_all rfl

theorem quiet_pending : ∀ w ∈ pending.watchers, w.failing = none :=
  List.forall_mem_singleton.mpr rfl

/-- What the batch does. -/
theorem applyUpdates_pending : ∃ logs, (∀ e ∈ logs, ∃ record, e = .log record) ∧
    pending.applyUpdates unlinked =
      ⟨.ok true, { pending with model := loaded 9, committed := pending.commit batch, staged := [] },
        [.diagnosed "w@1" [(8, [idle 8 "B"]), (7, [])]] ++ logs ++ [.changed "w@1" [7, 8]]⟩ := by
  obtain ⟨logs, logging, ⟨unclean, -⟩ | ⟨-, run⟩⟩ := Store.applyUpdates_tells (s := pending)
    (List.cons_ne_nil _ _) quiet_pending nextBatch_pending resolve_batch
  · exact absurd (by simp [Clean, idle, Finding.diagnostic, Finding.isError]) unclean
  · exact ⟨logs, logging, run⟩

theorem findsNames_pending : pending.FindsNames unlinked := by
  intro name inside free v file known found
  rw [batchNames_pending, List.mem_pair] at inside
  rcases inside with rfl | rfl
  · cases known
    cases found
    exact name_user
  · exact absurd (by decide) free

theorem acyclic_batch : batch.Acyclic settings := by
  refine Batch.acyclic_of_classless (fun v member => ?_) rfl
  rcases List.mem_pair.mp member with rfl | rfl
  · exact ⟨userFile, rfl⟩
  · exact ⟨plainFile "B" "B.tmd", rfl⟩

end Runs

end Releasing

open Releasing in
/-- The removal of a file that was rejected takes place when nobody uses it any more. Who watches is
told of the file that used it and of the one that uses that file, which is told last although it
is the first one of the registry; the removed file is not told. -/
theorem watchers_told_released :
    let s := (released.load (Store.after Relinking.settings begun)).store
    let o := s.applyUpdates released.tree
    (s.staged = [("C", none), ("B", some 7)] ∧ s.staged ≠ [] ∧
      (∀ w ∈ s.watchers, w.failing = none) ∧ s.FindsNames released.tree ∧
      ∀ b, s.nextBatch released.tree = .ok b → b.Acyclic s.settings) ∧
    s.committed = [("A", 4), ("B", 3), ("C", 2)] ∧ o.store.committed = [("A", 8), ("B", 7)] ∧
    o.result = .ok true ∧ s.Brings o.store [8, 7] [7, 8] ∧
    ∃ logs, (∀ e ∈ logs, ∃ record, e = .log record) ∧
      o.events = [.diagnosed "w@1" [(8, [idle 8 "B"]), (7, [])]] ++ logs ++
        [.changed "w@1" [7, 8]] := by
  have told := Store.watchers_told Relinking.settings begun released
  dsimp only at told ⊢
  simp only [load_released] at told ⊢
  rw [show released.tree = Relinking.unlinked from rfl] at told ⊢
  have staged : pending.staged ≠ [] := List.cons_ne_nil _ _
  have acyclic : ∀ b, pending.nextBatch Relinking.unlinked = .ok b → b.Acyclic pending.settings := by
    intro b next
    cases nextBatch_pending.symm.trans next
    exact acyclic_batch
  obtain ⟨b, found, _, next, -, names, -, outcome⟩ := told staged quiet_pending findsNames_pending acyclic
  cases nextBatch_pending.symm.trans next
  obtain ⟨logs, logging, run⟩ := applyUpdates_pending
  obtain ⟨refused, -⟩ | ⟨committed, ordered, brings, events⟩ := outcome
  · rw [run] at refused
    cases refused
  have last : ordered = [7, 8] := by
    rw [run] at events
    have same := (List.append_inj' events rfl).2
    cases same
    rfl
  rw [names, last] at brings
  refine ⟨⟨rfl, staged, quiet_pending, findsNames_pending, acyclic⟩, rfl, ?_, committed, brings,
    logs, logging, ?_⟩
  · rw [run]
    rfl
  · rw [run]

namespace Retrying
open Relinking (path linked pending declaration name_linked)

/-- A file comes under a link, which is back, while somebody watches. -/
def overtaking : Moment := ⟨.change (path "L.tmd") (some declaration), linked, [.listener]⟩

theorem load_overtaking : overtaking.load Relinking.second =
    ⟨.ok (), { pending "L.tmd" with watchers := [.listener] }, []⟩ :=
  Moment.load_watched (s := Relinking.second) [.listener] name_linked
    (Relinking.load_declaration "L.tmd")

end Retrying

open Retrying in
/-- When a link is back, who watches is told of a file that is not committed. -/
theorem told_of_overtaken :
    let s := (overtaking.load (Store.after Relinking.settings Relinking.begun)).store
    let o := s.applyUpdates overtaking.tree
    o.result = .ok true ∧ .changed "w@1" [2, 3] ∈ o.events ∧
      ∀ name, o.store.file? name ≠ some 2 := by
  dsimp only
  rw [Relinking.after_begun, load_overtaking, show overtaking.tree = Relinking.linked from rfl]
  let s : Store := { Relinking.pending "L.tmd" with watchers := [.listener] }
  have next : s.nextBatch Relinking.linked = .ok (Relinking.batch "L.tmd" "Z") :=
    Relinking.nextBatch_pending Relinking.name_linked
  have done : (Relinking.batch "L.tmd" "Z").resolve Relinking.settings =
      .ok ⟨Relinking.resolved "L.tmd" "Z", [(2, []), (3, [])], [2, 3]⟩ := by cbv
  obtain ⟨logs, -, ⟨unclean, -⟩ | ⟨-, outcome⟩⟩ := Store.applyUpdates_tells (s := s)
    (List.cons_ne_nil _ _) (List.forall_mem_singleton.mpr rfl) next done
  · exact absurd (by simp [Clean]) unclean
  · rw [show s.applyUpdates Relinking.linked = _ from outcome]
    refine ⟨rfl, List.mem_append_right _ (List.mem_singleton_self _), fun name known => ?_⟩
    have committed : s.commit (Relinking.batch "L.tmd" "Z") = [("Z", 3), ("L", 1)] := rfl
    have known' : Table.get? [("Z", 3), ("L", 1)] name = some 2 := committed ▸ known
    have member := Table.mem_values_of_mem (Table.mem_of_get? known')
    rw [show Table.values [("Z", 3), ("L", 1)] = [3, 1] from rfl] at member
    exact absurd member (by decide)

end DataModel
