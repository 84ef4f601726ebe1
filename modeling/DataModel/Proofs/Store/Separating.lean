import DataModel.Proofs.Store.Arrival
import DataModel.Proofs.Store.Refusing
import DataModel.Proofs.Store.Telling

/-!
Loading everything where some files cannot be loaded. Nothing but the notes on these tells the load
from one of a disk without the files that are refused.
-/
namespace DataModel
open DataModel.Text DataModel.Yaml

namespace Store
variable {settings : Settings} {s : Store} {t : FileTree}

section Matching
variable {α β : Type} {o o' : Outcome α} {events events' : List StoreEvent}

/-- The events of a load, and those of one that meets no refused files: each event is common to both,
or it reports such a file. -/
inductive Besides (settings : Settings) (t : FileTree) : List StoreEvent → List StoreEvent → Prop
  | nil : Besides settings t [] []
  | both (event : StoreEvent) {events events' : List StoreEvent}
    (more : Besides settings t events events') :
    Besides settings t (event :: events) (event :: events')
  | refused {p : Path} {r : Source.Rejection} {events events' : List StoreEvent}
    (failed : settings.loadError? t p = some (.rejected r))
    (more : Besides settings t events events') :
    Besides settings t
      (logEvent .error s!"Failed to load {p.toString}: {r.message}" :: events) events'

theorem Besides.refl (events : List StoreEvent) : Besides settings t events events := by
  induction events with
  | nil => exact .nil
  | cons event rest ih => exact .both event ih

theorem Besides.append {more more' : List StoreEvent} (h : Besides settings t events events')
    (later : Besides settings t more more') :
    Besides settings t (events ++ more) (events' ++ more') := by
  induction h with
  | nil => exact later
  | both event _ ih => exact .both event ih
  | refused failed _ ih => exact .refused failed ih

/-- What a load gives, and what one that meets no refused files gives. -/
structure Matches (settings : Settings) (t : FileTree) (o o' : Outcome α) : Prop where
  result : o'.result = o.result
  store : ∃ errors, o'.store = { o.store with loadErrors := errors }
  events : Besides settings t o.events o'.events

theorem Matches.refl (o : Outcome α) : Matches settings t o o :=
  ⟨rfl, ⟨o.store.loadErrors, rfl⟩, .refl o.events⟩

theorem Matches.andThen {next next' : α → Store → Outcome β} (h : Matches settings t o o')
    (each : ∀ a errors, o.result = .ok a →
      Matches settings t (next a o.store) (next' a { o.store with loadErrors := errors })) :
    Matches settings t (o.andThen next) (o'.andThen next') := by
  obtain ⟨result, store, events⟩ := o
  obtain ⟨result', store', events'⟩ := o'
  obtain ⟨same, ⟨errors, noted⟩, besides⟩ := h
  dsimp only at same noted besides
  subst same noted
  cases result' with
  | error i => exact ⟨rfl, ⟨errors, rfl⟩, besides⟩
  | ok a =>
      obtain ⟨result, store, more⟩ := each a errors rfl
      exact ⟨result, store, besides.append more⟩

/-- What was noted before bears on nothing but on what is noted. -/
theorem loadFile_matches (s : Store) (p : Path) (errors : Table LoadError) :
    Matches settings t (s.loadFile t p none)
      (({ s with loadErrors := errors } : Store).loadFile t p none) := by
  obtain ⟨o, note, -, notes⟩ := s.loadFile_notes t p
  have here := notes s.loadErrors
  rw [show ({ s with loadErrors := s.loadErrors } : Store) = s from rfl] at here
  rw [here, notes errors]
  exact ⟨rfl, ⟨note errors, rfl⟩, .refl _⟩

/-- Loading some files is like loading those of them that are not refused. -/
theorem loadEach_matches {paths : List Path} (same : s.settings = settings)
    (listed : ∀ p ∈ paths, settings.Lists t p) (strays : settings.KeepsStrays t)
    (errors : Table LoadError) :
    Matches settings t (s.loadEach t paths)
      (({ s with loadErrors := errors } : Store).loadEach (settings.cleared t)
        (paths.filter fun p => !settings.refuses t p)) := by
  subst same
  induction paths generalizing s errors with
  | nil => exact ⟨rfl, ⟨errors, rfl⟩, .nil⟩
  | cons p rest ih =>
      obtain ⟨first, others⟩ := List.forall_mem_cons.mp listed
      cases refused : s.settings.refuses t p with
      | true =>
          obtain ⟨r, failed⟩ := Settings.refuses_iff.mp refused
          have step := ih (s := s.noteError p (.rejected r)) errors others strays
          rw [List.filter_cons, refused, loadEach, loadFile_fails first failed]
          exact ⟨step.result, step.store, .refused failed step.events⟩
      | false =>
          have loaded : Matches s.settings t (s.loadFile t p none)
              (({ s with loadErrors := errors } : Store).loadFile (s.settings.cleared t) p none) := by
            have same := loadFile_cleared (s := { s with loadErrors := errors }) first strays refused
            rw [show ({ s with loadErrors := errors } : Store).settings = s.settings from rfl] at same
            rw [same]
            exact loadFile_matches s p errors
          rw [List.filter_cons, refused, loadEach]
          refine loaded.andThen fun _ errors' _ => ?_
          have settings' := s.loadFile_settings t p
          generalize (s.loadFile t p none).store = after at settings' ⊢
          rw [← settings'] at others strays ⊢
          exact ih errors' others strays

end Matching

section Applying

/-- Where no file is committed, the next batch loads none again. -/
theorem nextBatch_anew (sound : s.Sound) (anew : s.committed = []) (t : FileTree) :
    s.nextBatch t = .ok ⟨s.model, s.view, s.batchNames.filterMap s.view.get?⟩ := by
  have waits : ∀ name ∈ s.batchNames, name ∈ s.pending := by
    intro name inside
    by_contra free
    obtain ⟨v, viewed⟩ := Table.exists_get? (mem_view_of_batchNames inside)
    rw [get?_view_unstaged sound.stagedOnce free, anew] at viewed
    cases viewed
  have unchanged (names : List String) (waits : ∀ name ∈ names, name ∈ s.pending) :
      names.foldlM (s.renew t) (s.model, s.view) = .ok (s.model, s.view) := by
    induction names with
    | nil => rfl
    | cons name rest ih =>
        obtain ⟨first, others⟩ := List.forall_mem_cons.mp waits
        rw [List.foldlM_cons, renew_pending first]
        exact ih others
  rw [nextBatch_eq, unchanged _ waits]
  rfl

/-- A batch takes from the disk only what it is made of, and nothing from what was noted. -/
theorem applyUpdates_matches {t' : FileTree} (same : s.nextBatch t' = s.nextBatch t)
    (errors : Table LoadError) : Matches settings t (s.applyUpdates t)
      (({ s with loadErrors := errors } : Store).applyUpdates t') := by
  have next : ({ s with loadErrors := errors } : Store).nextBatch t' = s.nextBatch t := same
  unfold applyUpdates
  dsimp only
  cases s.staged.isEmpty with
  | true => exact ⟨rfl, ⟨errors, rfl⟩, .refl _⟩
  | false =>
      unfold applyBatch
      rw [next]
      cases s.nextBatch t with
      | error i => exact ⟨rfl, ⟨errors, rfl⟩, .refl _⟩
      | ok b =>
          dsimp only
          cases b.resolve s.settings with
          | error stuck => exact ⟨rfl, ⟨errors, rfl⟩, .refl _⟩
          | ok r =>
              dsimp only
              cases (tell .errors (.diagnosed · r.found) s.watchers).2 with
              | some i => exact ⟨rfl, ⟨errors, rfl⟩, .refl _⟩
              | none =>
                  dsimp only
                  cases (r.found.flatMap (·.2)).any (·.isError) with
                  | true => exact ⟨rfl, ⟨errors, rfl⟩, .refl _⟩
                  | false =>
                      cases (tell .changed (.changed · r.ordered) s.watchers).2 with
                      | some i => exact ⟨rfl, ⟨errors, rfl⟩, .refl _⟩
                      | none => exact ⟨rfl, ⟨errors, rfl⟩, .refl _⟩

theorem applyUpdates_loadErrors (s : Store) (t : FileTree) :
    (s.applyUpdates t).store.loadErrors = s.loadErrors := by
  by_cases empty : s.staged = []
  · rw [applyUpdates_of_empty empty]
  · obtain ⟨after, applied, same⟩ := applyUpdates_applied (t := t) empty
    rw [same]
    generalize (s.applyUpdates t).result = result at applied ⊢
    cases applied <;> rfl

/-- A batch that is resolved is only interrupted by a watcher. -/
theorem applyUpdates_interrupted {b : Batch} {r : BatchResult} {i : Interruption}
    (next : s.nextBatch t = .ok b) (resolved : b.resolve s.settings = .ok r)
    (stopped : (s.applyUpdates t).result = .error i) : ∃ w stage, i = .watcher w stage := by
  by_cases empty : s.staged = []
  · rw [applyUpdates_of_empty empty] at stopped
    cases stopped
  · obtain ⟨after, applied, -⟩ := applyUpdates_applied (t := t) empty
    generalize (s.applyUpdates t).result = result at applied stopped
    subst stopped
    cases applied with
    | interrupted _ unresolved => exact absurd resolved (unresolved b next r)
    | rejected _ _ told _ =>
        rcases told with told | ⟨w, told⟩
        · cases told
        · cases told
          exact ⟨w, _, rfl⟩
    | committed _ _ told _ =>
        rcases told with told | ⟨w, told⟩
        · cases told
        · cases told
          exact ⟨w, _, rfl⟩

end Applying

section Everything

/-- Loading everything is like loading a disk without the files that are refused. -/
theorem loadModel_matches (sound : s.Sound) (same : s.settings = settings)
    (strays : settings.KeepsStrays t) (errors : Table LoadError) :
    Matches settings t (s.loadModel t)
      (({ s with loadErrors := errors } : Store).loadModel (settings.cleared t)) := by
  subst same
  unfold loadModel
  refine Matches.andThen (.refl _) fun _ errors' _ => ?_
  dsimp only
  rw [show s.clear.settings = s.settings from rfl, Settings.cleared, FileTree.modelFiles_cleared]
  cases files : t.modelFiles s.settings.modelRoot with
  | error f => exact ⟨rfl, ⟨errors', rfl⟩, .nil⟩
  | ok files' =>
      have listed : ∀ p ∈ files', s.settings.Lists t p := fun p member => ⟨files', files, member⟩
      refine Matches.andThen (loadEach_matches (s := s.clear) rfl listed strays errors')
        fun _ errors'' _ => ?_
      obtain ⟨extends', sound'⟩ := loadEach_keeps sound.clear t files'
      refine Matches.andThen (applyUpdates_matches ?_ errors'') fun _ errors _ => ?_
      · rw [nextBatch_anew sound' extends'.committed, nextBatch_anew sound' extends'.committed]
      · exact ⟨rfl, ⟨errors, rfl⟩, .nil⟩

/-- Every file that cannot be loaded is noted; the components of paths are those of their texts. -/
def Notes (s : Store) (settings : Settings) (t : FileTree) : Prop :=
  (∀ p, settings.Lists t p → p.Split) →
    ∀ p e, settings.Lists t p → settings.loadError? t p = some e →
      s.loadErrors.get? p.toString = some e

/-- The ways in which loading everything ends: for want of a name or of a place, or else with every
file that cannot be loaded noted, and by no other interruption than a watcher's. -/
inductive Ends (settings : Settings) (t : FileTree) : Outcome (Option Bool) → Prop
  | unnamed {o : Outcome (Option Bool)} (f : PathFault) (result : o.result = .error (.path f)) :
    Ends settings t o
  | unplaced {o : Outcome (Option Bool)} (f : FileFault) (result : o.result = .error (.file f)) :
    Ends settings t o
  | loaded {o : Outcome (Option Bool)}
    (result : o.result = .ok none ∨ ∃ w stage, o.result = .error (.watcher w stage))
    (notes : o.store.Notes settings t) : Ends settings t o

variable {a : Moment}

/-- What loading everything does before its batch. -/
theorem load_everything (all : a.operation = .loadAll) (same : s.settings = settings) :
    (∃ f, (a.load s).result = .error (.file f)) ∨
    ∃ files, ∃ begun : Store, (∀ p, p ∈ files ↔ settings.Lists a.tree p) ∧
      begun.settings = settings ∧ a.load s = begun.loadEach a.tree files := by
  obtain ⟨operation, tree, watchers⟩ := a
  cases all
  subst same
  unfold Moment.load
  dsimp only
  rw [show ({ s with watchers } : Store).register.store.clear.settings = s.settings from rfl]
  cases listed : tree.modelFiles s.settings.modelRoot with
  | error f => exact .inl ⟨f, rfl⟩
  | ok files =>
      refine .inr ⟨files, ({ s with watchers } : Store).register.store.clear, fun p => ?_, rfl, rfl⟩
      constructor
      · exact fun member => ⟨files, listed, member⟩
      · rintro ⟨files', listed', member⟩
        rw [listed] at listed'
        cases listed'
        exact member

/-- Before the batch, only the names and the places of files can interrupt loading everything. -/
theorem load_everything_interrupted (all : a.operation = .loadAll) (same : s.settings = settings)
    (sized : settings.Sized a.tree) {i : Interruption} (stopped : (a.load s).result = .error i) :
    (∃ f, i = .path f) ∨ ∃ f, i = .file f := by
  obtain ⟨f, failed⟩ | ⟨files, begun, listed, settings', whole⟩ := load_everything all same
  · rw [stopped] at failed
    cases failed
    exact .inr ⟨f, rfl⟩
  · rw [whole] at stopped
    exact loadEach_interrupted settings' (fun p => (listed p).mp) sized stopped

/-- Before the batch, every file that cannot be loaded is noted. -/
theorem load_everything_notes (all : a.operation = .loadAll) (same : s.settings = settings)
    (load : (a.load s).result = .ok ()) : (a.load s).store.Notes settings a.tree := by
  obtain ⟨f, failed⟩ | ⟨files, begun, listed, settings', whole⟩ := load_everything all same
  · rw [load] at failed
    cases failed
  · intro split p e here failed
    rw [whole] at load ⊢
    exact loadEach_notes settings' (fun p => (listed p).mp) load ((listed p).mpr here) failed
      fun p' inside => ((listed p').mp inside).eq_of_toString here split

/-- Where no class leads back to itself, only a watcher can interrupt the batch. -/
theorem applyUpdates_everything (all : a.operation = .loadAll) (sound : s.Sound)
    (same : s.settings = settings)
    (acyclic : ∀ b, (a.load s).store.nextBatch a.tree = .ok b → b.Acyclic settings)
    {i : Interruption} (stopped : ((a.load s).store.applyUpdates a.tree).result = .error i) :
    ∃ w stage, i = .watcher w stage := by
  obtain ⟨sound', extends'⟩ := Moment.load_all sound all
  have next := nextBatch_anew sound' extends'.committed a.tree
  have prepared := nextBatch_prepared sound' next
  have settings'' : (a.load s).store.settings = settings := extends'.settings.trans same
  obtain ⟨r, resolved⟩ := Batch.resolve_ok (acyclic _ next) fun v member => by
    obtain ⟨f, fresh, loaded⟩ := prepared.fresh member
    exact ⟨f, fresh, loaded.declared⟩
  rw [← settings''] at resolved
  exact applyUpdates_interrupted next resolved stopped

/-- Where texts hold no oversized numbers and no class leads back to itself, loading everything
comes to an end. -/
theorem run_everything (all : a.operation = .loadAll) (sound : s.Sound) (same : s.settings = settings)
    (sized : settings.Sized a.tree)
    (acyclic : ∀ b, (a.load s).store.nextBatch a.tree = .ok b → b.Acyclic settings) :
    Ends settings a.tree (a.run s) := by
  cases a.run_ends s with
  | early load result store =>
      rcases load_everything_interrupted all same sized load with ⟨f, rfl⟩ | ⟨f, rfl⟩
      · exact .unnamed f result
      · exact .unplaced f result
  | batch load result store told =>
      refine .loaded ?_ ?_
      · rw [result]
        cases ended : ((a.load s).store.applyUpdates a.tree).result with
        | error i =>
            obtain ⟨w, stage, rfl⟩ := applyUpdates_everything all sound same acyclic ended
            exact .inr ⟨w, stage, rfl⟩
        | ok x =>
            refine .inl (congrArg Except.ok (Option.eq_none_iff_forall_ne_some.mpr fun y same => ?_))
            exact (told x y same).2 all
      · unfold Notes
        rw [store, applyUpdates_loadErrors]
        exact load_everything_notes all same load

end Everything

end Store

/-- A text without oversized numbers is read or rejected, and it holds a file, or none, or is
rejected. After any history, let the texts of the model files be such texts, let the model files
that lead nowhere keep their names, and let no class lead back to itself. Then loading everything is
like loading the disk without the files that are refused, but for what is noted about these; and
every file that cannot be loaded is noted. -/
theorem Store.loaded_without_refused (settings : Settings) (history : List Moment) (t : FileTree)
    (watchers : List Watcher) :
    (∀ app (identity : Grammar.FileIdentity), ¬ HoldsOversized (charsOf identity.source) →
      ((∃ es, Source.events identity.source = .ok es) ∨
        ∃ r, Source.events identity.source = .error (.rejected r)) ∧
      ((∃ f, Grammar.loadText app identity = .ok f) ∨
        ∃ r, Grammar.loadText app identity = .error (.rejected r))) ∧
    let s := Store.after settings history
    let all (t : FileTree) : Moment := ⟨.loadAll, t, watchers⟩
    settings.Sized t → settings.KeepsStrays t →
    (∀ b, ((all t).load s).store.nextBatch t = .ok b → b.Acyclic settings) →
    Matches settings t ((all t).run s) ((all (settings.cleared t)).run s) ∧
      Ends settings t ((all t).run s) := by
  constructor
  · exact fun app identity sized =>
      ⟨Source.events_rejects sized, Grammar.loadText_rejects app identity sized⟩
  intro s all sized strays acyclic
  obtain ⟨sound, same⟩ := Store.after_sound settings history
  refine ⟨?_, run_everything (a := all t) rfl sound same sized acyclic⟩
  have begun : ({ s with watchers } : Store).register.store.Sound := sound.ofSame rfl rfl rfl rfl
  have loads : Matches settings t
      (({ s with watchers } : Store).register.andThen fun _ s => s.loadModel t)
      (({ s with watchers } : Store).register.andThen fun _ s => s.loadModel (settings.cleared t)) :=
    Matches.andThen (.refl _) fun _ errors _ => loadModel_matches begun same strays errors
  show Matches settings t (Outcome.andThen _ fun _ s => ⟨.ok none, s, []⟩)
    (Outcome.andThen _ fun _ s => ⟨.ok none, s, []⟩)
  exact loads.andThen fun _ errors _ => ⟨rfl, ⟨errors, rfl⟩, .nil⟩

namespace Refused
open Relinking (settings path)
open Retrying (plain plainFile load_plain first find_file fit_used fit_user)
open Arriving (Lies lies_of_node loadFile_found loadEach_cons)

/-- A disk with a file of some bytes before one that needs nothing. -/
def disk (bytes : List UInt8) : FileTree :=
  ⟨[(["m"], .directory (.changes 0)), (["m", "A.tmd"], .file bytes (.time 0)),
    (["m", "B.tmd"], .file plain.toUTF8.toList (.time 0))], 0, 0⟩

/-- Everything on such a disk is loaded. -/
def loading (bytes : List UInt8) : Moment := ⟨.loadAll, disk bytes, []⟩

/-- A byte that stands in no text. -/
def broken : List UInt8 := [0xff]

/-- A text with an escape beyond the last code point. -/
def beyond : String := "module: \"\\U00110000\"\n"

section Disk
variable (bytes : List UInt8)

theorem find_root : (disk bytes).find settings.modelRoot = .ok (["m"], .directory (.changes 0)) := by
  have node : (disk bytes).node? ([] ++ ["m"]) = some (.directory (.changes 0)) := rfl
  refine FileTree.find_iff.mpr ⟨by with_unfolding_all rfl, ?_, node⟩
  exact .enter (by decide) Relinking.short_root node (.done _ _)

theorem modelFiles_disk :
    (disk bytes).modelFiles settings.modelRoot = .ok [path "A.tmd", path "B.tmd"] := by
  have sorted : [path "A.tmd", path "B.tmd"].Pairwise fun p q => Path.le p q = true := by
    simp
    with_unfolding_all rfl
  have top : (disk bytes).modelPath? settings.modelRoot ["m"] = none := by
    rw [FileTree.modelPath?_of_directory (find_root bytes)]
    rfl
  have first : (disk bytes).modelPath? settings.modelRoot ["m", "A.tmd"] = some (path "A.tmd") := by
    rw [FileTree.modelPath?_of_directory (find_root bytes)]
    rfl
  have second : (disk bytes).modelPath? settings.modelRoot ["m", "B.tmd"] = some (path "B.tmd") := by
    rw [FileTree.modelPath?_of_directory (find_root bytes)]
    rfl
  rw [FileTree.modelFiles_of_directory (find_root bytes), show (disk bytes).entries =
    [(["m"], _), (["m", "A.tmd"], _), (["m", "B.tmd"], _)] from rfl]
  simp only [List.filterMap_cons, List.filterMap_nil, top, first, second]
  rw [List.mergeSort_of_pairwise sorted]

theorem lists_iff {p : Path} :
    settings.Lists (disk bytes) p ↔ p = path "A.tmd" ∨ p = path "B.tmd" := by
  constructor
  · rintro ⟨files, listed, member⟩
    rw [modelFiles_disk] at listed
    cases listed
    exact List.mem_pair.mp member
  · exact fun same => ⟨_, modelFiles_disk bytes, List.mem_pair.mpr same⟩

theorem find_first :
    (disk bytes).find (path "A.tmd") = .ok (["m", "A.tmd"], .file bytes (.time 0)) :=
  find_file fit_user rfl rfl

theorem lies_second : Lies (disk bytes) "B.tmd" "B" plain (plainFile "B" "B.tmd") :=
  lies_of_node fit_used rfl rfl rfl (by with_unfolding_all rfl) (load_plain "B" "B.tmd")

end Disk

/-- The file with the broken bytes is not loaded. -/
def rejection : LoadError := .rejected ⟨.invalidByte 0xff, 1, 1⟩

theorem error_broken : settings.loadError? (disk broken) (path "A.tmd") = some rejection := by
  have found := find_first broken
  rw [Settings.loadError?, FileTree.exists_iff.mpr ⟨_, _, found⟩, FileTree.read_iff.mpr ⟨_, _, found⟩]
  with_unfolding_all rfl

/-- The store while the other file waits. -/
def waiting : Store :=
  ⟨settings, [], first.model, [], [("B", some 0)], [("/m/A.tmd", rejection)]⟩

theorem load_disk (bytes : List UInt8) : (loading bytes).load (.new settings []) =
    (Store.new settings []).loadEach (disk bytes) [path "A.tmd", path "B.tmd"] := by
  rw [loading, Moment.load]
  dsimp only
  rw [show ({ (Store.new settings []) with watchers := [] } : Store).register.store.clear =
    .new settings [] from rfl, show (Store.new settings []).settings = settings from rfl,
    modelFiles_disk]

theorem load_broken : ((loading broken).load (.new settings [])).result = .ok () ∧
    ((loading broken).load (.new settings [])).store = waiting := by
  have first : (Store.new settings []).loadFile (disk broken) (path "A.tmd") none =
      (Store.new settings []).failedToLoad (path "A.tmd") rejection :=
    Store.loadFile_fails ((lists_iff broken).mpr (.inl rfl)) error_broken
  have ok : ((Store.new settings []).loadFile (disk broken) (path "A.tmd") none).result = .ok () := by
    rw [first]
    rfl
  obtain ⟨ok', store⟩ := loadFile_found
    (s := ((Store.new settings []).failedToLoad (path "A.tmd") rejection).store)
    (lies_second broken).attempt
  rw [load_disk, (loadEach_cons ok).1, (loadEach_cons ok).2, first, (loadEach_cons ok').1,
    (loadEach_cons ok').2, store]
  exact ⟨rfl, rfl⟩

theorem run_broken : ((loading broken).run (.new settings [])).result = .ok none ∧
    ((loading broken).run (.new settings [])).store.committed = [("B", 0)] := by
  obtain ⟨ok, store⟩ := load_broken
  have next : waiting.nextBatch (disk broken) = .ok ⟨first.model, [("B", 0)], [0]⟩ := rfl
  have done : Batch.resolve ⟨first.model, [("B", 0)], [0]⟩ settings =
      .ok ⟨first.model, [(0, [])], [0]⟩ := rfl
  have staged : waiting.staged ≠ [] := List.cons_ne_nil _ _
  have answer := Store.applyUpdates_answers staged rfl next done (by simp [Resolution.Clean])
  have after := Store.applyUpdates_quiet staged rfl next done (by simp [Resolution.Clean])
  cases (loading broken).run_ends (.new settings []) with
  | early failed _ _ =>
      rw [ok] at failed
      cases failed
  | @batch f _ result store' told =>
      rw [result, store', store, show (loading broken).tree = disk broken from rfl, answer, after]
      refine ⟨congrArg Except.ok (Option.eq_none_iff_forall_ne_some.mpr fun y same => ?_), rfl⟩
      exact (told true y same).2 rfl

theorem sized_broken : settings.Sized (disk broken) := by
  intro p listed text read
  rcases (lists_iff broken).mp listed with rfl | rfl
  · have wrong : Source.decodeText broken = .error ⟨.invalidByte 0xff, 1, 1⟩ := by
      with_unfolding_all rfl
    simp [Store.readText, FileTree.read_iff.mpr ⟨_, _, find_first broken⟩, wrong, bind, Except.bind,
      Except.mapError] at read
  · rw [(lies_second broken).read] at read
    cases read
    exact Yaml.not_holdsOversized (by decide)

theorem keepsStrays_broken : settings.KeepsStrays (disk broken) := by
  intro p listed astray
  rcases (lists_iff broken).mp listed with rfl | rfl
  · exact absurd (FileTree.exists_iff.mpr ⟨_, _, find_first broken⟩) astray
  · exact absurd (lies_second broken).there astray

theorem acyclic_broken (b : Batch)
    (next : ((loading broken).load (Store.after settings [])).store.nextBatch (disk broken) = .ok b) :
    b.Acyclic settings := by
  rw [show Store.after settings [] = .new settings [] from rfl, load_broken.2,
    show waiting.nextBatch (disk broken) = .ok ⟨first.model, [("B", 0)], [0]⟩ from rfl] at next
  cases next
  exact Batch.acyclic_of_classless
    (List.forall_mem_singleton.mpr ⟨plainFile "B" "B.tmd", rfl⟩) rfl

theorem split_disk (bytes : List UInt8) : ∀ p, settings.Lists (disk bytes) p → p.Split := by
  intro p listed
  rcases (lists_iff bytes).mp listed with rfl | rfl
  · exact List.forall_mem_cons.mpr ⟨by decide, List.forall_mem_singleton.mpr (by decide)⟩
  · exact List.forall_mem_cons.mpr ⟨by decide, List.forall_mem_singleton.mpr (by decide)⟩

end Refused

open Refused Relinking Retrying in
/-- A file with broken bytes is noted, and the other one is committed. -/
theorem loaded_without_broken :
    (¬ Yaml.HoldsOversized (charsOf plain) ∧ settings.Sized (disk broken) ∧
      settings.KeepsStrays (disk broken) ∧
      ∀ b, ((loading broken).load (Store.after settings [])).store.nextBatch (disk broken) = .ok b →
        b.Acyclic settings) ∧
    ((∃ es, Source.events plain = .ok es) ∨ ∃ r, Source.events plain = .error (.rejected r)) ∧
    ((loading broken).run (Store.after settings [])).store.loadErrors.get? "/m/A.tmd" =
      some rejection ∧
    ((loading broken).run (Store.after settings [])).store.committed = [("B", 0)] := by
  obtain ⟨texts, loads⟩ := Store.loaded_without_refused settings [] (disk broken) []
  have plainly : ¬ Yaml.HoldsOversized (charsOf plain) := Yaml.not_holdsOversized (by decide)
  obtain ⟨-, ends⟩ := loads sized_broken keepsStrays_broken acyclic_broken
  obtain ⟨result, committed⟩ := run_broken
  refine ⟨⟨plainly, sized_broken, keepsStrays_broken, acyclic_broken⟩,
    (texts settings.app ⟨"B", "/m/B.tmd", plain⟩ plainly).1, ?_, committed⟩
  cases ends with
  | unnamed f failed =>
      rw [show (Moment.run ⟨.loadAll, disk broken, []⟩ (Store.after settings [])).result = _
        from result] at failed
      cases failed
  | unplaced f failed =>
      rw [show (Moment.run ⟨.loadAll, disk broken, []⟩ (Store.after settings [])).result = _
        from result] at failed
      cases failed
  | loaded _ notes =>
      exact notes (split_disk broken) (path "A.tmd") rejection ((lists_iff broken).mpr (.inl rfl))
        error_broken

namespace Refused
open Relinking (settings path)
open Retrying (Fit fit_user)

def oversized : List UInt8 := beyond.toUTF8.toList

/-- Loading the text with the escape finds a value that does not exist. -/
theorem load_beyond : ((loading oversized).load (.new settings [])).result =
      .error (.source (.value .codePointRange)) ∧
    ((loading oversized).load (.new settings [])).store = .new settings [] := by
  have found := find_first oversized
  have named : (Store.new settings []).fileName (disk oversized) (path "A.tmd") = .ok "A" :=
    fit_user.named rfl (.inr ⟨_, _, rfl⟩) rfl
  have there : (disk oversized).exists? (path "A.tmd") = .ok true :=
    FileTree.exists_iff.mpr ⟨_, _, found⟩
  have read : Store.readText (disk oversized) (path "A.tmd") = .ok beyond := by
    have decoded : Source.decodeText oversized = .ok beyond := by with_unfolding_all rfl
    simp [Store.readText, FileTree.read_iff.mpr ⟨_, _, found⟩, decoded, bind, Except.bind,
      Except.mapError]
  have parsed : (Store.new settings []).parse "A" (path "A.tmd") beyond =
      .error (.value .codePointRange) := by cbv
  rw [load_disk, Store.loadEach, Moment.result_andThen, Store.store_andThen]
  simp only [Store.loadFile, named, there, read, Store.loadText, parsed, and_self]

end Refused

open Refused Relinking in
/-- An escape beyond the last code point is not rejected, and keeps the other file from being
loaded. -/
theorem unloaded_of_oversized :
    Source.events beyond = .error (.value .codePointRange) ∧
    ((loading oversized).run (Store.after settings [])).result =
      .error (.source (.value .codePointRange)) ∧
    ((loading oversized).run (Store.after settings [])).store = .new settings [] := by
  obtain ⟨failed, store⟩ := load_beyond
  refine ⟨by cbv, ?_⟩
  rw [show Store.after settings [] = .new settings [] from rfl]
  cases (loading oversized).run_ends (.new settings []) with
  | early load result store' =>
      rw [failed] at load
      cases load
      exact ⟨result, store'.trans store⟩
  | batch load _ _ _ =>
      rw [failed] at load
      cases load

end DataModel
