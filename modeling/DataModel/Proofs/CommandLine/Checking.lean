import DataModel.CommandLine.Run
import DataModel.Proofs.Configuration
import DataModel.Proofs.Store.Gathering
import DataModel.Proofs.Store.Silencing

/-!
What the exit code of a check tells. The code is zero just where the configuration is read, the
model root is a directory, every model file below it loads or is empty, and all of them together are
resolved without an error; and the line printed then counts the committed files, which are all those
that are not empty, and the warnings that are not silenced.
-/
namespace DataModel.CommandLine
open DataModel.Resolution (Clean)

section Reporting
variable {before after events : List StoreEvent} {s : StoreSession} {verbose : Bool} {o : Output}

/-- Events of which none tells diagnostics. -/
def Untold (events : List StoreEvent) : Prop :=
  ∀ e ∈ events, ∀ watcher found, e ≠ .diagnosed watcher found

theorem untold_of_logs (logs : ∀ e ∈ events, ∃ record, e = .log record) : Untold events := by
  intro e member watcher found
  obtain ⟨record, rfl⟩ := logs e member
  exact StoreEvent.noConfusion

theorem latestFound_append (before : List StoreEvent) (untold : Untold after) :
    latestFound (before ++ after) = latestFound before := by
  rw [latestFound, List.foldl_append, ← latestFound]
  generalize latestFound before = found
  induction after with
  | nil => rfl
  | cons e rest ih =>
      obtain ⟨first, others⟩ := List.forall_mem_cons.mp untold
      rw [List.foldl_cons]
      cases e with
      | diagnosed watcher files => exact absurd rfl (first watcher files)
      | log r => exact ih others
      | changed watcher files => exact ih others
      | interrupted i => exact ih others

theorem latestFound_prepend (untold : Untold before) :
    latestFound (before ++ after) = latestFound after := by
  have none' : latestFound before = [] := latestFound_append [] untold
  rw [latestFound, List.foldl_append, ← latestFound, none']
  rfl

theorem check_report (ended : check verbose s = .ok o) :
    (∃ n, (s.loadAll none).1 = .ok n) ∧
    (o.code = 0 ↔ (s.loadAll none).2.listener.loadErrors = [] ∧
      Clean (latestFound (s.loadAll none).2.events)) ∧
    (o.code = 0 → o.stdout =
      s!"Checked {(s.loadAll none).2.listener.committed.length} model file(s), {
        (latestFound (s.loadAll none).2.events).length} warning(s). No errors found.\n") := by
  unfold check at ended
  cases loading : s.loadAll none with
  | mk loaded after =>
      rw [loading] at ended
      cases loaded with
      | error i => cases ended
      | ok n =>
          refine ⟨⟨n, rfl⟩, ?_⟩
          have o' := (Except.ok.inj ended).symm
          subst o'
          dsimp only
          have clean : ((latestFound after.events).filter (·.isError)).length = 0 ↔
              Clean (latestFound after.events) := by
            rw [List.length_eq_zero_iff, List.filter_eq_nil_iff]
            exact forall₂_congr fun d _ => Bool.not_eq_true _ ▸ Iff.rfl
          have noted : after.listener.loadErrors.length = 0 ↔ after.listener.loadErrors = [] :=
            List.length_eq_zero_iff
          rw [← noted, ← clean]
          generalize ((latestFound after.events).filter (·.isError)).length = errors
          generalize after.listener.loadErrors.length = broken
          cases broken with
          | succ n => exact ⟨⟨nofun, nofun⟩, nofun⟩
          | zero =>
              cases errors with
              | succ n => exact ⟨⟨nofun, nofun⟩, nofun⟩
              | zero => exact ⟨⟨fun _ => ⟨rfl, rfl⟩, fun _ => rfl⟩, fun _ => rfl⟩

end Reporting

/-- The watcher of the command line. -/
def watcher : Watcher := ⟨watcherName, 1, none⟩

/-- The session that checks a disk. -/
def opened (t : FileTree) (settings : Settings) : StoreSession := .new t (.new settings [watcher])

/-- What loading a disk does with a new store. -/
def loading (t : FileTree) (settings : Settings) : Outcome Unit :=
  (Store.new settings [watcher]).loadModel t

section Loading
variable {t : FileTree} {settings : Settings} {verbose : Bool} {o : Output} {paths : List Path}
  {files : List ModelFile} {r : BatchResult} {top : Place} {st : Stamp}

theorem loadAll_opened (t : FileTree) (settings : Settings) :
    ((opened t settings).loadAll none).1 = (loading t settings).result.map (fun _ => none) ∧
      ((opened t settings).loadAll none).2.listener = (loading t settings).store ∧
      ∃ registered, ((opened t settings).loadAll none).2.events =
        [.log registered] ++ (loading t settings).events :=
  ⟨rfl, rfl, _, rfl⟩

/-- A check that ends tells of what loading the disk does. -/
theorem check_opened (ended : check verbose (opened t settings) = .ok o) :
    (loading t settings).result = .ok () ∧
    ((opened t settings).loadAll none).2.listener = (loading t settings).store ∧
    (o.code = 0 ↔ (loading t settings).store.loadErrors = [] ∧
      Clean (latestFound (loading t settings).events)) ∧
    (o.code = 0 → o.stdout =
      s!"Checked {(loading t settings).store.committed.length} model file(s), {
        (latestFound (loading t settings).events).length} warning(s). No errors found.\n") := by
  obtain ⟨⟨n, loaded⟩, code, stdout⟩ := check_report ended
  obtain ⟨result, store, registered, events⟩ := loadAll_opened t settings
  have done : (loading t settings).result = .ok () := by
    rw [result] at loaded
    cases whole : (loading t settings).result with
    | error i =>
        rw [whole] at loaded
        cases loaded
    | ok u => rfl
  have begun : Untold [.log registered] :=
    List.forall_mem_singleton.mpr fun _ _ => StoreEvent.noConfusion
  rw [store, events, latestFound_prepend begun] at code stdout
  exact ⟨done, store, code, stdout⟩

/-- What a load leads to if every file is whole. -/
structure Gathers {α : Type} (files : List ModelFile) (r : BatchResult) (o : Outcome α) : Prop where
  noted : o.store.loadErrors = []
  told : latestFound o.events = r.found.flatMap (·.2)
  committed : Clean (r.found.flatMap (·.2)) →
    o.store.committedFiles = files.map fun f => (f.name, some f.bare)

/-- A batch of all files that wait decides what a load leads to, if it is resolved. -/
theorem applyUpdates_holding (once : (files.map (·.name)).Nodup)
    (sound : (Store.holding settings [watcher] files).Sound)
    (resolved : (Batch.together files).resolve settings = .ok r) :
    (∃ answer, ((Store.holding settings [watcher] files).applyUpdates t).result = .ok answer) ∧
      Gathers files r ((Store.holding settings [watcher] files).applyUpdates t) := by
  cases files with
  | nil =>
      obtain rfl : ⟨.ofFiles [], [], []⟩ = r := Except.ok.inj resolved
      exact ⟨⟨true, rfl⟩, rfl, rfl, fun _ => rfl⟩
  | cons f rest =>
      have waits : (Store.holding settings [watcher] (f :: rest)).staged ≠ [] :=
        List.cons_ne_nil _ _
      have quiet : ∀ w ∈ [watcher], w.failing = none := List.forall_mem_singleton.mpr rfl
      obtain ⟨logs, logged, applied⟩ :=
        Store.applyUpdates_tells waits quiet (Store.nextBatch_holding once sound t) resolved
      have told := latestFound_append [.diagnosed watcher.fullName r.found] (untold_of_logs logged)
      rcases applied with ⟨wrong, whole⟩ | ⟨-, whole⟩
      · rw [whole]
        exact ⟨⟨false, rfl⟩, rfl, told, fun clean => absurd clean wrong⟩
      · rw [whole]
        have changed : Untold ([watcher].map (.changed ·.fullName r.ordered)) :=
          List.forall_mem_singleton.mpr fun _ _ => StoreEvent.noConfusion
        exact ⟨⟨true, rfl⟩, rfl, (latestFound_append _ changed).trans told,
          fun _ => Store.committedFiles_holding once sound resolved rfl rfl⟩

/-- All files that wait are resolved, if nothing interrupts what is done with them. -/
theorem together_resolves (once : (files.map (·.name)).Nodup)
    (sound : (Store.holding settings [watcher] files).Sound) {answer : Bool}
    (ended : ((Store.holding settings [watcher] files).applyUpdates t).result = .ok answer) :
    ∃ r, (Batch.together files).resolve settings = .ok r := by
  cases files with
  | nil => exact ⟨_, rfl⟩
  | cons f rest =>
      have waits : (Store.holding settings [watcher] (f :: rest)).staged ≠ [] :=
        List.cons_ne_nil _ _
      obtain ⟨b, r, next, resolved⟩ := Store.applyUpdates_resolves waits ended
      rw [Store.nextBatch_holding once sound t] at next
      cases next
      exact ⟨r, resolved⟩

/-- Loading a disk: every file is loaded, and what then waits is applied. -/
theorem loading_eq (listed : t.modelFiles settings.modelRoot = .ok paths) :
    ∃ record, loading t settings =
      let rest := ((Store.holding settings [watcher] []).loadEach t paths).andThen fun _ s =>
        (s.applyUpdates t).andThen fun _ s => ⟨.ok (), s, []⟩
      { rest with events := [.log record] ++ rest.events } := by
  unfold loading Store.loadModel
  dsimp only
  rw [show (Store.new settings [watcher]).settings = settings from rfl, listed]
  exact ⟨⟨.info, Store.logger, s!"Loading model from {settings.modelRoot.toString}"⟩, rfl⟩

theorem loading_done {loaded : Outcome Unit} {answer : Bool}
    (listed : t.modelFiles settings.modelRoot = .ok paths)
    (each : (Store.holding settings [watcher] []).loadEach t paths = loaded)
    (ok : loaded.result = .ok ()) (applied : (loaded.store.applyUpdates t).result = .ok answer) :
    (loading t settings).result = .ok () := by
  obtain ⟨record, whole⟩ := loading_eq listed
  rw [whole, each]
  dsimp only
  rw [Moment.result_andThen, ok]
  dsimp only
  rw [Moment.result_andThen, applied]

/-- If a load is not interrupted, neither is any of its parts. -/
theorem loading_ends (listed : t.modelFiles settings.modelRoot = .ok paths)
    (ended : (loading t settings).result = .ok ()) :
    ∃ loaded : Outcome Unit, (Store.holding settings [watcher] []).loadEach t paths = loaded ∧
      loaded.result = .ok () ∧ (∃ answer, (loaded.store.applyUpdates t).result = .ok answer) ∧
      (loading t settings).store = (loaded.store.applyUpdates t).store ∧
      latestFound (loading t settings).events =
        latestFound (loaded.store.applyUpdates t).events := by
  have logs := Store.loadEach_logs (Store.holding settings [watcher] []) t paths
  obtain ⟨record, whole⟩ := loading_eq listed
  rw [whole] at ended ⊢
  refine ⟨_, rfl, ?_⟩
  generalize (Store.holding settings [watcher] []).loadEach t paths = loaded at ended logs ⊢
  obtain ⟨result, store, events⟩ := loaded
  cases result with
  | error i => cases ended
  | ok u =>
      unfold Outcome.andThen at ended ⊢
      dsimp only at ended logs ⊢
      generalize store.applyUpdates t = applied at ended ⊢
      obtain ⟨result', store', events'⟩ := applied
      cases result' with
      | error i => cases ended
      | ok answer =>
          have begun : Untold [.log record] :=
            List.forall_mem_singleton.mpr fun _ _ => StoreEvent.noConfusion
          refine ⟨rfl, ⟨answer, rfl⟩, rfl, ?_⟩
          dsimp only
          rw [List.append_nil, latestFound_prepend begun, latestFound_prepend (untold_of_logs logs)]

/-- What is found with some codes silenced is what is heard of all that is found. -/
theorem resolve_heard {b : Batch} :
    b.resolve settings = (b.resolve (settings.silencing [])).map (·.heard settings.nowarn) := by
  have audible : (settings.silencing []).nowarn = [] := rfl
  exact Batch.resolve_silencing audible

section Gathering
variable (formed : t.WellFormed) (unlinked : t.Unlinked top)
  (slashes : settings.modelRoot.IsSlashed)
  (found : t.find settings.modelRoot = .ok (top, .directory st))
  (listed : t.modelFiles settings.modelRoot = .ok paths)
  (ended : (loading t settings).result = .ok ())
include formed unlinked found listed ended

/-- If every file is whole, the load is that of all of them together. -/
theorem loading_gathers (loads : ∀ p ∈ paths, settings.Loads t p) :
    ∃ r, (Batch.together (settings.gathered t paths)).resolve (settings.silencing []) = .ok r ∧
      Gathers (settings.gathered t paths) (r.heard settings.nowarn) (loading t settings) := by
  obtain ⟨once, sound, -, waits⟩ :=
    Store.loadEach_gathers [watcher] formed unlinked found listed loads
  obtain ⟨loaded, rfl, -, ⟨answer, applied⟩, store, told⟩ := loading_ends listed ended
  rw [waits] at applied store told
  obtain ⟨heard, resolved⟩ := together_resolves once sound applied
  have gathers := (applyUpdates_holding (t := t) once sound resolved).2
  rw [resolve_heard] at resolved
  cases all : (Batch.together (settings.gathered t paths)).resolve (settings.silencing []) with
  | error stuck =>
      rw [all] at resolved
      cases resolved
  | ok r =>
      rw [all] at resolved
      cases resolved
      refine ⟨r, rfl, ?_, told.trans gathers.told, fun clean => ?_⟩
      · rw [store, gathers.noted]
      · rw [store, gathers.committed clean]

include slashes in
theorem loading_broken {p : Path} (member : p ∈ paths) (broken : ¬ settings.Loads t p) :
    (loading t settings).store.loadErrors ≠ [] := by
  obtain ⟨loaded, rfl, ok, -, store, -⟩ := loading_ends listed ended
  rw [store, Store.applyUpdates_loadErrors]
  exact Store.loadEach_broken (s := Store.holding settings [watcher] []) formed unlinked slashes
    found listed ok member broken

end Gathering

end Loading

/-- A disk that is in order: its configuration is read, its model root is a directory, every model
file below it loads or is empty, and those that are not empty are resolved together without an
error. The result is that of resolving them with nothing silenced. -/
structure Healthy (t : FileTree) (current : Path) (configuration : String) (settings : Settings)
    (files : List ModelFile) (r : BatchResult) : Prop where
  configured : Configuration.load t current (.ofString configuration) = .ok settings
  rooted : t.isDirectory settings.modelRoot = .ok true
  loads : ∃ paths, t.modelFiles settings.modelRoot = .ok paths ∧
    (∀ p ∈ paths, settings.Loads t p) ∧ files = settings.gathered t paths
  resolved : (Batch.together files).resolve (settings.silencing []) = .ok r
  clean : Clean (r.found.flatMap (·.2))

/-- The warnings of a result that are not silenced. -/
def heardWarnings (settings : Settings) (r : BatchResult) : List Diagnostic :=
  (r.found.flatMap (·.2)).filter fun d => !d.isError && !settings.nowarn.contains d.code

/-- No links lie below the model root, if a configuration names one. -/
def UnlinkedModel (t : FileTree) (current : Path) (configuration : String) : Prop :=
  ∀ home settings, t.directory current = .ok home →
    Configuration.load t home (.ofString configuration) = .ok settings →
    ∀ top st, t.find settings.modelRoot = .ok (top, .directory st) → t.Unlinked top

section Verdicts
variable {t : FileTree} {current : Path} {configuration : String} {settings : Settings}
  {files : List ModelFile} {r : BatchResult} {verbose : Bool} {o : Output}

theorem found_heard (codes : List Code) (r : BatchResult) :
    (r.heard codes).found.flatMap (·.2) = (r.found.flatMap (·.2)).filter (·.isHeard codes) :=
  flatMap_heard codes r.found

/-- What is silenced is no error. -/
theorem clean_heard (codes : List Code) (r : BatchResult) :
    Clean ((r.heard codes).found.flatMap (·.2)) ↔ Clean (r.found.flatMap (·.2)) := by
  rw [← Store.clean_iff, ← Store.clean_iff, found_heard, Store.any_error_heard]

/-- Without an error, all that is heard are warnings. -/
theorem heardWarnings_eq (clean : Clean (r.found.flatMap (·.2))) :
    heardWarnings settings r = (r.heard settings.nowarn).found.flatMap (·.2) := by
  rw [found_heard, heardWarnings]
  refine List.filter_congr fun d member => ?_
  rw [Diagnostic.isHeard, clean d member]
  rfl

/-- The model files of a disk in order are all whole. -/
theorem Healthy.whole (h : Healthy t current configuration settings files r) {paths : List Path}
    (listed : t.modelFiles settings.modelRoot = .ok paths) :
    (∀ p ∈ paths, settings.Loads t p) ∧ files = settings.gathered t paths := by
  obtain ⟨paths', listed', whole, rfl⟩ := h.loads
  obtain rfl := Except.ok.inj (listed'.symm.trans listed)
  exact ⟨whole, rfl⟩

/-- Where every model file is whole, resolving them decides whether a disk is in order. -/
theorem healthy_iff {paths : List Path} {all : BatchResult}
    (configured : Configuration.load t current (.ofString configuration) = .ok settings)
    (rooted : t.isDirectory settings.modelRoot = .ok true)
    (listed : t.modelFiles settings.modelRoot = .ok paths) (loads : ∀ p ∈ paths, settings.Loads t p)
    (resolved : (Batch.together (settings.gathered t paths)).resolve (settings.silencing []) =
      .ok all) :
    Healthy t current configuration settings files r ↔
      files = settings.gathered t paths ∧ r = all ∧ Clean (all.found.flatMap (·.2)) := by
  constructor
  · intro h
    obtain ⟨-, rfl⟩ := h.whole listed
    obtain rfl := Except.ok.inj (h.resolved.symm.trans resolved)
    exact ⟨rfl, rfl, h.clean⟩
  · rintro ⟨rfl, rfl, clean⟩
    exact ⟨configured, rooted, ⟨paths, listed, loads, rfl⟩, resolved, clean⟩

/-- The verdict on a disk whose configuration is read and whose model root is a directory. -/
theorem check_verdict (formed : t.WellFormed)
    (unlinked : ∀ top st, t.find settings.modelRoot = .ok (top, .directory st) → t.Unlinked top)
    (configured : Configuration.load t current (.ofString configuration) = .ok settings)
    (rooted : t.isDirectory settings.modelRoot = .ok true)
    (ended : check verbose (opened t settings) = .ok o) :
    (o.code = 0 ↔ ∃ files r, Healthy t current configuration settings files r) ∧
    ∀ files r, Healthy t current configuration settings files r →
      o.stdout = s!"Checked {files.length} model file(s), {(heardWarnings settings r).length
        } warning(s). No errors found.\n" ∧
      ((opened t settings).loadAll none).2.listener.committedFiles =
        files.map fun f => (f.name, some f.bare) := by
  obtain ⟨done, store, code, stdout⟩ := check_opened ended
  obtain ⟨top, st, found⟩ := FileTree.find_of_isDirectory rooted
  have unlinked := unlinked top st found
  have listed := FileTree.modelFiles_of_directory found
  generalize (t.entries.filterMap _).mergeSort _ = paths at listed
  rw [store]
  by_cases loads : ∀ p ∈ paths, settings.Loads t p
  · obtain ⟨r, resolved, gathers⟩ := loading_gathers formed unlinked found listed done loads
    rw [gathers.noted, gathers.told, clean_heard] at code
    have known {files' : List ModelFile} {r' : BatchResult} :
        Healthy t current configuration settings files' r' ↔ _ :=
      healthy_iff configured rooted listed loads resolved
    constructor
    · rw [code]
      constructor
      · rintro ⟨-, clean⟩
        exact ⟨_, r, known.mpr ⟨rfl, rfl, clean⟩⟩
      · rintro ⟨files', r', healthy⟩
        exact ⟨rfl, (known.mp healthy).2.2⟩
    · intro files' r' healthy
      obtain ⟨rfl, rfl, clean⟩ := known.mp healthy
      have all := gathers.committed ((clean_heard _ _).mpr clean)
      have count : (loading t settings).store.committed.length =
          (settings.gathered t paths).length := by
        simpa [Store.committedFiles] using congrArg List.length all
      refine ⟨?_, all⟩
      rw [stdout (code.mpr ⟨rfl, clean⟩), count, gathers.told, heardWarnings_eq clean]
  · have sick {files' : List ModelFile} {r' : BatchResult} :
        ¬ Healthy t current configuration settings files' r' := fun h => loads (h.whole listed).1
    have failed : o.code ≠ 0 := by
      intro zero
      obtain ⟨p, member, broken⟩ := not_forall₂.mp loads
      exact loading_broken formed unlinked (Configuration.load_slashed configured) found listed done
        member broken (code.mp zero).1
    refine ⟨⟨fun zero => absurd zero failed, ?_⟩, fun files' r' healthy => absurd healthy sick⟩
    rintro ⟨files', r', healthy⟩
    exact absurd healthy sick

/-- On a disk in order a check comes to its end. -/
theorem Healthy.ends (h : Healthy t current configuration settings files r) (formed : t.WellFormed)
    (unlinked : ∀ top st, t.find settings.modelRoot = .ok (top, .directory st) → t.Unlinked top)
    (verbose : Bool) : ∃ o, check verbose (opened t settings) = .ok o := by
  obtain ⟨top, st, found⟩ := FileTree.find_of_isDirectory h.rooted
  obtain ⟨paths, listed, loads, rfl⟩ := h.loads
  obtain ⟨once, sound, each, waits⟩ :=
    Store.loadEach_gathers [watcher] formed (unlinked top st found) found listed loads
  have resolved : (Batch.together (settings.gathered t paths)).resolve settings =
      .ok (r.heard settings.nowarn) := by
    rw [resolve_heard, h.resolved]
    rfl
  obtain ⟨answer, applied⟩ := (applyUpdates_holding (t := t) once sound resolved).1
  rw [← waits] at applied
  have done := loading_done listed rfl each applied
  have loaded : ((opened t settings).loadAll none).1 = .ok none := by
    rw [(loadAll_opened t settings).1, done]
    rfl
  unfold check
  dsimp only
  rw [loaded]
  exact ⟨_, rfl⟩

/-- Where no store is opened, the configuration is not read or the model root is no directory. -/
theorem openStore_refused (refused : openStore t current configuration = .ok (.error o)) :
    o.code = 1 ∧ ∀ settings, Configuration.load t current (.ofString configuration) = .ok settings →
      t.isDirectory settings.modelRoot ≠ .ok true := by
  unfold openStore at refused
  dsimp only at refused
  split at refused
  · next f failed' =>
    split at refused
    · cases refused
      refine ⟨rfl, fun settings configured => ?_⟩
      rw [failed'] at configured
      cases configured
    · cases refused
  · next settings' configured' =>
    split at refused
    · cases refused
    · cases refused
    · next rooted =>
      cases refused
      refine ⟨rfl, fun settings configured => ?_⟩
      obtain rfl := Except.ok.inj (configured.symm.trans configured')
      rw [rooted]
      simp

theorem openStore_opened {s : StoreSession}
    (opens : openStore t current configuration = .ok (.ok s)) :
    ∃ settings, Configuration.load t current (.ofString configuration) = .ok settings ∧
      t.isDirectory settings.modelRoot = .ok true ∧ s = opened t settings := by
  unfold openStore at opens
  dsimp only at opens
  split at opens
  · split at opens <;> cases opens
  · next settings configured =>
    split at opens
    · cases opens
    · next rooted =>
      cases opens
      exact ⟨settings, configured, rooted, rfl⟩
    · cases opens

/-- The exit code of a check tells the truth. A check that ends without an interruption, on a disk
without links, has the code zero just if the disk is in order. Then the committed files are just the
model files that are not empty, and the line that is printed tells their number and that of the
warnings that are not silenced. -/
theorem check_tells (formed : t.WellFormed) (unlinked : UnlinkedModel t current configuration)
    {args : List String} {happenings : List Happening} {left : List Interruption}
    (request : parse args = .ok (.run verbose .check configuration))
    (ended : run t current args happenings = .ok (o, left)) :
    ∃ home, t.directory current = .ok home ∧
      (o.code = 0 ↔ ∃ settings files r, Healthy t home configuration settings files r) ∧
      ∀ settings files r, Healthy t home configuration settings files r →
        o.stdout = s!"Checked {files.length} model file(s), {(heardWarnings settings r).length
          } warning(s). No errors found.\n" ∧
        ∃ s, openStore t home configuration = .ok (.ok s) ∧
          (s.loadAll none).2.listener.committedFiles =
            files.map fun f => (f.name, some f.bare) := by
  unfold run at ended
  obtain ⟨home, found, ended⟩ := ok_of_bind ended
  refine ⟨home, ok_of_mapError found, ?_⟩
  rw [request] at ended
  obtain ⟨opens, opening, ended⟩ := ok_of_bind ended
  cases opens with
  | error refusal =>
      cases ended
      obtain ⟨code, refused⟩ := openStore_refused opening
      have sick {settings : Settings} {files : List ModelFile} {r : BatchResult} :
          ¬ Healthy t home configuration settings files r :=
        fun h => refused settings h.configured h.rooted
      refine ⟨⟨fun zero => ?_, ?_⟩, fun settings files r healthy => absurd healthy sick⟩
      · rw [code] at zero
        cases zero
      · rintro ⟨settings, files, r, healthy⟩
        exact absurd healthy sick
  | ok s =>
      obtain ⟨told, checked, ended⟩ := ok_of_bind ended
      cases ended
      obtain ⟨settings, configured, rooted, rfl⟩ := openStore_opened opening
      obtain ⟨code, accepted⟩ := check_verdict formed
        (unlinked home settings (ok_of_mapError found) configured) configured rooted
        (ok_of_mapError checked)
      have only {settings' : Settings} {files : List ModelFile} {r : BatchResult}
          (h : Healthy t home configuration settings' files r) : settings' = settings :=
        Except.ok.inj (h.configured.symm.trans configured)
      constructor
      · rw [code]
        constructor
        · rintro ⟨files, r, healthy⟩
          exact ⟨settings, files, r, healthy⟩
        · rintro ⟨settings', files, r, healthy⟩
          obtain rfl := only healthy
          exact ⟨files, r, healthy⟩
      · intro settings' files r healthy
        obtain rfl := only healthy
        obtain ⟨stdout, committed⟩ := accepted files r healthy
        exact ⟨stdout, _, opening, committed⟩

end Verdicts

namespace Orderly
open DataModel.Yaml (Event EventStream Document)
open Relinking (settings path short_root)
open Retrying (plain user plainFile userFile load_plain load_user complaint fit_user fit_used)
open Arriving (lies_of_node)

/-- The text of a configuration file. -/
def written : String := "'app': 'a'\n'modelRoot': '/m'\n'allowCompositePrimaryKey': 'on'\n"

/-- A configuration, a file that uses another for nothing, and the other one. -/
def disk : FileTree :=
  ⟨[(["c"], .file written.toUTF8.toList (.time 0)), (["m"], .directory (.changes 0)),
    (["m", "A.tmd"], .file user.toUTF8.toList (.time 0)),
    (["m", "B.tmd"], .file plain.toUTF8.toList (.time 0))], 0, 0⟩

section Disk

theorem isName_all : ∀ name ∈ ["c", "m", "A.tmd", "B.tmd"], IsName name := by
  intro name member
  simp only [List.mem_cons, List.not_mem_nil, or_false] at member
  rcases member with rfl | rfl | rfl | rfl
  · exact ⟨by decide, by decide, by decide, rfl, by with_unfolding_all rfl⟩
  · exact ⟨by decide, by decide, by decide, rfl, by with_unfolding_all rfl⟩
  · exact ⟨by decide, by decide, by decide, rfl, by with_unfolding_all rfl⟩
  · exact ⟨by decide, by decide, by decide, rfl, by with_unfolding_all rfl⟩

theorem formed : disk.WellFormed where
  once := by decide
  named := by
    intro e member name inside
    refine isName_all name ?_
    simp only [disk, List.mem_cons, List.not_mem_nil, or_false] at member
    rcases member with rfl | rfl | rfl | rfl <;>
      simp only [List.mem_cons, List.not_mem_nil, or_false] at inside ⊢ <;> tauto
  above := by
    intro e member
    simp only [disk, List.mem_cons, List.not_mem_nil, or_false] at member
    rcases member with rfl | rfl | rfl | rfl
    · exact ⟨_, rfl⟩
    · exact ⟨_, rfl⟩
    · exact ⟨_, rfl⟩
    · exact ⟨_, rfl⟩

theorem unlinked (top : Place) : disk.Unlinked top := by
  intro e member below target link
  simp only [disk, List.mem_cons, List.not_mem_nil, or_false] at member
  rcases member with rfl | rfl | rfl | rfl <;> cases link

theorem find_root : disk.find ⟨"/", ["m"]⟩ = .ok (["m"], .directory (.changes 0)) := by
  have allowed : Path.nameFault? ⟨"/", ["m"]⟩ = none := rfl
  have fits : Path.isLong ⟨"/", ["m"]⟩ = false := by with_unfolding_all rfl
  rw [FileTree.find, FileTree.checkPath, allowed, fits]
  simp [FileTree.locate, short_root, FileTree.node?, disk, List.lookup, bind, Except.bind, pure,
    Except.pure]

theorem read_configuration {t : FileTree} {bytes : List UInt8} {st : Stamp}
    (lies : t.node? ["c"] = some (.file bytes st)) : t.read ⟨"/", ["c"]⟩ = .ok bytes := by
  have allowed : Path.nameFault? ⟨"/", ["c"]⟩ = none := rfl
  have fits : Path.isLong ⟨"/", ["c"]⟩ = false := by with_unfolding_all rfl
  have short : Path.isLongName "c" = false := by with_unfolding_all rfl
  rw [FileTree.read, FileTree.find, FileTree.checkPath, allowed, fits]
  simp [FileTree.locate, short, lies, bind, Except.bind, pure, Except.pure]

theorem directory_top (t : FileTree) : t.directory ⟨"/", []⟩ = .ok ⟨"/", []⟩ := by
  have allowed : Path.nameFault? ⟨"/", []⟩ = none := rfl
  have fits : Path.isLong ⟨"/", []⟩ = false := by with_unfolding_all rfl
  rw [FileTree.directory, FileTree.find, FileTree.checkPath, allowed, fits]
  simp [FileTree.locate, FileTree.node?, bind, Except.bind, pure, Except.pure]

theorem modelFiles_disk :
    disk.modelFiles settings.modelRoot = .ok [path "A.tmd", path "B.tmd"] := by
  have sorted : [path "A.tmd", path "B.tmd"].Pairwise fun p q => Path.le p q = true := by
    simp
    with_unfolding_all rfl
  have directory : disk.isDirectory ⟨"/", ["m"]⟩ = .ok true := by
    simp [FileTree.isDirectory, FileTree.find?, find_root, Except.map]
  rw [show settings.modelRoot = ⟨"/", ["m"]⟩ from rfl, FileTree.modelFiles, directory]
  simp only [bind, Except.bind, find_root]
  exact congrArg Except.ok (List.mergeSort_of_pairwise sorted)

theorem loads_user : settings.attempt? disk (path "A.tmd") = some ("A", .file userFile) :=
  (lies_of_node fit_user rfl rfl rfl (by with_unfolding_all rfl) load_user).attempt

theorem loads_used :
    settings.attempt? disk (path "B.tmd") = some ("B", .file (plainFile "B" "B.tmd")) :=
  (lies_of_node fit_used rfl rfl rfl (by with_unfolding_all rfl) (load_plain "B" "B.tmd")).attempt

end Disk

section Configuration

def scalar (text : String) (index line column : Nat) : Event :=
  ⟨.scalar .none text false, ⟨index, line, column⟩⟩

def events : List Event :=
  [⟨.streamStart, .start⟩, ⟨.documentStart, .start⟩, ⟨.mappingStart .none, .start⟩,
    scalar "app" 0 0 0, scalar "a" 7 0 7, scalar "modelRoot" 11 1 0, scalar "/m" 24 1 13,
    scalar "allowCompositePrimaryKey" 29 2 0, scalar "on" 57 2 28, ⟨.mappingEnd, ⟨62, 3, 0⟩⟩,
    ⟨.documentEnd, ⟨62, 3, 0⟩⟩, ⟨.streamEnd, ⟨62, 3, 0⟩⟩]

def node (text : String) (index line column : Nat) : Yaml.Node :=
  ⟨Yaml.Tag.text, .scalar text, ⟨index, line, column⟩⟩

def document : Document :=
  ⟨#[⟨Yaml.Tag.mapping, .mapping [(1, 2), (3, 4), (5, 6)], .start⟩, node "app" 0 0 0,
    node "a" 7 0 7, node "modelRoot" 11 1 0, node "/m" 24 1 13,
    node "allowCompositePrimaryKey" 29 2 0, node "on" 57 2 28], 0⟩

def values : List (Yaml.NodeId × Yaml.Value) :=
  [(6, .text "on"), (5, .text "allowCompositePrimaryKey"), (4, .text "/m"), (3, .text "modelRoot"),
    (2, .text "a"), (1, .text "app")]

theorem stream_written : EventStream.ofText written = ⟨events, none⟩ := by
  cbv

theorem document_written : Document.first? written = .ok (some document) := by
  have composed : Yaml.Compose.document.run ⟨events, none, #[], []⟩ =
      .ok (some 0, ⟨[⟨.documentEnd, ⟨62, 3, 0⟩⟩, ⟨.streamEnd, ⟨62, 3, 0⟩⟩], none,
        document.nodes, []⟩) := rfl
  unfold Document.first?
  rw [stream_written]
  dsimp only
  rw [composed]
  rfl

theorem parse_written : Configuration.parse written = .ok settings := by
  have built : document.build = .ok ⟨document, values⟩ := rfl
  have read : Configuration.ofPairs ⟨document, values⟩ [(1, 2), (3, 4), (5, 6)] = .ok settings :=
    rfl
  have root : Yaml.Built.value ⟨document, values⟩ 0 = .mapping [(1, 2), (3, 4), (5, 6)] := rfl
  simp only [Configuration.parse, document_written, built, Except.mapError, bind, Except.bind]
  rw [show document.root = 0 from rfl, root]
  dsimp only
  rw [read]

theorem load_written : Configuration.load disk ⟨"/", []⟩ (.ofString "/c") = .ok settings := by
  have place : (Path.ofString "/c").under ⟨"/", []⟩ = ⟨"/", ["c"]⟩ := rfl
  have bytes : disk.read ⟨"/", ["c"]⟩ = .ok written.toUTF8.toList := read_configuration rfl
  have text : Text.Utf8.decode written.toUTF8.toList = .ok written := by with_unfolding_all rfl
  have lines : String.ofList (Configuration.withLineFeeds written.toList) = written := rfl
  simp only [Configuration.load, place, bytes, text, lines, parse_written, Except.mapError, bind,
    Except.bind]
  rfl

end Configuration
section Verdict

/-- Only the use that is for nothing is reported. -/
def result : BatchResult :=
  ⟨.ofFiles [userFile, plainFile "B" "B.tmd"], [(0, [complaint 0 .unusedUse]), (1, [])], [1, 0]⟩

theorem healthy :
    Healthy disk ⟨"/", []⟩ "/c" settings [userFile, plainFile "B" "B.tmd"] result where
  configured := load_written
  rooted := by simp [FileTree.isDirectory, FileTree.find?, settings, find_root, Except.map]
  loads := by
    refine ⟨_, modelFiles_disk, ?_, ?_⟩
    · intro p member
      rcases List.mem_pair.mp member with rfl | rfl
      · exact ⟨_, _, loads_user, trivial⟩
      · exact ⟨_, _, loads_used, trivial⟩
    · simp only [Settings.gathered, Settings.file?, List.filterMap_cons, List.filterMap_nil,
        loads_user, loads_used]
      rfl
  resolved := by with_unfolding_all rfl
  clean := by simp [Clean, result, complaint, Finding.diagnostic, Finding.isError]

theorem unlinkedModel : UnlinkedModel disk ⟨"/", []⟩ "/c" := fun _ _ _ _ top _ _ => unlinked top

theorem parse_check : parse ["check", "/c"] = .ok (.run false .check "/c") := rfl

theorem run_disk : ∃ o, run disk ⟨"/", []⟩ ["check", "/c"] [] = .ok (o, []) := by
  obtain ⟨o, checked⟩ := healthy.ends formed (fun top _ _ => unlinked top) false
  refine ⟨o, ?_⟩
  have opens : openStore disk ⟨"/", []⟩ "/c" = .ok (.ok (opened disk settings)) := by
    unfold openStore
    dsimp only
    rw [load_written]
    dsimp only
    rw [healthy.rooted]
    rfl
  simp only [run, directory_top, parse_check, opens, checked, Except.mapError, bind, Except.bind,
    pure, Except.pure]

theorem check_tells_disk :
    (disk.WellFormed ∧ UnlinkedModel disk ⟨"/", []⟩ "/c" ∧
      parse ["check", "/c"] = .ok (.run false .check "/c")) ∧
    ∃ o, run disk ⟨"/", []⟩ ["check", "/c"] [] = .ok (o, []) ∧ o.code = 0 ∧
      o.stdout = "Checked 2 model file(s), 1 warning(s). No errors found.\n" := by
  obtain ⟨o, ended⟩ := run_disk
  obtain ⟨home, found, code, accepted⟩ := check_tells formed unlinkedModel parse_check ended
  rw [directory_top] at found
  obtain rfl := Except.ok.inj found
  refine ⟨⟨formed, unlinkedModel, parse_check⟩, o, ended, code.mpr ⟨_, _, _, healthy⟩, ?_⟩
  have heard : (heardWarnings settings result).length = 1 := rfl
  rw [(accepted _ _ _ healthy).1, heard]
  rfl

end Verdict

end Orderly
end DataModel.CommandLine
