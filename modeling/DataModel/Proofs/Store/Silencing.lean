import DataModel.Proofs.Store.History

/-!
Silenced codes. A store that silences some codes goes through the same results, models, files,
staged changes and load errors as one that silences none: only the warnings of those codes are
missing from what its watchers are told and from its log, errors never are.
-/
namespace DataModel
variable {codes : List Code} {s : Store} {t : FileTree}

/-- The settings with other codes silenced. -/
def Settings.silencing (settings : Settings) (codes : List Code) : Settings :=
  { settings with nowarn := codes }

def Store.silencing (s : Store) (codes : List Code) : Store :=
  { s with settings := s.settings.silencing codes }

/-- An error is heard whatever is silenced. -/
def Diagnostic.isHeard (codes : List Code) (d : Diagnostic) : Bool :=
  d.isError || !codes.contains d.code

/-- What is left of the diagnostics of some files; every file keeps its entry. -/
def heard (codes : List Code) (found : List (VersionId × List Diagnostic)) :
    List (VersionId × List Diagnostic) :=
  found.map fun p => (p.1, p.2.filter (·.isHeard codes))

namespace StoreEvent

def heard (codes : List Code) : StoreEvent → StoreEvent
  | .diagnosed watcher found => .diagnosed watcher (DataModel.heard codes found)
  | e => e

def isWarning : StoreEvent → Bool
  | .log r => r.level == .warning
  | _ => false

end StoreEvent

/-- The events of a store with silenced codes beside those of one that silences none: in the same
order, with less in what watchers are told, and with some logged warnings left out. -/
inductive Hushed (codes : List Code) : List StoreEvent → List StoreEvent → Prop
  | nil : Hushed codes [] []
  | kept (e : StoreEvent) {loud quiet : List StoreEvent} (rest : Hushed codes loud quiet) :
    Hushed codes (e :: loud) (e.heard codes :: quiet)
  | dropped {e : StoreEvent} {loud quiet : List StoreEvent} (warning : e.isWarning = true)
    (rest : Hushed codes loud quiet) : Hushed codes (e :: loud) quiet

namespace Hushed
variable {loud loud' quiet quiet' : List StoreEvent}

theorem append (h : Hushed codes loud quiet) (h' : Hushed codes loud' quiet') :
    Hushed codes (loud ++ loud') (quiet ++ quiet') := by
  induction h with
  | nil => exact h'
  | kept e _ ih => exact .kept e ih
  | dropped warning _ ih => exact .dropped warning ih

theorem same (plain : ∀ e ∈ loud, e.heard codes = e) : Hushed codes loud loud := by
  induction loud with
  | nil => exact .nil
  | cons e rest ih =>
      have here := Hushed.kept e (ih fun e' he => plain e' (List.mem_cons_of_mem _ he))
      rwa [plain e List.mem_cons_self] at here

theorem log (level : Log.Level) (message : String) :
    Hushed codes [Store.logEvent level message] [Store.logEvent level message] :=
  .kept _ .nil

/-- Any of some logged warnings may be left out. -/
theorem warnings {ds ds' : List Diagnostic} (sub : ds'.Sublist ds) (text : Diagnostic → String) :
    Hushed codes (ds.map fun d => Store.logEvent .warning (text d))
      (ds'.map fun d => Store.logEvent .warning (text d)) := by
  induction sub with
  | slnil => exact .nil
  | cons d _ ih => exact .dropped rfl ih
  | cons_cons d _ ih => exact .kept _ ih

end Hushed

/-- An operation of a store with silenced codes does what it does where none is silenced. -/
structure Outcome.Hushes {α : Type} (codes : List Code) (loud quiet : Outcome α) : Prop where
  result : quiet.result = loud.result
  store : quiet.store = loud.store.silencing codes
  audible : loud.store.settings.nowarn = []
  events : Hushed codes loud.events quiet.events

theorem Outcome.Hushes.andThen {α β : Type} {loud quiet : Outcome α}
    (h : loud.Hushes codes quiet) {next next' : α → Store → Outcome β}
    (later : ∀ x s, s.settings.nowarn = [] →
      (next x s).Hushes codes (next' x (s.silencing codes))) :
    (loud.andThen next).Hushes codes (quiet.andThen next') := by
  obtain ⟨result, store, events⟩ := loud
  obtain ⟨result', store', events'⟩ := quiet
  obtain ⟨sameResult, sameStore, audible, told⟩ := h
  dsimp only at sameResult sameStore audible told
  subst sameResult sameStore
  cases result' with
  | error i => exact ⟨rfl, rfl, audible, told⟩
  | ok x =>
      obtain ⟨result', store', audible', told'⟩ := later x store audible
      exact ⟨result', store', audible', told.append told'⟩

section Batches
variable {b : Batch} {settings : Settings}

theorem lookup_heard (codes : List Code) (found : List (VersionId × List Diagnostic))
    (v : VersionId) :
    (heard codes found).lookup v = (found.lookup v).map (·.filter (·.isHeard codes)) := by
  induction found with
  | nil => rfl
  | cons p rest ih =>
      obtain ⟨w, ds⟩ := p
      show ((w, ds.filter (·.isHeard codes)) :: heard codes rest).lookup v = _
      rw [List.lookup_cons, List.lookup_cons]
      cases v == w with
      | true => rfl
      | false => exact ih

theorem flatMap_heard (codes : List Code) (found : List (VersionId × List Diagnostic)) :
    (heard codes found).flatMap (·.2) = (found.flatMap (·.2)).filter (·.isHeard codes) := by
  rw [heard, List.flatMap_map, List.filter_flatMap]

/-- A loop on what is left of a state, if each of its steps is one on what is left. -/
theorem foldlM_image {ε α β γ : Type} {f : β → α → Except ε β} {g : γ → α → Except ε γ}
    (image : β → γ) (step : ∀ y x, g (image y) x = (f y x).map image) (xs : List α) (y : β) :
    xs.foldlM g (image y) = (xs.foldlM f y).map image := by
  induction xs generalizing y with
  | nil => rfl
  | cons x rest ih =>
      rw [List.foldlM_cons, List.foldlM_cons, step]
      cases f y x with
      | error e => rfl
      | ok y' => exact ih y'

/-- What is silenced is only left out of what is found: every turn is the same. -/
theorem Batch.resolveEach_silencing (audible : settings.nowarn = []) (domains : Table Key)
    (ordered : List VersionId) : b.resolveEach (settings.silencing codes) domains ordered =
      (b.resolveEach settings domains ordered).map fun r => (r.1, heard codes r.2) := by
  refine foldlM_image (fun r => (r.1, heard codes r.2)) ?_ ordered (b.model, [])
  rintro ⟨m, found⟩ v
  dsimp only
  rw [show (settings.silencing codes).allowCompositeKeys = settings.allowCompositeKeys from rfl]
  cases m.resolve v (b.dependencies v) domains settings.allowCompositeKeys with
  | error stuck => rfl
  | ok result =>
      obtain ⟨ds, n⟩ := result
      have all : ds.filter (fun d => d.isError || !settings.isSuppressed d.code) = ds := by
        refine List.filter_eq_self.mpr fun d _ => ?_
        rw [Settings.isSuppressed, audible]
        exact Bool.or_true _
      show Except.ok (n, heard codes found ++ [(v, ds.filter (·.isHeard codes))]) = Except.ok (n,
        heard codes (found ++
          [(v, ds.filter fun d => d.isError || !settings.isSuppressed d.code)]))
      rw [all]
      refine congrArg (fun found => Except.ok (n, found)) ?_
      rw [heard, heard, List.map_append]
      rfl

/-- What is left of the result of a batch. -/
def BatchResult.heard (codes : List Code) (r : BatchResult) : BatchResult :=
  { r with found := DataModel.heard codes r.found }

/-- The diagnostics of a circle are errors. -/
theorem heard_of_circle {circle : Graph.Circle}
    (h : Graph.sortVersions b.model b.dependencies b.members = .error circle) (codes : List Code) :
    circle.diagnostic.toList.filter (·.isHeard codes) = circle.diagnostic.toList := by
  rw [Graph.sortVersions] at h
  cases sorting : Graph.sort b.dependencies b.members with
  | ok ordered =>
      rw [sorting] at h
      cases h
  | error versions =>
      rw [sorting] at h
      cases h
      dsimp only [Graph.circleDiagnostic]
      cases versions.head? with
      | none => rfl
      | some first => rfl

theorem Batch.resolve_silencing (audible : settings.nowarn = []) :
    b.resolve (settings.silencing codes) = (b.resolve settings).map (·.heard codes) := by
  have entries : ∀ (m : Model) (found : List (VersionId × List Diagnostic)) (ordered : List VersionId),
      (⟨m, b.members.map fun v => (v, ((heard codes found).lookup v).getD []), ordered⟩ :
        BatchResult) = BatchResult.heard codes
          ⟨m, b.members.map fun v => (v, (found.lookup v).getD []), ordered⟩ := by
    intro m found ordered
    refine congrArg (fun found => BatchResult.mk m found ordered) ?_
    refine Eq.trans (List.map_congr_left fun v _ => ?_) (List.map_map).symm
    rw [lookup_heard, Function.comp]
    cases found.lookup v with
    | none => rfl
    | some ds => rfl
  unfold Batch.resolve
  cases sorting : Graph.sortVersions b.model b.dependencies b.members with
  | error circle =>
      have kept : heard codes (circle.versions.head?.map fun v =>
          (v, circle.diagnostic.toList)).toList =
          (circle.versions.head?.map fun v => (v, circle.diagnostic.toList)).toList := by
        cases circle.versions.head? with
        | none => rfl
        | some v =>
            have heard := heard_of_circle sorting codes
            rw [Option.map_some, Option.toList_some, DataModel.heard, List.map_cons, heard]
            rfl
      have same := entries b.model
        (circle.versions.head?.map fun v => (v, circle.diagnostic.toList)).toList []
      rw [kept] at same
      exact congrArg Except.ok same
  | ok ordered =>
      dsimp only
      rw [resolveEach_silencing audible]
      cases b.resolveEach settings (b.model.domainTable b.view.values) ordered with
      | error stuck => rfl
      | ok result => exact congrArg Except.ok (entries result.1 result.2 ordered)

end Batches

namespace Store

section Applying

/-- Watchers that are told less fail as they do when they are told all. -/
theorem tell_hushes (codes : List Code) (stage : Stage) {event event' : String → StoreEvent}
    (less : ∀ name, event' name = (event name).heard codes) (watchers : List Watcher) :
    (tell stage event' watchers).2 = (tell stage event watchers).2 ∧
      Hushed codes (tell stage event watchers).1 (tell stage event' watchers).1 := by
  induction watchers with
  | nil => exact ⟨rfl, .nil⟩
  | cons w rest ih =>
      rw [tell, tell]
      by_cases failing : w.failing = some stage
      · rw [if_pos failing, if_pos failing, less]
        exact ⟨rfl, .kept _ .nil⟩
      · rw [if_neg failing, if_neg failing, less]
        exact ⟨ih.1, .kept _ ih.2⟩

theorem errors_heard (codes : List Code) (ds : List Diagnostic) :
    (ds.filter (·.isHeard codes)).filter (·.isError) = ds.filter (·.isError) := by
  rw [List.filter_filter]
  refine List.filter_congr fun d _ => ?_
  rw [Diagnostic.isHeard]
  cases d.isError with
  | true => rfl
  | false => rfl

theorem any_error_heard (codes : List Code) (ds : List Diagnostic) :
    (ds.filter (·.isHeard codes)).any (·.isError) = ds.any (·.isError) := by
  rw [List.any_filter]
  congr 1
  funext d
  rw [Diagnostic.isHeard]
  cases d.isError with
  | true => rfl
  | false => exact Bool.and_false _

theorem reportEvents_hushed (codes : List Code) (m : Model) (found : List Diagnostic) :
    Hushed codes (reportEvents m found) (reportEvents m (found.filter (·.isHeard codes))) := by
  unfold reportEvents
  dsimp only
  rw [errors_heard]
  refine ((Hushed.same ?_).append (.warnings ?_ _)).append (.same ?_)
  · intro e he
    obtain ⟨d, -, rfl⟩ := List.mem_map.mp he
    rfl
  · exact (List.filter_sublist).filter _
  · intro e he
    split at he
    · cases he
    · cases List.mem_singleton.mp he
      rfl

theorem nextBatch_silencing (s : Store) (t : FileTree) (codes : List Code) :
    (s.silencing codes).nextBatch t = s.nextBatch t := rfl

/-- The filter stands before watchers and log, and none of it is in the decision. -/
theorem applyBatch_hushes (codes : List Code) (audible : s.settings.nowarn = []) (t : FileTree) :
    (s.applyBatch t).Hushes codes ((s.silencing codes).applyBatch t) := by
  unfold applyBatch
  rw [nextBatch_silencing]
  cases s.nextBatch t with
  | error i => exact ⟨rfl, rfl, audible, .nil⟩
  | ok b =>
      dsimp only
      rw [show (s.silencing codes).settings = s.settings.silencing codes from rfl,
        Batch.resolve_silencing audible]
      cases b.resolve s.settings with
      | error stuck => exact ⟨rfl, rfl, audible, .nil⟩
      | ok r =>
          have less : ∀ name : String, StoreEvent.diagnosed name (heard codes r.found) =
              (StoreEvent.diagnosed name r.found).heard codes := fun _ => rfl
          obtain ⟨failure, told⟩ := tell_hushes codes .errors less s.watchers
          dsimp only [Except.map, BatchResult.heard]
          rw [show (s.silencing codes).watchers = s.watchers from rfl, failure]
          cases (tell .errors (.diagnosed · r.found) s.watchers).2 with
          | some i => exact ⟨rfl, rfl, audible, told⟩
          | none =>
              dsimp only
              rw [flatMap_heard, any_error_heard]
              have report := told.append
                (reportEvents_hushed codes r.model (r.found.flatMap (·.2)))
              by_cases wrong : (r.found.flatMap (·.2)).any (·.isError) = true
              · rw [if_pos wrong, if_pos wrong]
                exact ⟨rfl, rfl, audible, report⟩
              · rw [if_neg wrong, if_neg wrong]
                have same : ∀ name : String, StoreEvent.changed name r.ordered =
                    (StoreEvent.changed name r.ordered).heard codes := fun _ => rfl
                obtain ⟨-, toldFiles⟩ := tell_hushes codes .changed same s.watchers
                have events := (report.append (.log .info
                  s!"Model updated: {r.ordered.length} file(s) resolved")).append toldFiles
                cases (tell .changed (.changed · r.ordered) s.watchers).2 with
                | some i => exact ⟨rfl, rfl, audible, events⟩
                | none => exact ⟨rfl, rfl, audible, events⟩

theorem applyUpdates_hushes (audible : s.settings.nowarn = []) (t : FileTree) :
    (s.applyUpdates t).Hushes codes ((s.silencing codes).applyUpdates t) := by
  have applied := applyBatch_hushes codes audible t
  unfold applyUpdates
  rw [show (s.silencing codes).staged = s.staged from rfl]
  by_cases empty : s.staged.isEmpty = true
  · rw [if_pos empty, if_pos empty]
    exact ⟨rfl, rfl, audible, .nil⟩
  · rw [if_neg empty, if_neg empty]
    dsimp only
    rw [applied.result, show (s.silencing codes).removals = s.removals from rfl]
    refine ⟨rfl, ?_, applied.audible, applied.events⟩
    rw [applied.store]
    rfl

end Applying

section Loading

theorem loadText_hushes (audible : s.settings.nowarn = []) (name : String) (path : Path)
    (text : String) :
    (s.loadText name path text).Hushes codes ((s.silencing codes).loadText name path text) := by
  unfold loadText
  rw [show (s.silencing codes).parse name path text = s.parse name path text from rfl]
  cases s.parse name path text with
  | error f =>
      cases f with
      | rejected r => exact ⟨rfl, rfl, audible, .log _ _⟩
      | value f => exact ⟨rfl, rfl, audible, .nil⟩
  | ok file =>
      cases file with
      | none => exact ⟨rfl, rfl, audible, .log _ _⟩
      | some f => exact ⟨rfl, rfl, audible, .nil⟩

theorem loadFile_hushes (audible : s.settings.nowarn = []) (t : FileTree) (path : Path)
    (content : Option String) :
    (s.loadFile t path content).Hushes codes ((s.silencing codes).loadFile t path content) := by
  unfold loadFile
  rw [show (s.silencing codes).fileName t path = s.fileName t path from rfl]
  cases s.fileName t path with
  | error f => exact ⟨rfl, rfl, audible, .nil⟩
  | ok name =>
      cases content with
      | some text => exact loadText_hushes audible name path text
      | none =>
          dsimp only
          cases t.exists? path with
          | error f => exact ⟨rfl, rfl, audible, .nil⟩
          | ok there =>
              cases there with
              | false => exact ⟨rfl, rfl, audible, .nil⟩
              | true =>
                  dsimp only
                  cases readText t path with
                  | error e => exact ⟨rfl, rfl, audible, .log _ _⟩
                  | ok text => exact loadText_hushes audible name path text

theorem loadEach_hushes (audible : s.settings.nowarn = []) (t : FileTree) (paths : List Path) :
    (s.loadEach t paths).Hushes codes ((s.silencing codes).loadEach t paths) := by
  induction paths generalizing s with
  | nil => exact ⟨rfl, rfl, audible, .nil⟩
  | cons path rest ih =>
      exact (loadFile_hushes audible t path none).andThen fun _ _ audible' => ih audible'

theorem loadModel_hushes (audible : s.settings.nowarn = []) (t : FileTree) :
    (s.loadModel t).Hushes codes ((s.silencing codes).loadModel t) := by
  have begun : Outcome.Hushes codes (⟨.ok (), s.clear, [logEvent .info
        s!"Loading model from {s.settings.modelRoot.toString}"]⟩ : Outcome Unit)
      ⟨.ok (), (s.silencing codes).clear, [logEvent .info
        s!"Loading model from {s.settings.modelRoot.toString}"]⟩ :=
    ⟨rfl, rfl, audible, .log _ _⟩
  unfold loadModel
  refine begun.andThen fun _ s' audible' => ?_
  rw [show (s.silencing codes).settings.modelRoot = s.settings.modelRoot from rfl]
  cases t.modelFiles s.settings.modelRoot with
  | error f => exact ⟨rfl, rfl, audible', .nil⟩
  | ok files =>
      refine (loadEach_hushes audible' t files).andThen fun _ s'' audible'' => ?_
      exact (applyUpdates_hushes audible'' t).andThen fun _ _ last => ⟨rfl, rfl, last, .nil⟩

theorem onFileChanged_hushes (audible : s.settings.nowarn = []) (t : FileTree) (path : Path)
    (content : Option String) : (s.onFileChanged t path content).Hushes codes
      ((s.silencing codes).onFileChanged t path content) := by
  have begun : Outcome.Hushes codes
      (⟨.ok (), s, [logEvent .info s!"Changed: {path.toString}"]⟩ : Outcome Unit)
      ⟨.ok (), s.silencing codes, [logEvent .info s!"Changed: {path.toString}"]⟩ :=
    ⟨rfl, rfl, audible, .log _ _⟩
  unfold onFileChanged
  refine begun.andThen fun _ s' audible' => ?_
  exact (loadFile_hushes audible' t path content).andThen fun _ s'' audible'' =>
    applyUpdates_hushes audible'' t

end Loading

end Store

/-- Every operation hears the silenced codes only where it reports. -/
theorem Moment.run_hushes (a : Moment) (codes : List Code) (audible : s.settings.nowarn = []) :
    (a.run s).Hushes codes (a.run (s.silencing codes)) := by
  obtain ⟨operation, tree, watchers⟩ := a
  have audible' : ({ s with watchers } : Store).settings.nowarn = [] := audible
  unfold Moment.run
  cases operation with
  | loadAll =>
      have registered : ({ s with watchers } : Store).register.Hushes codes
          (({ s with watchers } : Store).silencing codes).register :=
        ⟨rfl, rfl, audible, .log _ _⟩
      refine (registered.andThen fun _ s' audible' => Store.loadModel_hushes audible' tree).andThen
        fun _ _ last => ⟨rfl, rfl, last, .nil⟩
  | apply =>
      exact (Store.applyUpdates_hushes audible' tree).andThen
        fun _ _ last => ⟨rfl, rfl, last, .nil⟩
  | change path content =>
      exact (Store.onFileChanged_hushes audible' tree path content).andThen
        fun _ _ last => ⟨rfl, rfl, last, .nil⟩

namespace Store

theorem after_hushes (settings : Settings) (codes : List Code) (history : List Moment) :
    after (settings.silencing codes) history =
        (after (settings.silencing []) history).silencing codes ∧
      (after (settings.silencing []) history).settings.nowarn = [] := by
  induction history using List.reverseRecOn with
  | nil => exact ⟨rfl, rfl⟩
  | append_singleton before a ih =>
      have ran := a.run_hushes codes ih.2
      rw [after_snoc, after_snoc, ih.1]
      exact ⟨ran.store, ran.audible⟩

/-- Two stores whose settings differ in the silenced codes alone go through a history side by side:
but for these codes they are equal before and after every operation, the operation ends in the same
way, and the events of both are those of a store that silences nothing, with the warnings of the
codes of each left out. -/
theorem silencing_only_hushes (settings : Settings) (codes codes' : List Code)
    (history : List Moment) (a : Moment) :
    let loud := a.run (after (settings.silencing []) history)
    let s := after (settings.silencing codes) history
    let s' := after (settings.silencing codes') history
    (s' = s.silencing codes' ∧ (a.run s').store = (a.run s).store.silencing codes') ∧
      (a.run s').result = (a.run s).result ∧
      Hushed codes loud.events (a.run s).events ∧ Hushed codes' loud.events (a.run s').events := by
  intro loud s s'
  obtain ⟨same, audible⟩ := after_hushes settings codes history
  obtain ⟨same', -⟩ := after_hushes settings codes' history
  have ran := a.run_hushes codes audible
  have ran' := a.run_hushes codes' audible
  rw [← same] at ran
  rw [← same'] at ran'
  refine ⟨⟨?_, ?_⟩, ?_, ran.events, ran'.events⟩
  · show after (settings.silencing codes') history =
      (after (settings.silencing codes) history).silencing codes'
    rw [same', same]
    rfl
  · rw [ran'.store, ran.store]
    rfl
  · rw [ran'.result, ran.result]

end Store
end DataModel
