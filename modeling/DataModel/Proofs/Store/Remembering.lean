import DataModel.Proofs.Store.Separating

/-!
What a store remembers of its loads. A load that fails is noted by the text of its path, and the
note goes when a file loads from a path of the same text; so the notes tell of each text how its last
load ended. They tell it of each file only as long as a file goes by one text.
-/
namespace DataModel

/-- How a load of a file ends. -/
inductive Ending where
  | loaded
  | failed (e : LoadError)
  | interrupted (i : Interruption)

/-- A load of a file, by the name that the file has there and then. -/
structure Trial where
  path : Path
  name : String
  ending : Ending

def Trial.key (a : Trial) : String := a.path.toString

namespace Store
variable {s : Store} {t : FileTree} {path : Path} {content : Option String}

section Loading

def textEnding (s : Store) (name : String) (path : Path) (text : String) : Ending :=
  match s.parse name path text with
  | .error (.rejected r) => .failed (.rejected r)
  | .error (.value f) => .interrupted (.source (.value f))
  | .ok _ => .loaded

/-- A missing file is loaded as one. -/
def ending (s : Store) (t : FileTree) (name : String) (path : Path) (content : Option String) :
    Ending :=
  match content with
  | some text => s.textEnding name path text
  | none =>
    match t.exists? path with
    | .error f => .interrupted (.file f)
    | .ok false => .loaded
    | .ok true =>
      match readText t path with
      | .error e => .failed e
      | .ok text => s.textEnding name path text

/-- A path without a name stands for no file. -/
def trial? (s : Store) (t : FileTree) (path : Path) (content : Option String) : Option Trial :=
  match s.fileName t path with
  | .error _ => none
  | .ok name => some ⟨path, name, s.ending t name path content⟩

/-- What is noted after a load. -/
def note (errors : Table LoadError) (a : Trial) : Table LoadError :=
  match a.ending with
  | .loaded => errors.erase a.key
  | .failed e => errors.put a.key e
  | .interrupted _ => errors

theorem loadText_note (s : Store) (name : String) (path : Path) (text : String) :
    (s.loadText name path text).store.loadErrors =
      note s.loadErrors ⟨path, name, s.textEnding name path text⟩ := by
  unfold loadText textEnding
  cases s.parse name path text with
  | error f =>
      cases f with
      | rejected r => rfl
      | value f => rfl
  | ok file =>
      cases file with
      | none => rfl
      | some f => rfl

theorem loadFile_note (s : Store) (t : FileTree) (path : Path) (content : Option String) :
    (s.loadFile t path content).store.loadErrors =
      (s.trial? t path content).toList.foldl note s.loadErrors := by
  unfold loadFile trial? ending
  cases s.fileName t path with
  | error f => rfl
  | ok name =>
      cases content with
      | some text => exact loadText_note s name path text
      | none =>
          dsimp only
          cases t.exists? path with
          | error f => rfl
          | ok there =>
              cases there with
              | false => rfl
              | true =>
                  dsimp only
                  cases readText t path with
                  | error e => rfl
                  | ok text => exact loadText_note s name path text

/-- The loads of some files, one after the other, until one is interrupted. -/
def fileTrials (s : Store) (t : FileTree) : List Path → List Trial
  | [] => []
  | path :: rest =>
    let o := s.loadFile t path none
    (s.trial? t path none).toList ++
      match o.result with
      | .error _ => []
      | .ok _ => o.store.fileTrials t rest

theorem loadEach_note (s : Store) (t : FileTree) (paths : List Path) :
    (s.loadEach t paths).store.loadErrors = (s.fileTrials t paths).foldl note s.loadErrors := by
  induction paths generalizing s with
  | nil => rfl
  | cons path rest ih =>
      rw [loadEach, store_andThen, fileTrials, List.foldl_append, ← loadFile_note]
      cases (s.loadFile t path none).result with
      | error i => rfl
      | ok u => exact ih _

end Loading

end Store

namespace Moment
variable {a : Moment} {s : Store}

/-- The loads of an operation. -/
def trials (a : Moment) (s : Store) : List Trial :=
  match a.operation with
  | .loadAll =>
    match a.tree.modelFiles s.settings.modelRoot with
    | .error _ => []
    | .ok files =>
      ({ s with watchers := a.watchers } : Store).register.store.clear.fileTrials a.tree files
  | .apply => []
  | .change path content => (s.trial? a.tree path content).toList

/-- Loading everything forgets the loads before. -/
def kept (a : Moment) (before : List Trial) : List Trial :=
  match a.operation with
  | .loadAll => []
  | .apply | .change .. => before

/-- What is noted after an operation comes from the loads that are not forgotten, and its own. -/
theorem run_note {before : List Trial} (noted : s.loadErrors = before.foldl Store.note []) :
    (a.run s).store.loadErrors = (a.kept before ++ a.trials s).foldl Store.note [] := by
  have loaded : (a.load s).store.loadErrors =
      (a.kept before ++ a.trials s).foldl Store.note [] := by
    obtain ⟨operation, tree, watchers⟩ := a
    cases operation with
    | loadAll =>
        unfold load trials kept
        dsimp only
        rw [show ({ s with watchers } : Store).register.store.clear.settings = s.settings from rfl]
        cases tree.modelFiles s.settings.modelRoot with
        | error f => rfl
        | ok files => exact Store.loadEach_note _ tree files
    | apply =>
        rw [kept, trials, List.append_nil]
        exact noted
    | change path content =>
        rw [kept, trials, List.foldl_append, ← noted]
        exact Store.loadFile_note { s with watchers } tree path content
  cases a.run_ends s with
  | early _ _ store => rw [store, loaded]
  | batch _ _ store _ => rw [store, Store.applyUpdates_loadErrors, loaded]

end Moment

namespace Store
variable {s : Store} {settings : Settings} {history : List Moment} {t : FileTree} {key name : String}
  {e : LoadError} {a b : Trial} {done old : List Trial}

section Histories

/-- The loads of a history that goes on from a store. -/
def trials (s : Store) : List Moment → List Trial
  | [] => []
  | a :: rest => a.trials s ++ (a.run s).store.trials rest

/-- The loads since everything was loaded, after some before. -/
def recent (s : Store) (before : List Trial) : List Moment → List Trial
  | [] => before
  | a :: rest => (a.run s).store.recent (a.kept before ++ a.trials s) rest

theorem recent_note (noted : s.loadErrors = old.foldl note []) (history : List Moment) :
    (s.going history).loadErrors = (s.recent old history).foldl note [] := by
  induction history generalizing s old with
  | nil => exact noted
  | cons a rest ih => exact ih (Moment.run_note noted)

/-- What is noted after a history is what its loads since everything was loaded note. -/
theorem loadErrors_after (settings : Settings) (history : List Moment) :
    (after settings history).loadErrors = ((new settings []).recent [] history).foldl note [] :=
  recent_note rfl history

theorem recent_suffix (s : Store) (before : List Trial) (history : List Moment) :
    s.recent before history <:+ before ++ s.trials history := by
  induction history generalizing s before with
  | nil => simp [recent, trials]
  | cons a rest ih =>
      have kept : a.kept before <:+ before := by
        unfold Moment.kept
        cases a.operation with
        | loadAll => exact List.nil_suffix
        | apply => exact List.suffix_rfl
        | change path content => exact List.suffix_rfl
      obtain ⟨gone, whole⟩ := kept
      refine (ih _ _).trans ⟨gone, ?_⟩
      rw [trials, ← List.append_assoc, ← List.append_assoc, whole, List.append_assoc]

end Histories

section Notes

/-- The last load by a text that was not interrupted failed. -/
def LastFailed (done : List Trial) (key : String) (e : LoadError) : Prop :=
  ∃ early a late, done = early ++ a :: late ∧ a.key = key ∧ a.ending = .failed e ∧
    ∀ b ∈ late, b.key = key → ∃ i, b.ending = .interrupted i

/-- The last load for a name. -/
def Latest (done : List Trial) (name : String) (a : Trial) : Prop :=
  ∃ early late, done = early ++ a :: late ∧ a.name = name ∧ ∀ b ∈ late, b.name ≠ name

theorem lastFailed_snoc : LastFailed (done ++ [a]) key e ↔
    (a.key = key ∧ a.ending = .failed e) ∨
      ((a.key = key → ∃ i, a.ending = .interrupted i) ∧ LastFailed done key e) := by
  constructor
  · rintro ⟨early, b, late, whole, here, failed, quiet⟩
    rcases List.eq_nil_or_concat' late with rfl | ⟨late, last, rfl⟩
    · obtain ⟨-, same⟩ := List.append_inj' whole rfl
      cases same
      exact .inl ⟨here, failed⟩
    · rw [← List.cons_append, ← List.append_assoc] at whole
      obtain ⟨rfl, same⟩ := List.append_inj' whole rfl
      cases same
      refine .inr ⟨quiet _ (List.mem_append_right _ (List.mem_singleton_self _)), early, b, late, rfl,
        here, failed, fun c inside => quiet c (List.mem_append_left _ inside)⟩
  · rintro (⟨here, failed⟩ | ⟨last, early, b, late, rfl, here, failed, quiet⟩)
    · exact ⟨done, a, [], rfl, here, failed, nofun⟩
    · refine ⟨early, b, late ++ [a], by simp, here, failed, fun c inside => ?_⟩
      rcases List.mem_append.mp inside with before | new
      · exact quiet c before
      · exact List.mem_singleton.mp new ▸ last

/-- Noted is each text whose last load failed. -/
theorem get?_notes (done : List Trial) (key : String) (e : LoadError) :
    (done.foldl note []).get? key = some e ↔ LastFailed done key e := by
  induction done using List.reverseRecOn with
  | nil =>
      constructor
      · nofun
      · rintro ⟨early, a, late, whole, -⟩
        cases early <;> cases whole
  | append_singleton done a ih =>
      rw [List.foldl_append, List.foldl_cons, List.foldl_nil, lastFailed_snoc, ← ih, note]
      by_cases here : key = a.key
      · subst here
        cases a.ending with
        | loaded => simp [Table.get?_erase]
        | failed e' => simp [Table.get?_put]
        | interrupted i => simp
      · have other : a.key ≠ key := fun same => here same.symm
        cases a.ending with
        | loaded => simp [Table.get?_erase, here, other]
        | failed e' => simp [Table.get?_put, here, other]
        | interrupted i => simp [other]

theorem exists_latest (member : b ∈ done) (named : b.name = name) : ∃ a, Latest done name a := by
  induction done using List.reverseRecOn with
  | nil => cases member
  | append_singleton done c ih =>
      by_cases last : c.name = name
      · exact ⟨c, done, [], rfl, last, nofun⟩
      · have before : b ∈ done := by
          refine (List.mem_append.mp member).resolve_right fun same => last ?_
          exact List.mem_singleton.mp same ▸ named
        obtain ⟨a, early, late, rfl, here, others⟩ := ih before
        refine ⟨a, early, late ++ [c], by simp, here, fun d inside => ?_⟩
        rcases List.mem_append.mp inside with late' | new
        · exact others d late'
        · exact List.mem_singleton.mp new ▸ last

theorem Latest.mem (h : Latest done name a) : a ∈ done ∧ a.name = name := by
  obtain ⟨early, late, rfl, here, -⟩ := h
  exact ⟨by simp, here⟩

theorem Latest.append_left (h : Latest done name a) (old : List Trial) :
    Latest (old ++ done) name a := by
  obtain ⟨early, late, rfl, here, others⟩ := h
  exact ⟨old ++ early, late, by simp, here, others⟩

theorem Latest.unique (h : Latest done name a) (h' : Latest done name b) : a = b := by
  obtain ⟨early, late, rfl, here, others⟩ := h
  obtain ⟨early', late', whole, here', others'⟩ := h'
  rcases List.append_eq_append_iff.mp whole with ⟨more, rfl, tail⟩ | ⟨more, rfl, tail⟩
  · cases more with
    | nil => exact (List.cons.inj tail).1
    | cons c more =>
        obtain ⟨-, rfl⟩ := List.cons.inj tail
        exact absurd here' (others b (by simp))
  · cases more with
    | nil => exact (List.cons.inj tail).1.symm
    | cons c more =>
        obtain ⟨-, rfl⟩ := List.cons.inj tail
        exact absurd here (others' a (by simp))

end Notes

section Reflecting

/-- Loads of a file that are all told apart from the others by the text of its path: the file goes
by one text, the text still stands for it, the last load was not interrupted, and if that failed,
it was not forgotten. -/
structure Traced (settings : Settings) (t : FileTree) (name : String) (done recent : List Trial) :
    Prop where
  spelt : ∀ a ∈ recent, ∀ b ∈ recent, a.name = name → b.name = name → a.key = b.key
  steady : ∀ a ∈ recent, settings.fileName t ⟨"/", []⟩ (.ofString a.key) = .ok name ↔ a.name = name
  told : ∀ a, Latest done name a → ∀ i, a.ending ≠ .interrupted i
  kept : ∀ a, Latest done name a → a.ending ≠ .loaded → ∃ b ∈ recent, b.name = name

/-- The store notes of a file whether its last load failed. -/
theorem Traced.noted_iff {recent : List Trial} (h : Traced settings t name done recent)
    (suffix : recent <:+ done) :
    (∃ key e, (recent.foldl note []).get? key = some e ∧
        settings.fileName t ⟨"/", []⟩ (.ofString key) = .ok name) ↔
      ∃ a, Latest done name a ∧ a.ending ≠ .loaded := by
  obtain ⟨old, rfl⟩ := suffix
  constructor
  · rintro ⟨key, e, noted, named⟩
    obtain ⟨early, a, late, whole, rfl, failed, quiet⟩ := (get?_notes recent key e).mp noted
    have member : a ∈ recent := by
      rw [whole]
      simp
    have here : a.name = name := (h.steady a member).mp named
    obtain ⟨b, latest⟩ := exists_latest member here
    obtain ⟨inside, here'⟩ := latest.mem
    -- the last load for the name is that of the note, or one after it that was interrupted
    have last : Latest recent name a := by
      refine ⟨early, late, whole, here, fun c later same => ?_⟩
      obtain ⟨c', early', late', rfl, named', others⟩ := exists_latest later same
      have inside' : c' ∈ recent := by
        rw [whole]
        simp
      obtain ⟨i, stopped⟩ := quiet c' (by simp) (h.spelt c' inside' a member named' here)
      have latest' : Latest recent name c' :=
        ⟨early ++ a :: early', late', by rw [whole]; simp, named', others⟩
      exact h.told c' (latest'.append_left old) i stopped
    exact ⟨a, last.append_left old, by rw [failed]; nofun⟩
  · rintro ⟨a, latest, failed⟩
    obtain ⟨b, member, named⟩ := h.kept a latest failed
    obtain ⟨a', latest'⟩ := exists_latest member named
    obtain rfl := latest.unique (latest'.append_left old)
    obtain ⟨inside, here⟩ := latest'.mem
    obtain ⟨early, late, whole, -, others⟩ := latest'
    cases ending : a.ending with
    | loaded => exact absurd ending failed
    | interrupted i => exact absurd ending (h.told a latest i)
    | failed e =>
        refine ⟨a.key, e, (get?_notes recent a.key e).mpr ?_, (h.steady a inside).mpr here⟩
        refine ⟨early, a, late, whole, rfl, ending, fun c later same => ?_⟩
        have inside' : c ∈ recent := by
          rw [whole]
          exact List.mem_append_right _ (List.mem_cons_of_mem _ later)
        refine absurd ((h.steady c inside').mp ?_) (others c later)
        rw [same]
        exact (h.steady a inside).mpr here

end Reflecting

end Store

/-- After any history, what is noted of each text of a path is how the last load by it ended that
was not interrupted, since everything was loaded; and of a file that goes by one text, which still
stands for it, whether its last load failed. -/
theorem noted_of_failed (settings : Settings) (history : List Moment) (t : FileTree) (name : String) :
    let s := Store.after settings history
    let done := (Store.new settings []).trials history
    let recent := (Store.new settings []).recent [] history
    (∀ key e, s.loadErrors.get? key = some e ↔ Store.LastFailed recent key e) ∧
    (Store.Traced settings t name done recent →
      ((∃ key e, s.loadErrors.get? key = some e ∧
          settings.fileName t ⟨"/", []⟩ (.ofString key) = .ok name) ↔
        ∃ a, Store.Latest done name a ∧ a.ending ≠ .loaded)) := by
  intro s done recent
  have noted : s.loadErrors = recent.foldl Store.note [] := Store.loadErrors_after settings history
  rw [noted]
  exact ⟨Store.get?_notes recent, fun traced => traced.noted_iff (Store.recent_suffix _ [] history)⟩

namespace Recalling
open Relinking (settings path unlinked short_root)
open Retrying (plain plainFile load_plain name_used name_user)

/-- A text that is refused. -/
def aliased : String := "*x"

def refusal : LoadError := .rejected ⟨.aliasUsed, 1, 1⟩

/-- Another way to the same file. -/
def around : Path := ⟨"/", ["m", "..", "m", "B.tmd"]⟩

/-- A file is refused, and another one is loaded. -/
def refused : List Moment :=
  [⟨.change (path "B.tmd") (some aliased), unlinked, []⟩,
    ⟨.change (path "A.tmd") (some plain), unlinked, []⟩]

/-- A file is refused, and loaded on another way. -/
def mended : List Moment :=
  [⟨.change (path "B.tmd") (some aliased), unlinked, []⟩,
    ⟨.change around (some plain), unlinked, []⟩]

section Trials
variable {s : Store}

theorem name_around : settings.fileName unlinked ⟨"/", []⟩ around = .ok "B" := by
  have free : Path.firstNameFault? ⟨"/", ["m", "..", "m", "B.tmd"]⟩ = none := rfl
  have freeRoot : Path.firstNameFault? ⟨"/", ["m"]⟩ = none := rfl
  have short : Path.isLongName "B.tmd" = false := by with_unfolding_all rfl
  have name : logicalName ⟨"/", ["m"]⟩ (path "B.tmd") ⟨"/", ["m", "..", "m", "B.tmd"]⟩ = "B" := rfl
  simp [Settings.fileName, Settings.places, FileTree.resolve, FileTree.withoutLinks,
    FileTree.locate, FileTree.node?, unlinked, around, settings, Path.isAbsolute, Path.under,
    Path.collapseDots, List.lookup, free, freeRoot, short, short_root, bind, Except.bind,
    pure, Except.pure]
  exact name

theorem trial_refused (same : s.settings = settings) :
    s.trial? unlinked (path "B.tmd") (some aliased) = some ⟨path "B.tmd", "B", .failed refusal⟩ := by
  have text : Grammar.loadText settings.app ⟨"B", (path "B.tmd").toString, aliased⟩ =
      .error (.rejected ⟨.aliasUsed, 1, 1⟩) := by cbv
  rw [Store.trial?, Store.fileName, same, name_used]
  simp only [Store.ending, Store.textEnding, Store.parse, same, text]
  rfl

theorem trial_user (same : s.settings = settings) :
    s.trial? unlinked (path "A.tmd") (some plain) = some ⟨path "A.tmd", "A", .loaded⟩ := by
  rw [Store.trial?, Store.fileName, same, name_user]
  simp only [Store.ending, Store.textEnding, Store.parse, same, load_plain "A" "A.tmd"]

theorem trial_around (same : s.settings = settings) :
    s.trial? unlinked around (some plain) = some ⟨around, "B", .loaded⟩ := by
  have text : ∃ f, Grammar.loadText settings.app ⟨"B", around.toString, plain⟩ = .ok f := ⟨_, by cbv⟩
  obtain ⟨f, text⟩ := text
  rw [Store.trial?, Store.fileName, same, name_around]
  simp only [Store.ending, Store.textEnding, Store.parse, same, text]

theorem settings_run (a : Moment) : (a.run (.new settings [])).store.settings = settings :=
  (Moment.run_keeps (.new settings []) a).2.1

/-- The loads of two changes, neither of which loads everything. -/
theorem trials_pair {p q : Path} {text text' : String} {a b : Trial}
    (first : ∀ {s : Store}, s.settings = settings → s.trial? unlinked p (some text) = some a)
    (second : ∀ {s : Store}, s.settings = settings → s.trial? unlinked q (some text') = some b) :
    let history : List Moment :=
      [⟨.change p (some text), unlinked, []⟩, ⟨.change q (some text'), unlinked, []⟩]
    (Store.new settings []).trials history = [a, b] ∧
      (Store.new settings []).recent [] history = [a, b] := by
  constructor
  · simp only [Store.trials, Moment.trials]
    rw [first rfl, second (settings_run _)]
    rfl
  · simp only [Store.recent, Moment.trials, Moment.kept]
    rw [first rfl, second (settings_run _)]
    rfl

end Trials

/-- A file whose last load was refused is noted. -/
theorem noted_of_failed_refused :
    let s := Store.after settings refused
    Store.Traced settings unlinked "B" ((Store.new settings []).trials refused)
      ((Store.new settings []).recent [] refused) ∧
    ∃ key e, s.loadErrors.get? key = some e ∧
      settings.fileName unlinked ⟨"/", []⟩ (.ofString key) = .ok "B" := by
  intro s
  obtain ⟨trials, recent⟩ : (Store.new settings []).trials refused = _ ∧
      (Store.new settings []).recent [] refused = _ := trials_pair trial_refused trial_user
  have last : Store.Latest ((Store.new settings []).trials refused) "B"
      ⟨path "B.tmd", "B", .failed refusal⟩ := by
    rw [trials]
    exact ⟨[], _, rfl, rfl, by simp⟩
  have used : settings.fileName unlinked ⟨"/", []⟩ (.ofString (path "B.tmd").toString) = .ok "B" :=
    name_used
  have user : settings.fileName unlinked ⟨"/", []⟩ (.ofString (path "A.tmd").toString) = .ok "A" :=
    name_user
  have traced : Store.Traced settings unlinked "B" ((Store.new settings []).trials refused)
      ((Store.new settings []).recent [] refused) := by
    refine ⟨?_, ?_, fun a latest i => ?_, fun a latest _ => ?_⟩
    · rw [recent]
      simp
    · rw [recent]
      simp [Trial.key, used, user]
    · rw [latest.unique last]
      nofun
    · rw [recent]
      simp
  refine ⟨traced, ?_⟩
  obtain ⟨-, noted⟩ := noted_of_failed settings refused unlinked "B"
  exact (noted traced).mpr ⟨_, last, nofun⟩

/-- The note of a file stays when it loads on another way. -/
theorem noted_while_loaded :
    (Store.after settings mended).loadErrors.get? "/m/B.tmd" = some refusal ∧
    settings.fileName unlinked ⟨"/", []⟩ (.ofString "/m/B.tmd") = .ok "B" ∧
    Store.Latest ((Store.new settings []).trials mended) "B" ⟨around, "B", .loaded⟩ := by
  obtain ⟨trials, recent⟩ : (Store.new settings []).trials mended = _ ∧
      (Store.new settings []).recent [] mended = _ := trials_pair trial_refused trial_around
  refine ⟨?_, name_used, ?_⟩
  · rw [Store.loadErrors_after, recent]
    rfl
  · rw [trials]
    exact ⟨[_], [], rfl, rfl, nofun⟩

end Recalling

end DataModel
