import DataModel.Proofs.Store.Steady
import DataModel.Store.View

/-!
What the loads of a file find, and how it bears on removals. A removal waits from the load that
finds no file until a load finds a text with a file in it; an empty text and one that cannot be
loaded leave it waiting.
-/
namespace DataModel

/-- What a load of a file finds. -/
inductive Found where
  | missing
  | empty
  | failed
  | file (f : ModelFile)

/-- Nothing is staged when an empty text is found, or one that cannot be loaded. -/
def Found.IsIdle : Found → Prop
  | .empty | .failed => True
  | .missing | .file _ => False

namespace Store
variable {s s' : Store} {t : FileTree} {path : Path} {content : Option String}

section Finding

def foundText (s : Store) (name : String) (path : Path) (text : String) : Found :=
  match s.parse name path text with
  | .error _ => .failed
  | .ok none => .empty
  | .ok (some f) => .file f

def found (s : Store) (t : FileTree) (name : String) (path : Path) (content : Option String) :
    Found :=
  match content with
  | some text => s.foundText name path text
  | none =>
    match t.exists? path with
    | .error _ => .failed
    | .ok false => .missing
    | .ok true =>
      match readText t path with
      | .error _ => .failed
      | .ok text => s.foundText name path text

/-- The name for which a file is loaded, and what is found; a path without a name is for none. -/
def attempt? (s : Store) (t : FileTree) (path : Path) (content : Option String) :
    Option (String × Found) :=
  match s.fileName t path with
  | .error _ => none
  | .ok name => some (name, s.found t name path content)

section Known
variable {name text : String}

theorem attempt_missing (named : s.fileName t path = .ok name) (gone : t.exists? path = .ok false) :
    s.attempt? t path none = some (name, .missing) := by
  simp [attempt?, found, named, gone]

theorem attempt_empty (named : s.fileName t path = .ok name)
    (parsed : Grammar.loadText s.settings.app ⟨name, path.toString, text⟩ = .ok none) :
    s.attempt? t path (some text) = some (name, .empty) := by
  simp [attempt?, found, foundText, parse, named, parsed]

theorem attempt_file {f : ModelFile} (named : s.fileName t path = .ok name)
    (parsed : Grammar.loadText s.settings.app ⟨name, path.toString, text⟩ = .ok (some f)) :
    s.attempt? t path (some text) = some (name, .file f) := by
  simp [attempt?, found, foundText, parse, named, parsed]

theorem attempt_read {f : ModelFile} (named : s.fileName t path = .ok name)
    (there : t.exists? path = .ok true) (read : readText t path = .ok text)
    (parsed : Grammar.loadText s.settings.app ⟨name, path.toString, text⟩ = .ok (some f)) :
    s.attempt? t path none = some (name, .file f) := by
  simp [attempt?, found, foundText, parse, named, there, read, parsed]

end Known

/-- What becomes of a store by what a load finds. -/
inductive Loaded (s : Store) (path : Path) : Option (String × Found) → Outcome Unit → Prop
  | missing (name : String) (events : List StoreEvent) :
    Loaded s path (some (name, .missing)) ⟨.ok (), (s.stage name none).clearError path, events⟩
  | empty (name : String) (events : List StoreEvent) :
    Loaded s path (some (name, .empty)) ⟨.ok (), s.clearError path, events⟩
  | file (name : String) (f : ModelFile) (events : List StoreEvent) :
    Loaded s path (some (name, .file f)) ⟨.ok (), (s.stageFile name f).clearError path, events⟩
  | failed {load : Option (String × Found)} {result : Except Interruption Unit}
    {events : List StoreEvent} (failed : ∀ name found, load = some (name, found) → found = .failed)
    (errors : Table LoadError) : Loaded s path load ⟨result, { s with loadErrors := errors }, events⟩

theorem loadText_loaded (s : Store) (name : String) (path : Path) (text : String) :
    Loaded s path (some (name, s.foundText name path text)) (s.loadText name path text) := by
  unfold loadText foundText
  cases s.parse name path text with
  | error f =>
      cases f with
      | rejected r => exact .failed (by rintro _ _ ⟨⟩; rfl) _
      | value f => exact .failed (by rintro _ _ ⟨⟩; rfl) _
  | ok file =>
      cases file with
      | none => exact .empty name _
      | some f => exact .file name f _

/-- A load does with a store what follows from what it finds. -/
theorem loadFile_loaded (s : Store) (t : FileTree) (path : Path) (content : Option String) :
    Loaded s path (s.attempt? t path content) (s.loadFile t path content) := by
  unfold loadFile attempt?
  cases s.fileName t path with
  | error f => exact .failed (fun name found load => by cases load) _
  | ok name =>
      dsimp only
      unfold found
      cases content with
      | some text => exact loadText_loaded s name path text
      | none =>
          cases t.exists? path with
          | error f => exact .failed (by rintro _ _ ⟨⟩; rfl) _
          | ok there =>
              cases there with
              | false => exact .missing name _
              | true =>
                  cases readText t path with
                  | error e => exact .failed (by rintro _ _ ⟨⟩; rfl) _
                  | ok text => exact loadText_loaded s name path text

section Outcomes
variable {name : String} {o : Outcome Unit}

theorem Loaded.of_missing (h : Loaded s path (some (name, .missing)) o) :
    o.result = .ok () ∧ o.store = (s.stage name none).clearError path := by
  cases h with
  | missing _ events => exact ⟨rfl, rfl⟩
  | failed failed errors => cases failed name .missing rfl

theorem Loaded.of_empty (h : Loaded s path (some (name, .empty)) o) :
    o.result = .ok () ∧ o.store = s.clearError path := by
  cases h with
  | empty _ events => exact ⟨rfl, rfl⟩
  | failed failed errors => cases failed name .empty rfl

theorem Loaded.of_file {f : ModelFile} (h : Loaded s path (some (name, .file f)) o) :
    o.result = .ok () ∧ o.store = (s.stageFile name f).clearError path := by
  cases h with
  | file _ _ events => exact ⟨rfl, rfl⟩
  | failed failed errors => cases failed name (.file f) rfl

end Outcomes

end Finding

section Loads

/-- The loads of some files, one after the other, until one is interrupted. -/
def attempts (s : Store) (t : FileTree) : List Path → List (String × Found)
  | [] => []
  | path :: rest =>
    let o := s.loadFile t path none
    (s.attempt? t path none).toList ++
      match o.result with
      | .error _ => []
      | .ok _ => o.store.attempts t rest

end Loads

end Store

theorem Moment.load_loaded (s : Store) (path : Path) (content : Option String) (t : FileTree)
    (watchers : List Watcher) : Store.Loaded { s with watchers } path
      (({ s with watchers } : Store).attempt? t path content)
      (Moment.load ⟨.change path content, t, watchers⟩ s) :=
  Store.loadFile_loaded { s with watchers } t path content

/-- An operation whose loading is not interrupted applies what is pending. -/
theorem Moment.run_store {a : Moment} {s : Store} (ok : (a.load s).result = .ok ()) :
    (a.run s).store = ((a.load s).store.applyUpdates a.tree).store := by
  cases a.run_ends s with
  | early failed _ _ =>
      rw [ok] at failed
      cases failed
  | batch _ _ store _ => exact store

/-- The loads of an operation. -/
def Moment.attempts (a : Moment) (s : Store) : List (String × Found) :=
  match a.operation with
  | .loadAll =>
    match a.tree.modelFiles s.settings.modelRoot with
    | .error _ => []
    | .ok files => ({ s with watchers := a.watchers } : Store).register.store.clear.attempts a.tree files
  | .apply => []
  | .change path content => (s.attempt? a.tree path content).toList

/-- The store after a history that goes on from it. -/
def Store.going (s : Store) (history : List Moment) : Store :=
  history.foldl (fun s a => (a.run s).store) s

theorem Store.after_append (settings : Settings) (history later : List Moment) :
    after settings (history ++ later) = (after settings history).going later :=
  List.foldl_append

/-- The loads of a history that goes on from a store. -/
def Store.loads (s : Store) : List Moment → List (String × Found)
  | [] => []
  | a :: rest => a.attempts s ++ (a.run s).store.loads rest

/-- What the last load for a name found. -/
def lastFound? (loads : List (String × Found)) (name : String) : Option Found :=
  loads.reverse.lookup name

/-- A load found no file of that name, and no load since found one that it could stage. -/
def FoundMissing (loads : List (String × Found)) (name : String) : Prop :=
  ∃ before after, loads = before ++ (name, .missing) :: after ∧
    ∀ found, (name, found) ∈ after → found.IsIdle

theorem Store.loads_snoc (settings : Settings) (history : List Moment) (a : Moment) :
    (Store.new settings []).loads (history ++ [a]) =
      (Store.new settings []).loads history ++ a.attempts (Store.after settings history) := by
  rw [Store.after]
  generalize Store.new settings [] = s
  induction history generalizing s with
  | nil => simp [Store.loads]
  | cons b rest ih => simp [Store.loads, ih]

section Missing
variable {loads : List (String × Found)} {name : String}

theorem FoundMissing.append (h : FoundMissing loads name) {later : List (String × Found)}
    (idle : ∀ found, (name, found) ∈ later → found.IsIdle) : FoundMissing (loads ++ later) name := by
  obtain ⟨before, after, rfl, quiet⟩ := h
  refine ⟨before, after ++ later, by simp, fun found member => ?_⟩
  exact (List.mem_append.mp member).elim (quiet found) (idle found)

/-- If the last load was not idle either, it found the file missing. -/
theorem FoundMissing.last (h : FoundMissing loads name)
    (used : ∀ found, lastFound? loads name = some found → ¬ found.IsIdle) :
    lastFound? loads name = some .missing := by
  obtain ⟨before, after, rfl, quiet⟩ := h
  cases later : after.reverse.lookup name with
  | none => simp [lastFound?, List.lookup_append, later]
  | some found =>
      have last : lastFound? (before ++ (name, .missing) :: after) name = some found := by
        simp [lastFound?, List.lookup_append, later]
      obtain ⟨first, rest, whole, -⟩ := List.lookup_eq_some_iff.mp later
      have member : (name, found) ∈ after := by
        rw [← List.mem_reverse, whole]
        simp
      exact absurd (quiet found member) (used found last)

end Missing

namespace Store
variable {s : Store} {loads : List (String × Found)}

/-- What waits for its removal was found missing. -/
def RemovesMissing (s : Store) (loads : List (String × Found)) : Prop :=
  ∀ name, s.staged.get? name = some none → FoundMissing loads name

theorem RemovesMissing.loadFile (h : s.RemovesMissing loads) (t : FileTree) (path : Path)
    (content : Option String) : (s.loadFile t path content).store.RemovesMissing
      (loads ++ (s.attempt? t path content).toList) := by
  intro name gone
  have loaded := loadFile_loaded s t path content
  generalize s.attempt? t path content = load at loaded ⊢
  generalize s.loadFile t path content = o at loaded gone
  -- what waited already goes on waiting if the load is idle, or for another name
  have waited : ∀ {load : Option (String × Found)}, s.staged.get? name = some none →
      (∀ found, load = some (name, found) → found.IsIdle) →
      FoundMissing (loads ++ load.toList) name := by
    intro load before idle
    refine (h name before).append fun found member => idle found ?_
    simpa using member
  cases loaded with
  | missing n events =>
      rw [clearError, stage, Table.get?_put] at gone
      by_cases same : name = n
      · subst same
        exact ⟨loads, [], rfl, fun found member => absurd member List.not_mem_nil⟩
      · rw [if_neg same] at gone
        refine waited gone ?_
        rintro found ⟨⟩
        exact absurd rfl same
  | empty n events =>
      refine waited gone ?_
      rintro found ⟨⟩
      trivial
  | file n f events =>
      rw [clearError, stageFile, stage, Table.get?_put] at gone
      by_cases same : name = n
      · rw [if_pos same] at gone
        cases gone
      · rw [if_neg same] at gone
        refine waited gone ?_
        rintro found ⟨⟩
        exact absurd rfl same
  | failed failed errors =>
      refine waited gone fun found same => ?_
      rw [failed name found same]
      trivial

theorem RemovesMissing.loadEach (h : s.RemovesMissing loads) (t : FileTree) (paths : List Path) :
    (s.loadEach t paths).store.RemovesMissing (loads ++ s.attempts t paths) := by
  induction paths generalizing s loads with
  | nil =>
      rw [Store.loadEach, attempts, List.append_nil]
      exact h
  | cons path rest ih =>
      have first := h.loadFile t path none
      rw [Store.loadEach, store_andThen, attempts]
      cases (s.loadFile t path none).result with
      | error i =>
          rw [List.append_nil]
          exact first
      | ok u =>
          rw [← List.append_assoc]
          exact ih first

theorem RemovesMissing.load (h : s.RemovesMissing loads) (a : Moment) :
    (a.load s).store.RemovesMissing (loads ++ a.attempts s) := by
  obtain ⟨operation, tree, watchers⟩ := a
  cases operation with
  | loadAll =>
      have cleared : ({ s with watchers } : Store).register.store.clear.RemovesMissing loads := by
        intro name gone
        cases gone
      unfold Moment.load Moment.attempts
      dsimp only
      rw [show ({ s with watchers } : Store).register.store.clear.settings = s.settings from rfl]
      cases tree.modelFiles s.settings.modelRoot with
      | error f =>
          rw [List.append_nil]
          exact cleared
      | ok files => exact cleared.loadEach tree files
  | apply =>
      rw [Moment.attempts, List.append_nil]
      exact h
  | change path content =>
      have same : ({ s with watchers } : Store).RemovesMissing loads := h
      exact same.loadFile tree path content

/-- A batch stages nothing. -/
theorem RemovesMissing.applyUpdates (h : s.RemovesMissing loads) (sound : s.Sound) (t : FileTree) :
    (s.applyUpdates t).store.RemovesMissing loads := by
  intro name gone
  by_cases empty : s.staged = []
  · rw [applyUpdates_of_empty empty] at gone
    exact h name gone
  · obtain ⟨after, -, same⟩ := applyUpdates_applied (t := t) empty
    rw [same] at gone
    rcases s.leftover_cases (s.applyUpdates t).result with none' | removals
    · rw [none'] at gone
      cases gone
    · rw [removals, get?_removals sound.stagedOnce] at gone
      by_cases before : s.staged.get? name = some none
      · exact h name before
      · rw [if_neg before] at gone
        cases gone

theorem RemovesMissing.run (h : s.RemovesMissing loads) (sound : s.Sound) (a : Moment) :
    (a.run s).store.RemovesMissing (loads ++ a.attempts s) := by
  have loaded := h.load a
  cases a.run_ends s with
  | early _ _ store =>
      rw [store]
      exact loaded
  | batch _ _ store _ =>
      rw [store]
      exact loaded.applyUpdates (Moment.load_extends sound a).1 a.tree

/-- Whatever happens, what waits for its removal was found missing, and no file was found since. -/
theorem RemovesMissing.history (h : s.RemovesMissing loads) (sound : s.Sound) (history : List Moment) :
    (s.going history).RemovesMissing (loads ++ s.loads history) := by
  induction history generalizing s loads with
  | nil =>
      rw [Store.loads, List.append_nil]
      exact h
  | cons a rest ih =>
      rw [going, List.foldl_cons, Store.loads, ← List.append_assoc]
      exact ih (h.run sound a) (Moment.run_keeps sound a).1

/-- A file that a batch takes away waited for its removal. -/
theorem staged_of_commit (sound : s.Sound) {b : Batch} {name : String} {v : VersionId}
    (known : s.committed.get? name = some v) (gone : (s.commit b).get? name = none) :
    s.staged.get? name = some none := by
  by_contra stays
  rw [Table.get?_eq_none_iff, commit_eq] at gone
  refine gone (Table.mem_keys_update (Table.mem_keys_of_get? known) fun change => ?_)
  rcases List.mem_append.mp change with removal | put
  · exact stays (Table.get?_of_mem sound.stagedOnce (mem_removals.mp removal).1)
  · obtain ⟨w, -, same⟩ := List.mem_map.mp put
    cases same

/-- A file that is gone after an operation waited for its removal before the batch. -/
theorem staged_of_removed (sound : s.Sound) {a : Moment} {name : String} {v : VersionId}
    (known : (a.load s).store.file? name = some v) (gone : (a.run s).store.file? name = none) :
    (a.load s).store.staged.get? name = some none := by
  have loaded := (Moment.load_extends sound a).1
  have kept : (a.run s).store.committed ≠ (a.load s).store.committed := by
    intro same
    rw [file?, same, ← file?, known] at gone
    cases gone
  cases a.run_ends s with
  | early _ _ store => exact absurd (congrArg committed store) kept
  | batch _ _ store _ =>
      rw [store] at kept gone
      have staged : (a.load s).store.staged ≠ [] := by
        intro empty
        rw [applyUpdates_of_empty empty] at kept
        exact kept rfl
      obtain ⟨after, applied, same⟩ := applyUpdates_applied (t := a.tree) staged
      rw [same] at kept gone
      generalize ((a.load s).store.applyUpdates a.tree).result = result at applied kept gone
      cases applied with
      | interrupted i _ => exact absurd rfl kept
      | rejected _ _ _ _ => exact absurd rfl kept
      | committed _ _ _ _ => exact staged_of_commit loaded known gone

end Store

/-- Whenever a file is removed, a load found it missing, and no load since found it there. -/
theorem foundMissing_of_removed (settings : Settings) (history : List Moment) (a : Moment)
    {name : String} {v : VersionId}
    (known : (a.load (Store.after settings history)).store.file? name = some v)
    (gone : (a.run (Store.after settings history)).store.file? name = none) :
    FoundMissing ((Store.new settings []).loads (history ++ [a])) name := by
  obtain ⟨sound, -⟩ := Store.after_sound settings history
  have start : (Store.new settings []).RemovesMissing [] := fun name gone => by cases gone
  have missing := (start.history (.new settings []) history).load a
  rw [List.nil_append] at missing
  rw [Store.loads_snoc]
  exact missing name (Store.staged_of_removed sound known gone)

/-- A file is only removed while it is missing, unless its last load found an empty text or
failed. -/
theorem removed_while_missing (settings : Settings) (history : List Moment) (a : Moment)
    {name : String} {v : VersionId}
    (known : (a.load (Store.after settings history)).store.file? name = some v)
    (gone : (a.run (Store.after settings history)).store.file? name = none)
    (used : ∀ found, lastFound? ((Store.new settings []).loads (history ++ [a])) name = some found →
      ¬ found.IsIdle) :
    lastFound? ((Store.new settings []).loads (history ++ [a])) name = some .missing :=
  (foundMissing_of_removed settings history a known gone).last used

namespace Retrying
open Relinking (settings path unlinked short_root fileName_top)

/-- A file that needs nothing. -/
def plain : String := "module: M\n"

/-- A file that uses another. -/
def user : String := "module: M\nuses: [B]\n"

def plainFile (name file : String) : ModelFile :=
  ⟨name, (path file).toString, "M", plain, [], [], [], [], [], [], []⟩

def userFile : ModelFile :=
  ⟨"A", "/m/A.tmd", "M", user, [], [⟨"B", 2, 8⟩], [], [], [], [], []⟩

/-- A file is used, and its removal is rejected. -/
def begun : List Moment :=
  [⟨.change (path "B.tmd") (some plain), unlinked, []⟩,
    ⟨.change (path "A.tmd") (some user), unlinked, []⟩,
    ⟨.change (path "B.tmd") none, unlinked, []⟩]

/-- The file is back without a text. -/
def emptied : Moment := ⟨.change (path "B.tmd") (some ""), unlinked, []⟩

/-- The other file does not use it any more. -/
def released : Moment := ⟨.change (path "A.tmd") (some plain), unlinked, []⟩

section Places
variable {t : FileTree} {file : String} {st st' : Stamp} {bytes : List UInt8}

/-- A name that a file in the model root can have. -/
structure Fit (file : String) : Prop where
  allowed : (path file).nameFault? = none
  free : (path file).firstNameFault? = none
  short : Path.isLongName file = false
  fits : (path file).isLong = false
  plain : file ≠ ".."

theorem find_file (fit : Fit file) (top : t.node? ["m"] = some (.directory st))
    (here : t.node? ["m", file] = some (.file bytes st')) :
    t.find (path file) = .ok (["m", file], .file bytes st') := by
  rw [FileTree.find, FileTree.checkPath, fit.allowed, fit.fits]
  simp [FileTree.locate, path, top, here, fit.short, short_root, fit.plain, bind, Except.bind, pure,
    Except.pure]

theorem exists_missing (fit : Fit file) (top : t.node? ["m"] = some (.directory st))
    (here : t.node? ["m", file] = none) : t.exists? (path file) = .ok false := by
  have found : t.find (path file) = .error (.system .missing (path file).toString) := by
    rw [FileTree.find, FileTree.checkPath, fit.allowed, fit.fits]
    simp [FileTree.locate, path, top, here, fit.short, short_root, fit.plain, bind, Except.bind]
    rfl
  simp [FileTree.exists?, FileTree.find?, found, FileFault.cause?, Except.map]

theorem fit_used : Fit "B.tmd" :=
  ⟨rfl, rfl, by with_unfolding_all rfl, by with_unfolding_all rfl, by decide⟩

theorem fit_user : Fit "A.tmd" :=
  ⟨rfl, rfl, by with_unfolding_all rfl, by with_unfolding_all rfl, by decide⟩

/-- A path at which there is no link has its own name. -/
theorem Fit.named {name : String} (fit : Fit file) (top : t.node? ["m"] = some (.directory st))
    (here : t.node? ["m", file] = none ∨
      ∃ bytes st', t.node? ["m", file] = some (.file bytes st'))
    (named : logicalName ⟨"/", ["m"]⟩ (path file) (path file) = name) :
    settings.fileName t ⟨"/", []⟩ (path file) = .ok name :=
  fileName_top fit.free fit.short fit.plain top here named

end Places

section Files

theorem load_plain (name file : String) :
    Grammar.loadText settings.app ⟨name, (path file).toString, plain⟩ =
      .ok (some (plainFile name file)) := by
  cbv

set_option maxRecDepth 2000 in
theorem load_user : Grammar.loadText settings.app ⟨"A", (path "A.tmd").toString, user⟩ =
    .ok (some userFile) := by
  cbv

theorem load_nothing (name file : String) :
    Grammar.loadText settings.app ⟨name, (path file).toString, ""⟩ = .ok none := by
  cbv

theorem name_used : settings.fileName unlinked ⟨"/", []⟩ (path "B.tmd") = .ok "B" :=
  fit_used.named rfl (.inl rfl) rfl

theorem name_user : settings.fileName unlinked ⟨"/", []⟩ (path "A.tmd") = .ok "A" :=
  fit_user.named rfl (.inl rfl) rfl

/-- The user is loaded again. -/
theorem renew_user {s : Store} {m : Model} {view : Table VersionId} {v : VersionId}
    (settled : s.settings = settings) (free : "A" ∉ s.pending) (found : view.get? "A" = some v)
    (known : m.file? v = some userFile) :
    s.renew unlinked (m, view) "A" = .ok ((m.add userFile).1, view.put "A" (m.add userFile).2) :=
  Store.renew_again settled free found known name_user load_user

theorem gone : unlinked.exists? (path "B.tmd") = .ok false :=
  exists_missing fit_used rfl rfl

end Files

section Runs

/-- The used file, and the other one as often as it was loaded. -/
def copies (n : Nat) : Model :=
  ⟨(.fresh 0 (plainFile "B" "B.tmd") :: List.replicate (n + 1) (.fresh 0 userFile)).toArray⟩

/-- What there is to say of the user: it uses a file for nothing, or there is none to use. -/
def complaint (v : VersionId) (f : Finding) : Diagnostic :=
  f.diagnostic v (.file v) (some ⟨"B", 2, 8⟩)

/-- Only the used file is committed. -/
def first : Store := ⟨settings, [], ⟨#[.fresh 0 (plainFile "B" "B.tmd")]⟩, [("B", 0)], [], []⟩

def second : Store := ⟨settings, [], copies 0, [("B", 0), ("A", 1)], [], []⟩

/-- The removal of the used file waits, and so many batches were rejected. -/
def waiting (n : Nat) : Store := ⟨settings, [], copies n, [("B", 0), ("A", 1)], [("B", none)], []⟩

theorem run_first :
    (Moment.run ⟨.change (path "B.tmd") (some plain), unlinked, []⟩ (.new settings [])).store =
      first := by
  have next : (Moment.staging (.new settings []) "B" (path "B.tmd")
      (plainFile "B" "B.tmd")).nextBatch unlinked = .ok ⟨first.model, [("B", 0)], [0]⟩ := rfl
  have done : Batch.resolve ⟨first.model, [("B", 0)], [0]⟩ settings =
      .ok ⟨first.model, [(0, [])], [0]⟩ := rfl
  rw [Moment.run_change (s := .new settings []) name_used (load_plain "B" "B.tmd") next done
    (by simp [Resolution.Clean])]
  rfl

theorem run_second :
    (Moment.run ⟨.change (path "A.tmd") (some user), unlinked, []⟩ first).store = second := by
  have next : (Moment.staging first "A" (path "A.tmd") userFile).nextBatch unlinked =
      .ok ⟨copies 0, [("B", 0), ("A", 1)], [1]⟩ := rfl
  have done : Batch.resolve ⟨copies 0, [("B", 0), ("A", 1)], [1]⟩ settings =
      .ok ⟨copies 0, [(1, [complaint 1 .unusedUse])], [1]⟩ := by with_unfolding_all rfl
  rw [Moment.run_change (s := first) name_user load_user next done
    (by simp [Resolution.Clean, complaint, Finding.diagnostic, Finding.isError])]
  rfl

theorem add_copy (n : Nat) : (copies n).add userFile = (copies (n + 1), n + 2) := by
  have more : List.replicate (n + 2) (Version.fresh 0 userFile) =
      List.replicate (n + 1) (Version.fresh 0 userFile) ++ [Version.fresh 0 userFile] :=
    List.replicate_succ'
  rw [Model.add, copies, copies, more]
  simp
  rfl

/-- The next batch loads the user again, which is to be rejected without the file it uses. -/
theorem nextBatch_waiting (n : Nat) :
    (waiting n).nextBatch unlinked = .ok ⟨copies (n + 1), [("A", n + 2)], [n + 2]⟩ := by
  have view : (waiting n).view = [("A", 1)] := rfl
  have names : (waiting n).batchNames = ["A"] := rfl
  have free : "A" ∉ (waiting n).pending := by
    have waits : (waiting n).pending = ["B"] := rfl
    simp [waits]
  have known : (copies n).file? 1 = some userFile := rfl
  have found : Table.get? [("A", 1)] "A" = some 1 := rfl
  have renewed := renew_user (s := waiting n) rfl free found known
  rw [add_copy] at renewed
  rw [Store.nextBatch_eq, names, view]
  simp only [List.foldlM_cons, List.foldlM_nil, bind, Except.bind]
  rw [show (waiting n).model = copies n from rfl, renewed]
  rfl

theorem applyUpdates_waiting {n : Nat} {d : Diagnostic} (error : d.isError = true)
    (done : Batch.resolve ⟨copies (n + 1), [("A", n + 2)], [n + 2]⟩ settings =
      .ok ⟨copies (n + 1), [(n + 2, [d])], [n + 2]⟩) :
    ((waiting n).applyUpdates unlinked).store = waiting (n + 1) := by
  have staged : (waiting n).staged ≠ [] := List.cons_ne_nil _ _
  rw [Store.applyUpdates_refuses staged rfl (nextBatch_waiting n) done (by simp [error])]
  rfl

theorem run_third :
    (Moment.run ⟨.change (path "B.tmd") none, unlinked, []⟩ second).store = waiting 1 := by
  have attempt := Store.attempt_missing (s := second) name_used gone
  have loaded := Moment.load_loaded second (path "B.tmd") none unlinked []
  obtain ⟨ok, store⟩ := (attempt ▸ loaded).of_missing
  rw [Moment.run_store ok, store]
  exact applyUpdates_waiting (d := complaint 2 .missingFile) rfl rfl

theorem run_emptied : (emptied.run (waiting 1)).store = waiting 2 := by
  have attempt := Store.attempt_empty (s := waiting 1) name_used (load_nothing "B" "B.tmd")
  have loaded := Moment.load_loaded (waiting 1) (path "B.tmd") (some "") unlinked []
  obtain ⟨ok, store⟩ := (attempt ▸ loaded).of_empty
  rw [emptied, Moment.run_store ok, store]
  exact applyUpdates_waiting (d := complaint 3 .missingFile) rfl rfl

/-- When the removal waits no longer for the other file, it takes place. -/
theorem run_released {n : Nat}
    (next : (Moment.staging (waiting n) "A" (path "A.tmd") (plainFile "A" "A.tmd")).nextBatch
      unlinked = .ok ⟨((copies n).add (plainFile "A" "A.tmd")).1, [("A", n + 2)], [n + 2]⟩)
    (done : Batch.resolve ⟨((copies n).add (plainFile "A" "A.tmd")).1, [("A", n + 2)], [n + 2]⟩
      settings = .ok ⟨((copies n).add (plainFile "A" "A.tmd")).1, [(n + 2, [])], [n + 2]⟩) :
    (released.run (waiting n)).store.file? "B" = none := by
  rw [released, Moment.run_change (s := waiting n) name_user (load_plain "A" "A.tmd") next done
    (by simp [Resolution.Clean])]
  have size : n + 2 = ((copies n).add (plainFile "A" "A.tmd")).2 := by rw [Model.add, copies]; simp
  have named : ((copies n).add (plainFile "A" "A.tmd")).1.fileName (n + 2) = "A" := by
    rw [size, Model.fileName, Model.file?, Model.version?_add_new]
    rfl
  show Table.get? (Table.put [("A", 1)] (Model.fileName _ (n + 2)) (n + 2)) "B" = none
  rw [named]
  rfl

theorem after_begun : Store.after settings begun = waiting 1 := by
  have steps : begun = [] ++ [⟨.change (path "B.tmd") (some plain), unlinked, []⟩] ++
      [⟨.change (path "A.tmd") (some user), unlinked, []⟩] ++
      [⟨.change (path "B.tmd") none, unlinked, []⟩] := rfl
  have start : Store.after settings [] = .new settings [] := rfl
  rw [steps, Store.after_snoc, Store.after_snoc, Store.after_snoc, start, run_first, run_second,
    run_third]

theorem after_emptied : Store.after settings (begun ++ [emptied]) = waiting 2 := by
  rw [Store.after_snoc, after_begun, run_emptied]

theorem known_before {n : Nat} : (released.load (waiting n)).store.file? "B" = some 0 := by
  rw [released, Moment.load_change (s := waiting n) name_user (load_plain "A" "A.tmd")]
  rfl

theorem loads_begun : (Store.new settings []).loads begun =
    [("B", .file (plainFile "B" "B.tmd")), ("A", .file userFile), ("B", .missing)] := by
  have used := Store.attempt_file (s := .new settings []) name_used (load_plain "B" "B.tmd")
  have user := Store.attempt_file (s := first) name_user load_user
  have missing := Store.attempt_missing (s := second) name_used gone
  simp [begun, Store.loads, Moment.attempts, run_first, run_second, used, user, missing]

end Runs

/-- A removal that was rejected takes place while the file is still missing. -/
theorem removed_while_missing_released :
    ((released.load (Store.after settings begun)).store.file? "B" = some 0 ∧
      (released.run (Store.after settings begun)).store.file? "B" = none ∧
      ∀ found, lastFound? ((Store.new settings []).loads (begun ++ [released])) "B" = some found →
        ¬ found.IsIdle) ∧
    lastFound? ((Store.new settings []).loads (begun ++ [released])) "B" = some .missing := by
  have released' := Store.attempt_file (s := waiting 1) name_user (load_plain "A" "A.tmd")
  have known : (released.load (Store.after settings begun)).store.file? "B" = some 0 := by
    rw [after_begun, known_before]
  have gone : (released.run (Store.after settings begun)).store.file? "B" = none := by
    rw [after_begun]
    exact run_released rfl rfl
  have last : lastFound? ((Store.new settings []).loads (begun ++ [released])) "B" =
      some .missing := by
    rw [Store.loads_snoc, after_begun, loads_begun]
    simp [released, Moment.attempts, released', lastFound?, List.lookup]
  have used : ∀ found, lastFound? ((Store.new settings []).loads (begun ++ [released])) "B" =
      some found → ¬ found.IsIdle := by
    intro found same
    rw [last] at same
    cases same
    exact not_false
  exact ⟨⟨known, gone, used⟩, removed_while_missing settings begun released known gone used⟩

/-- A removal that was rejected takes place after the file is back without a text. -/
theorem removed_while_empty :
    (released.load (Store.after settings (begun ++ [emptied]))).store.file? "B" = some 0 ∧
    (released.run (Store.after settings (begun ++ [emptied]))).store.file? "B" = none ∧
    lastFound? ((Store.new settings []).loads (begun ++ [emptied] ++ [released])) "B" =
      some .empty := by
  have released' := Store.attempt_file (s := waiting 2) name_user (load_plain "A" "A.tmd")
  have emptied' := Store.attempt_empty (s := waiting 1) name_used (load_nothing "B" "B.tmd")
  refine ⟨?_, ?_, ?_⟩
  · rw [after_emptied, known_before]
  · rw [after_emptied]
    exact run_released rfl rfl
  · rw [Store.loads_snoc, after_emptied, Store.loads_snoc, after_begun, loads_begun]
    simp [released, emptied, Moment.attempts, released', emptied', lastFound?, List.lookup]

end Retrying

end DataModel
