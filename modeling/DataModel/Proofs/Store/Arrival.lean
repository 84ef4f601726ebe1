import DataModel.Proofs.Store.Sources

/-!
How the committed files come to be those of the disk. A call for a changed file whose batch is
committed brings the file to the disk's text; a removal that is rejected waits until a later batch
is committed; and no batch moves a file that is right already. A change whose batch is rejected is
dropped, and the file must be called for again.
-/
namespace DataModel

/-- A model file with a text is on the disk, under a name. -/
def OnDisk (settings : Settings) (t : FileTree) (name source : String) : Prop :=
  ∃ files path f, t.modelFiles settings.modelRoot = .ok files ∧ path ∈ files ∧
    settings.fileName t ⟨"/", []⟩ path = .ok name ∧ t.exists? path = .ok true ∧
    Store.readText t path = .ok source ∧
    Grammar.loadText settings.app ⟨name, path.toString, source⟩ = .ok (some f)

/-- What is loaded for a path, from the disk. -/
def Settings.attempt? (settings : Settings) (t : FileTree) (path : Path) :
    Option (String × Found) := (Store.new settings []).attempt? t path none

/-- What a load of a path finds is what is on the disk under its name. -/
structure Truthful (settings : Settings) (t : FileTree) (path : Path) : Prop where
  present : ∀ name f, settings.attempt? t path = some (name, .file f) →
    OnDisk settings t name f.source
  absent : ∀ name, settings.attempt? t path = some (name, .missing) → ∀ source,
    ¬ OnDisk settings t name source

/-- A call for a path, with those who watch at its time. -/
abbrev Call := Path × List Watcher

namespace Call
variable (c : Call) (settings : Settings) (t : FileTree)

def moment (t : FileTree) (c : Call) : Moment := ⟨.change c.1 none, t, c.2⟩

/-- A call that is not interrupted early is answered as its batch is. -/
theorem answer {c : Call} {s : Store} {t : FileTree} (ok : ((c.moment t).load s).result = .ok ()) :
    ((c.moment t).run s).result =
      (((c.moment t).load s).store.applyUpdates t).result.map some := by
  have loaded : (({ s with watchers := c.2 } : Store).loadFile t c.1 none).result = .ok () := ok
  refine (Moment.result_andThen_ok _ _).trans ?_
  simp only [Store.onFileChanged, Outcome.andThen, moment, Moment.load, loaded]

/-- A call finds a file, or finds it missing. -/
def Tells (name : String) : Prop :=
  ∃ found, settings.attempt? t c.1 = some (name, found) ∧ ¬ found.IsIdle

/-- No later call tells of the file that a call finds. -/
def Last (later : List Call) : Prop :=
  ∃ name f, settings.attempt? t c.1 = some (name, .file f) ∧
    ∀ c' ∈ later, ¬ c'.Tells settings t name

end Call

/-- What answers yes has applied what was pending. -/
theorem Moment.run_yes {s : Store} {a : Moment} (yes : (a.run s).result = .ok (some true)) :
    (a.run s).store = ((a.load s).store.applyUpdates a.tree).store ∧
      ((a.load s).store.applyUpdates a.tree).result = .ok true := by
  cases a.run_ends s with
  | early _ result _ =>
      rw [result] at yes
      cases yes
  | batch _ result store told =>
      refine ⟨store, ?_⟩
      rw [result] at yes
      cases answer : ((a.load s).store.applyUpdates a.tree).result with
      | error i =>
          rw [answer] at yes
          cases yes
      | ok x =>
          rw [answer] at yes
          rw [(told x true (Except.ok.inj yes)).1]

namespace Store
variable {s s' : Store} {t : FileTree} {name : String}

/-- A committed file has the text that is on the disk, and nothing waits for it. -/
structure Agrees (s : Store) (t : FileTree) (name : String) : Prop where
  free : s.staged.get? name = none
  same : ∀ source, s.source? name = some source ↔ OnDisk s.settings t name source

/-- A file that agrees with the disk, or waits for its removal since it is not there. -/
inductive Rests (s : Store) (t : FileTree) (name : String) : Prop
  | right (agrees : s.Agrees t name)
  | leaving (gone : s.staged.get? name = some none)
    (absent : ∀ source, ¬ OnDisk s.settings t name source)

/-- A file that waits for its batch with the text that is on the disk. -/
def Arrives (s : Store) (t : FileTree) (name : String) : Prop :=
  ∃ v source, s.staged.get? name = some (some v) ∧ s.sourceOf? v = some source ∧
    OnDisk s.settings t name source

section Applying

/-- A batch moves no file that rests. -/
theorem Rests.applyUpdates (h : s.Rests t name) (sound : s.Sound)
    (keeps : (s.applyUpdates t).store.committed ≠ s.committed → s.KeepsNames t) :
    (s.applyUpdates t).store.Rests t name := by
  have moves := applyUpdates_moves sound keeps
  have settings := (applyUpdates_keeps sound t).2.1
  have left := s.leftover_cases (s.applyUpdates t).result
  generalize (s.applyUpdates t).result = result at moves left
  generalize (s.applyUpdates t).store = s' at moves settings ⊢
  have removals := get?_removals sound.stagedOnce name
  cases h with
  | right agrees =>
      obtain ⟨free, same⟩ := agrees
      rw [free, if_neg nofun] at removals
      rw [← settings] at same
      cases moves with
      | idle _ => exact .right ⟨free, same⟩
      | stays _ staged sources => exact .right ⟨staged ▸ removals, by rwa [sources]⟩
      | done staged sources =>
          have source := sources name
          rw [free] at source
          refine .right ⟨?_, by rwa [source]⟩
          rw [staged]
          rcases left with none' | rest
          · rw [none']
            rfl
          · rw [rest, removals]
  | leaving gone absent =>
      rw [gone, if_pos rfl] at removals
      rw [← settings] at absent
      cases moves with
      | idle _ => exact .leaving gone absent
      | stays _ staged _ => exact .leaving (staged ▸ removals) absent
      | done staged sources =>
          have source := sources name
          rw [gone] at source
          rcases left with none' | rest
          · refine .right ⟨by rw [staged, none']; rfl, fun text => ?_⟩
            simp [source, absent text]
          · exact .leaving (by rw [staged, rest, removals]) absent

/-- A file arrives when its batch is committed. -/
theorem Arrives.applyUpdates (h : s.Arrives t name) (sound : s.Sound)
    (once : ∀ source source', OnDisk s.settings t name source →
      OnDisk s.settings t name source' → source = source')
    (keeps : (s.applyUpdates t).store.committed ≠ s.committed → s.KeepsNames t)
    (answer : (s.applyUpdates t).result = .ok true) :
    (s.applyUpdates t).store.Agrees t name := by
  obtain ⟨v, text, came, read, there⟩ := h
  have moves := applyUpdates_moves sound keeps
  have settings := (applyUpdates_keeps sound t).2.1
  rw [answer] at moves
  generalize (s.applyUpdates t).store = s' at moves settings ⊢
  cases moves with
  | idle empty =>
      rw [empty] at came
      cases came
  | stays told _ _ => exact absurd rfl told
  | done staged sources =>
      have source := sources name
      rw [came] at source
      refine ⟨by rw [staged]; rfl, fun other => ?_⟩
      rw [source, settings]
      constructor
      · intro same
        rw [← Option.some.inj (read.symm.trans same)]
        exact there
      · intro there'
        rw [once other text there' there]
        exact read

theorem applyUpdates_idle (answer : (s.applyUpdates t).result = .ok true) :
    (s.applyUpdates t).store.staged = [] := by
  by_cases empty : s.staged = []
  · rw [applyUpdates_of_empty empty]
    exact empty
  · obtain ⟨after, -, same⟩ := applyUpdates_applied (t := t) empty
    rw [same, answer]
    rfl

/-- Where nothing waits, nothing is left to leave. -/
theorem Rests.agrees (h : s.Rests t name) (idle : s.staged = []) : s.Agrees t name := by
  cases h with
  | right agrees => exact agrees
  | leaving gone _ =>
      rw [idle] at gone
      cases gone

end Applying

section Loading
variable {path : Path}

theorem Rests.same (h : s.Rests t name) (staged : s'.staged.get? name = s.staged.get? name)
    (source : s'.source? name = s.source? name) (settings : s'.settings = s.settings) :
    s'.Rests t name := by
  cases h with
  | right agrees =>
      refine .right ⟨staged.trans agrees.free, ?_⟩
      rw [source, settings]
      exact agrees.same
  | leaving gone absent =>
      refine .leaving (staged.trans gone) ?_
      rwa [settings]

/-- A load moves no file that rests, unless it finds the file. -/
theorem Rests.loadFile (h : s.Rests t name) (sound : s.Sound) (truthful : Truthful s.settings t path)
    (other : ∀ f, s.attempt? t path none ≠ some (name, .file f)) :
    (s.loadFile t path none).store.Rests t name := by
  have loaded := loadFile_loaded s t path none
  have extends' := (loadFile_keeps sound t path none).1
  have source := extends'.source? sound name
  have settings := extends'.settings
  have absent : s.attempt? t path none = some (name, .missing) → ∀ source,
      ¬ OnDisk s.settings t name source := truthful.absent name
  generalize s.attempt? t path none = load at loaded other absent
  generalize s.loadFile t path none = o at loaded source settings ⊢
  cases loaded with
  | missing n events =>
      by_cases same : name = n
      · subst same
        refine .leaving ?_ (absent rfl)
        exact (Table.get?_put ..).trans (if_pos rfl)
      · exact h.same ((Table.get?_put ..).trans (if_neg same)) source settings
  | empty n events => exact h.same rfl source settings
  | file n f events =>
      by_cases same : name = n
      · subst same
        exact absurd rfl (other f)
      · exact h.same ((Table.get?_put ..).trans (if_neg same)) source settings
  | failed failed errors => exact h.same rfl source settings

/-- A file that is found missing waits for its removal. -/
theorem loadFile_leaves (truthful : Truthful s.settings t path)
    (missing : s.attempt? t path none = some (name, .missing)) :
    (s.loadFile t path none).store.Rests t name := by
  have loaded := loadFile_loaded s t path none
  rw [missing] at loaded
  rw [loaded.of_missing.2]
  exact .leaving ((Table.get?_put ..).trans (if_pos rfl)) (truthful.absent name missing)

/-- A file that is found waits with its text. -/
theorem loadFile_arrives {f : ModelFile} (truthful : Truthful s.settings t path)
    (there : s.attempt? t path none = some (name, .file f)) :
    (s.loadFile t path none).store.Arrives t name := by
  have loaded := loadFile_loaded s t path none
  rw [there] at loaded
  rw [loaded.of_file.2]
  refine ⟨(s.model.add f).2, f.source, (Table.get?_put ..).trans (if_pos rfl), ?_,
    truthful.present name f there⟩
  have new : ((s.stageFile name f).clearError path).model.version? (s.model.add f).2 =
      some (.fresh (s.model.add f).2 f) := Model.version?_add_new s.model f
  rw [sourceOf?, Model.file?, new]
  rfl

end Loading

/-- A batch that holds only what waits loads nothing again. -/
theorem keepsNames_of_pending (all : ∀ name ∈ s.batchNames, name ∈ s.pending) : s.KeepsNames t :=
  fun name inside free => absurd (all name inside) free

section Calls
variable {c : Call} {later : List Call}

/-- After a call, a file rests if it did before or if the call told of it, provided that a found
file comes to be committed. -/
theorem call_rests (sound : s.Sound) (truthful : Truthful s.settings t c.1)
    (once : ∀ source source', OnDisk s.settings t name source →
      OnDisk s.settings t name source' → source = source')
    (keeps : ((c.moment t).run s).store.committed ≠ ((c.moment t).load s).store.committed →
      ((c.moment t).load s).store.KeepsNames t)
    (yes : ∀ f, s.settings.attempt? t c.1 = some (name, .file f) →
      ((c.moment t).run s).result = .ok (some true))
    (h : s.Rests t name ∨ c.Tells s.settings t name) : ((c.moment t).run s).store.Rests t name := by
  have loaded := (Moment.load_extends sound (c.moment t)).1
  have settings := Moment.load_settings sound (c.moment t)
  have same : ({ s with watchers := c.2 } : Store).Sound := sound.ofSame rfl rfl rfl rfl
  by_cases there : ∃ f, s.settings.attempt? t c.1 = some (name, .file f)
  · obtain ⟨f, there⟩ := there
    obtain ⟨store, answer⟩ := Moment.run_yes (yes f there)
    have arrives : ((c.moment t).load s).store.Arrives t name :=
      loadFile_arrives (s := { s with watchers := c.2 }) truthful there
    rw [store] at keeps ⊢
    rw [← settings] at once
    exact .right (arrives.applyUpdates loaded once keeps answer)
  · have other : ∀ f, s.settings.attempt? t c.1 ≠ some (name, .file f) := fun f found =>
      there ⟨f, found⟩
    have rests : ((c.moment t).load s).store.Rests t name := by
      rcases h with rests | ⟨found, told, used⟩
      · have rests' : ({ s with watchers := c.2 } : Store).Rests t name := rests.same rfl rfl rfl
        exact rests'.loadFile same truthful other
      · cases found with
        | missing => exact loadFile_leaves (s := { s with watchers := c.2 }) truthful told
        | empty => exact absurd trivial used
        | failed => exact absurd trivial used
        | file f => exact absurd told (other f)
    cases (c.moment t).run_ends s with
    | early _ _ store =>
        rw [store]
        exact rests
    | batch _ _ store _ =>
        rw [store] at keeps ⊢
        exact rests.applyUpdates loaded keeps

/-- After calls that tell of every file that does not rest, every file does, provided that the last
call for a file that is there is answered with yes. -/
theorem calls_rest {calls : List Call} (sound : s.Sound)
    (truthful : ∀ c ∈ calls, Truthful s.settings t c.1)
    (once : ∀ name source source', OnDisk s.settings t name source →
      OnDisk s.settings t name source' → source = source')
    (keeps : ∀ before c later, calls = before ++ c :: later →
      let s' := s.going (before.map (Call.moment t))
      ((c.moment t).run s').store.committed ≠ ((c.moment t).load s').store.committed →
        ((c.moment t).load s').store.KeepsNames t)
    (yes : ∀ before c later, calls = before ++ c :: later → c.Last s.settings t later →
      ((c.moment t).run (s.going (before.map (Call.moment t)))).result = .ok (some true))
    (told : ∀ name, s.Rests t name ∨ ∃ c ∈ calls, c.Tells s.settings t name) (name : String) :
    (s.going (calls.map (Call.moment t))).Rests t name := by
  induction calls generalizing s with
  | nil => exact (told name).resolve_right (by simp)
  | cons c later ih =>
      have settings := (Moment.run_keeps sound (c.moment t)).2.1
      have step := ih (s := ((c.moment t).run s).store) (Moment.run_keeps sound (c.moment t)).1
      rw [settings] at step
      refine step (fun c' member => truthful c' (List.mem_cons_of_mem _ member)) once ?_ ?_ ?_
      · intro before c' after whole
        exact keeps (c :: before) c' after (by rw [whole]; rfl)
      · intro before c' after whole
        exact yes (c :: before) c' after (by rw [whole]; rfl)
      · intro name'
        by_cases again : ∃ c' ∈ later, c'.Tells s.settings t name'
        · exact .inr again
        · refine .inl (call_rests sound (truthful c List.mem_cons_self) (once name')
            (keeps [] c later rfl) (fun f there => ?_) ?_)
          · exact yes [] c later rfl ⟨name', f, there, fun c' member tells => again ⟨c', member, tells⟩⟩
          · rcases told name' with rests | ⟨c', member, tells⟩
            · exact .inl rests
            · rcases List.mem_cons.mp member with rfl | after
              · exact .inr tells
              · exact absurd ⟨c', after, tells⟩ again

end Calls

end Store

/-- However files were changed, created and deleted since they were committed: if calls tell of every
file that does not agree with the disk, in any order, and if the last call for each file that is
there is answered with yes, and so is the last of all, then the committed files have the names and
the texts of the disk. -/
theorem committed_on_disk (settings : Settings) (history : List Moment) (t : FileTree)
    (calls : List Call) (truthful : ∀ c ∈ calls, Truthful settings t c.1)
    (once : ∀ name source source', OnDisk settings t name source → OnDisk settings t name source' →
      source = source')
    (told : ∀ name, (Store.after settings history).Agrees t name ∨
      ∃ c ∈ calls, c.Tells settings t name)
    (yes : ∀ before c later, calls = before ++ c :: later → later = [] ∨ c.Last settings t later →
      ((c.moment t).run (Store.after settings (history ++ before.map (Call.moment t)))).result =
        .ok (some true))
    (keeps : ∀ before c later, calls = before ++ c :: later →
      let s := Store.after settings (history ++ before.map (Call.moment t))
      ((c.moment t).run s).store.committed ≠ ((c.moment t).load s).store.committed →
        ((c.moment t).load s).store.KeepsNames t) (name source : String) :
    (Store.after settings (history ++ calls.map (Call.moment t))).source? name = some source ↔
      OnDisk settings t name source := by
  obtain ⟨sound, same⟩ := Store.after_sound settings history
  have rests : (Store.after settings (history ++ calls.map (Call.moment t))).Rests t name := by
    rw [Store.after_append]
    refine Store.calls_rest sound ?_ ?_ ?_ ?_ ?_ name
    · rwa [same]
    · rwa [same]
    · intro before c later whole
      have kept := keeps before c later whole
      rwa [Store.after_append] at kept
    · intro before c later whole last
      rw [same] at last
      have answer := yes before c later whole (.inr last)
      rwa [Store.after_append] at answer
    · intro name
      rw [same]
      exact (told name).imp_left .right
  have agrees : (Store.after settings (history ++ calls.map (Call.moment t))).Agrees t name := by
    rcases List.eq_nil_or_concat' calls with rfl | ⟨before, c, rfl⟩
    · rw [List.map_nil, List.append_nil]
      exact (told name).resolve_right (by simp)
    · refine rests.agrees ?_
      have answer := yes before c [] rfl (.inl rfl)
      rw [List.map_append, ← List.append_assoc, List.map_singleton, Store.after_snoc,
        (Moment.run_yes answer).1]
      exact Store.applyUpdates_idle (Moment.run_yes answer).2
  have after := agrees.same source
  rwa [(Store.after_sound settings _).2] at after

namespace Arriving
open Relinking (settings path unlinked short_root)
open Retrying
  (plain user plainFile userFile load_plain load_user complaint Fit find_file exists_missing fit_used
    fit_user)

section Places
variable {t : FileTree} {file name text : String} {st st' : Stamp} {bytes : List UInt8}

/-- A model file that lies in the model root under its own name. -/
structure Lies (t : FileTree) (file name text : String) (f : ModelFile) : Prop where
  named : settings.fileName t ⟨"/", []⟩ (path file) = .ok name
  there : t.exists? (path file) = .ok true
  read : Store.readText t (path file) = .ok text
  parsed : Grammar.loadText settings.app ⟨name, (path file).toString, text⟩ = .ok (some f)

theorem lies_of_node {f : ModelFile} (fit : Fit file) (top : t.node? ["m"] = some (.directory st))
    (here : t.node? ["m", file] = some (.file bytes st'))
    (named : logicalName ⟨"/", ["m"]⟩ (path file) (path file) = name)
    (decoded : Source.decodeText bytes = .ok text)
    (parsed : Grammar.loadText settings.app ⟨name, (path file).toString, text⟩ = .ok (some f)) :
    Lies t file name text f := by
  have found := find_file fit top here
  refine ⟨fit.named top (.inr ⟨_, _, here⟩) named, ?_, ?_, parsed⟩
  · simp [FileTree.exists?, FileTree.find?, found, Except.map]
  · simp [Store.readText, FileTree.read, found, decoded, bind, Except.bind, pure, Except.pure,
      Except.mapError]

theorem Lies.attempt {f : ModelFile} (h : Lies t file name text f) :
    settings.attempt? t (path file) = some (name, .file f) :=
  Store.attempt_read (s := .new settings []) h.named h.there h.read h.parsed

end Places

/-- A file that uses another, and the other one. -/
def disk : FileTree :=
  ⟨[(["m"], .directory (.changes 0)), (["m", "A.tmd"], .file user.toUTF8.toList (.time 0)),
    (["m", "B.tmd"], .file plain.toUTF8.toList (.time 0))], 0, 0⟩

def callUser : Call := (path "A.tmd", [])

def callUsed : Call := (path "B.tmd", [])

/-- A file that was committed is gone. -/
def callOld : Call := (path "C.tmd", [])

section Disk

theorem lies_user : Lies disk "A.tmd" "A" user userFile :=
  lies_of_node fit_user rfl rfl rfl (by with_unfolding_all rfl) load_user

theorem lies_used : Lies disk "B.tmd" "B" plain (plainFile "B" "B.tmd") :=
  lies_of_node fit_used rfl rfl rfl (by with_unfolding_all rfl) (load_plain "B" "B.tmd")

theorem fit_old : Fit "C.tmd" :=
  ⟨rfl, rfl, by with_unfolding_all rfl, by with_unfolding_all rfl, by decide⟩

theorem attempt_old : settings.attempt? disk (path "C.tmd") = some ("C", .missing) :=
  Store.attempt_missing (s := .new settings []) (fit_old.named rfl (.inl rfl) rfl)
    (exists_missing fit_old rfl rfl)

theorem modelFiles_disk :
    disk.modelFiles settings.modelRoot = .ok [path "A.tmd", path "B.tmd"] := by
  have allowed : Path.nameFault? ⟨"/", ["m"]⟩ = none := rfl
  have fits : Path.isLong ⟨"/", ["m"]⟩ = false := by with_unfolding_all rfl
  have found : disk.find ⟨"/", ["m"]⟩ = .ok (["m"], .directory (.changes 0)) := by
    rw [FileTree.find, FileTree.checkPath, allowed, fits]
    simp [FileTree.locate, short_root, FileTree.node?, disk, List.lookup, bind, Except.bind, pure,
      Except.pure]
  have directory : disk.isDirectory ⟨"/", ["m"]⟩ = .ok true := by
    simp [FileTree.isDirectory, FileTree.find?, found, Except.map]
  have root : settings.modelRoot = ⟨"/", ["m"]⟩ := rfl
  have sorted : [path "A.tmd", path "B.tmd"].Pairwise fun p q => Path.le p q = true := by
    simp
    with_unfolding_all rfl
  rw [root, FileTree.modelFiles, directory]
  simp only [bind, Except.bind, found]
  exact congrArg Except.ok (List.mergeSort_of_pairwise sorted)

theorem onDisk_iff {name source : String} : OnDisk settings disk name source ↔
    (name = "A" ∧ source = user) ∨ (name = "B" ∧ source = plain) := by
  constructor
  · rintro ⟨files, p, f, known, member, named, -, read, -⟩
    rw [modelFiles_disk] at known
    cases known
    rcases List.mem_pair.mp member with rfl | rfl
    · rw [lies_user.named] at named
      rw [lies_user.read] at read
      cases named
      cases read
      exact .inl ⟨rfl, rfl⟩
    · rw [lies_used.named] at named
      rw [lies_used.read] at read
      cases named
      cases read
      exact .inr ⟨rfl, rfl⟩
  · rintro (⟨rfl, rfl⟩ | ⟨rfl, rfl⟩)
    · exact ⟨_, _, _, modelFiles_disk, List.mem_cons_self, lies_user.named, lies_user.there,
        lies_user.read, lies_user.parsed⟩
    · exact ⟨_, _, _, modelFiles_disk, List.mem_cons_of_mem _ List.mem_cons_self, lies_used.named,
        lies_used.there, lies_used.read, lies_used.parsed⟩

end Disk

section Runs
variable {s : Store} {t : FileTree} {p : Path} {name : String} {f : ModelFile} {b : Batch}
  {r : BatchResult}

theorem loadFile_found (there : s.attempt? t p none = some (name, .file f)) :
    (s.loadFile t p none).result = .ok () ∧
      (s.loadFile t p none).store = (s.stageFile name f).clearError p := by
  have loaded := Store.loadFile_loaded s t p none
  rw [there] at loaded
  exact loaded.of_file

theorem load_call (there : s.attempt? t p none = some (name, .file f)) :
    ((Call.moment t (p, [])).load s).result = .ok () ∧
      ((Call.moment t (p, [])).load s).store = Moment.staging s name p f :=
  loadFile_found (s := { s with watchers := [] }) there

/-- A call whose batch is committed while nobody watches. -/
theorem call_commits (there : s.attempt? t p none = some (name, .file f))
    (next : (Moment.staging s name p f).nextBatch t = .ok b) (resolved : b.resolve s.settings = .ok r)
    (clean : Resolution.Clean (r.found.flatMap (·.2))) :
    ((Call.moment t (p, [])).run s).result = .ok (some true) ∧
    ((Call.moment t (p, [])).run s).store = { Moment.staging s name p f with
      model := r.model, committed := (Moment.staging s name p f).commit b, staged := [] } := by
  obtain ⟨ok, store⟩ := load_call there
  have staged : (Moment.staging s name p f).staged ≠ [] := by
    intro empty
    have member : name ∈ (Moment.staging s name p f).staged.keys := Table.mem_keys_put.mpr (.inl rfl)
    rw [empty] at member
    cases member
  constructor
  · rw [Call.answer ok, store, Store.applyUpdates_answers staged rfl next resolved clean]
    rfl
  · rw [Moment.run_store ok, store]
    exact Store.applyUpdates_quiet staged rfl next resolved clean

/-- One file is committed, and the disk holds others. -/
def old : List Moment := [⟨.change (path "C.tmd") (some plain), unlinked, []⟩]

def versions : List Version :=
  [.fresh 0 (plainFile "C" "C.tmd"), .fresh 0 (plainFile "B" "B.tmd"), .fresh 0 userFile]

def first : Store := ⟨settings, [], ⟨(versions.take 1).toArray⟩, [("C", 0)], [], []⟩

def second : Store := ⟨settings, [], ⟨(versions.take 1).toArray⟩, [], [], []⟩

def third : Store := ⟨settings, [], ⟨(versions.take 2).toArray⟩, [("B", 1)], [], []⟩

def fourth : Store := ⟨settings, [], ⟨versions.toArray⟩, [("B", 1), ("A", 2)], [], []⟩

theorem after_old : Store.after settings old = first := by
  have named : settings.fileName unlinked ⟨"/", []⟩ (path "C.tmd") = .ok "C" :=
    fit_old.named rfl (.inl rfl) rfl
  have next : (Moment.staging (.new settings []) "C" (path "C.tmd")
      (plainFile "C" "C.tmd")).nextBatch unlinked = .ok ⟨first.model, [("C", 0)], [0]⟩ := rfl
  have done : Batch.resolve ⟨first.model, [("C", 0)], [0]⟩ settings =
      .ok ⟨first.model, [(0, [])], [0]⟩ := rfl
  have steps : old = [] ++ old := rfl
  rw [steps, old, Store.after_snoc]
  refine (Moment.run_change (s := .new settings []) named (load_plain "C" "C.tmd") next done
    (by simp [Resolution.Clean])).trans ?_
  rfl

theorem load_old : ((callOld.moment disk).load first).result = .ok () ∧
    ((callOld.moment disk).load first).store = { first with staged := [("C", none)] } := by
  have loaded := Moment.load_loaded first (path "C.tmd") none disk []
  have missing : ({ first with watchers := [] } : Store).attempt? disk (path "C.tmd") none =
      some ("C", .missing) := attempt_old
  rw [missing] at loaded
  exact loaded.of_missing

theorem run_old : ((callOld.moment disk).run first).result = .ok (some true) ∧
    ((callOld.moment disk).run first).store = second := by
  obtain ⟨ok, store⟩ := load_old
  constructor
  · rw [Call.answer ok, store]
    rfl
  · rw [Moment.run_store ok, store]
    rfl

theorem run_used : ((callUsed.moment disk).run second).result = .ok (some true) ∧
    ((callUsed.moment disk).run second).store = third := by
  have next : (Moment.staging second "B" (path "B.tmd") (plainFile "B" "B.tmd")).nextBatch disk =
      .ok ⟨third.model, [("B", 1)], [1]⟩ := rfl
  have done : Batch.resolve ⟨third.model, [("B", 1)], [1]⟩ settings =
      .ok ⟨third.model, [(1, [])], [1]⟩ := rfl
  exact call_commits (s := second) lies_used.attempt next done (by simp [Resolution.Clean])

theorem run_user : ((callUser.moment disk).run third).result = .ok (some true) ∧
    ((callUser.moment disk).run third).store = fourth := by
  have next : (Moment.staging third "A" (path "A.tmd") userFile).nextBatch disk =
      .ok ⟨fourth.model, [("B", 1), ("A", 2)], [2]⟩ := rfl
  have done : Batch.resolve ⟨fourth.model, [("B", 1), ("A", 2)], [2]⟩ settings =
      .ok ⟨fourth.model, [(2, [complaint 2 .unusedUse])], [2]⟩ := by with_unfolding_all rfl
  exact call_commits (s := third) lies_user.attempt next done
    (by simp [Resolution.Clean, complaint, Finding.diagnostic, Finding.isError])

theorem after_call_old : Store.after settings (old ++ [callOld].map (Call.moment disk)) = second := by
  rw [List.map_singleton, Store.after_snoc, after_old, run_old.2]

theorem after_call_used :
    Store.after settings (old ++ [callOld, callUsed].map (Call.moment disk)) = third := by
  have steps : old ++ [callOld, callUsed].map (Call.moment disk) =
      old ++ [callOld].map (Call.moment disk) ++ [callUsed.moment disk] := rfl
  rw [steps, Store.after_snoc, after_call_old, run_used.2]

end Runs

/-- The calls for the disk: the file that is gone, the one that is used, and the one that uses it. -/
def calls : List Call := [callOld, callUsed, callUser]

theorem split_calls {before later : List Call} {c : Call} (h : calls = before ++ c :: later) :
    (before = [] ∧ c = callOld) ∨ (before = [callOld] ∧ c = callUsed) ∨
      (before = [callOld, callUsed] ∧ c = callUser) := by
  rcases before with - | ⟨b₁, - | ⟨b₂, - | ⟨b₃, rest⟩⟩⟩
  · cases h
    exact .inl ⟨rfl, rfl⟩
  · cases h
    exact .inr (.inl ⟨rfl, rfl⟩)
  · cases h
    exact .inr (.inr ⟨rfl, rfl⟩)
  · simp [calls] at h

theorem Lies.truthful {file name text : String} {f : ModelFile} (h : Lies disk file name text f)
    (there : OnDisk settings disk name f.source) : Truthful settings disk (path file) := by
  constructor
  · intro name' f' found
    rw [h.attempt] at found
    cases found
    exact there
  · intro name' missing
    rw [h.attempt] at missing
    cases missing

theorem truthful_calls : ∀ c ∈ calls, Truthful settings disk c.1 := by
  intro c member
  simp only [calls, List.mem_cons, List.not_mem_nil, or_false] at member
  rcases member with rfl | rfl | rfl
  · constructor
    · intro name f found
      rw [callOld, attempt_old] at found
      cases found
    · intro name missing source there
      rw [callOld, attempt_old] at missing
      cases missing
      rcases onDisk_iff.mp there with ⟨other, -⟩ | ⟨other, -⟩
      · simp at other
      · simp at other
  · exact lies_used.truthful (onDisk_iff.mpr (.inr ⟨rfl, rfl⟩))
  · exact lies_user.truthful (onDisk_iff.mpr (.inl ⟨rfl, rfl⟩))

theorem once_disk : ∀ name source source', OnDisk settings disk name source →
    OnDisk settings disk name source' → source = source' := by
  intro name source source' there there'
  rcases onDisk_iff.mp there with ⟨rfl, rfl⟩ | ⟨rfl, rfl⟩
  · rcases onDisk_iff.mp there' with ⟨-, rfl⟩ | ⟨other, -⟩
    · rfl
    · simp at other
  · rcases onDisk_iff.mp there' with ⟨other, -⟩ | ⟨-, rfl⟩
    · simp at other
    · rfl

theorem told_calls : ∀ name, (Store.after settings old).Agrees disk name ∨
    ∃ c ∈ calls, c.Tells settings disk name := by
  intro name
  rw [after_old]
  by_cases isOld : name = "C"
  · exact .inr ⟨callOld, by simp [calls], .missing, isOld ▸ attempt_old, id⟩
  by_cases isUsed : name = "B"
  · exact .inr ⟨callUsed, by simp [calls], .file _, isUsed ▸ lies_used.attempt, id⟩
  by_cases isUser : name = "A"
  · exact .inr ⟨callUser, by simp [calls], .file _, isUser ▸ lies_user.attempt, id⟩
  refine .inl ⟨rfl, fun source => ?_⟩
  have unknown : first.source? name = none := by
    simp [Store.source?, Store.file?, first, Table.get?_cons, isOld]
  have settings' : first.settings = settings := rfl
  simp [unknown, settings', onDisk_iff, isUsed, isUser]

theorem yes_calls : ∀ before c later, calls = before ++ c :: later →
    ((c.moment disk).run (Store.after settings (old ++ before.map (Call.moment disk)))).result =
      .ok (some true) := by
  intro before c later whole
  rcases split_calls whole with ⟨rfl, rfl⟩ | ⟨rfl, rfl⟩ | ⟨rfl, rfl⟩
  · rw [List.map_nil, List.append_nil, after_old]
    exact run_old.1
  · rw [after_call_old]
    exact run_used.1
  · rw [after_call_used]
    exact run_user.1

/-- No batch loads a committed file again. -/
theorem keeps_calls : ∀ before c later, calls = before ++ c :: later →
    ((c.moment disk).load
      (Store.after settings (old ++ before.map (Call.moment disk)))).store.KeepsNames disk := by
  intro before c later whole
  rcases split_calls whole with ⟨rfl, rfl⟩ | ⟨rfl, rfl⟩ | ⟨rfl, rfl⟩
  · rw [List.map_nil, List.append_nil, after_old, load_old.2]
    have names : ({ first with staged := [("C", none)] } : Store).batchNames = [] := rfl
    exact Store.keepsNames_of_pending (by simp [names])
  · rw [after_call_old, callUsed, (load_call (s := second) lies_used.attempt).2]
    have names : (Moment.staging second "B" (path "B.tmd") (plainFile "B" "B.tmd")).batchNames =
        ["B"] := rfl
    have waits : (Moment.staging second "B" (path "B.tmd") (plainFile "B" "B.tmd")).pending =
        ["B"] := rfl
    exact Store.keepsNames_of_pending (by rw [names, waits]; exact fun _ => id)
  · rw [after_call_used, callUser, (load_call (s := third) lies_user.attempt).2]
    have names : (Moment.staging third "A" (path "A.tmd") userFile).batchNames = ["A"] := rfl
    have waits : (Moment.staging third "A" (path "A.tmd") userFile).pending = ["A"] := rfl
    exact Store.keepsNames_of_pending (by rw [names, waits]; exact fun _ => id)

theorem committed_on_disk_called : (∀ c ∈ calls, Truthful settings disk c.1) ∧
    (∀ name source source', OnDisk settings disk name source → OnDisk settings disk name source' →
      source = source') ∧
    (∀ name, (Store.after settings old).Agrees disk name ∨
      ∃ c ∈ calls, c.Tells settings disk name) ∧
    (∀ before c later, calls = before ++ c :: later → later = [] ∨ c.Last settings disk later →
      ((c.moment disk).run (Store.after settings (old ++ before.map (Call.moment disk)))).result =
        .ok (some true)) ∧
    (∀ before c later, calls = before ++ c :: later →
      let s := Store.after settings (old ++ before.map (Call.moment disk))
      ((c.moment disk).run s).store.committed ≠ ((c.moment disk).load s).store.committed →
        ((c.moment disk).load s).store.KeepsNames disk) ∧
    ∀ name source,
      (Store.after settings (old ++ calls.map (Call.moment disk))).source? name = some source ↔
        OnDisk settings disk name source := by
  have yes := fun before c later whole (_ : later = [] ∨ c.Last settings disk later) =>
    yes_calls before c later whole
  refine ⟨truthful_calls, once_disk, told_calls, yes, ?_, ?_⟩
  · exact fun before c later whole _ => keeps_calls before c later whole
  · exact committed_on_disk settings old disk calls truthful_calls once_disk told_calls yes
      fun before c later whole _ => keeps_calls before c later whole

section Dropped

/-- The user is loaded first. -/
def users : List Version := [.fresh 0 userFile, .fresh 0 (plainFile "B" "B.tmd")]

/-- Everything is loaded anew. -/
def anew : Moment := ⟨.loadAll, disk, []⟩

/-- The store that holds everything after loading it. -/
def scratch : Store := ⟨settings, [], ⟨users.toArray⟩, [("A", 0), ("B", 1)], [], []⟩

/-- The store after the user was rejected. -/
def alone : Store := ⟨settings, [], ⟨(users.take 1).toArray⟩, [], [], []⟩

/-- The store while both files wait. -/
def both : Store := ⟨settings, [], scratch.model, [], [("A", some 0), ("B", some 1)], []⟩

theorem loadEach_cons {s : Store} {t : FileTree} {p : Path} {rest : List Path}
    (ok : (s.loadFile t p none).result = .ok ()) :
    (s.loadEach t (p :: rest)).result = ((s.loadFile t p none).store.loadEach t rest).result ∧
      (s.loadEach t (p :: rest)).store = ((s.loadFile t p none).store.loadEach t rest).store := by
  rw [Store.loadEach, Moment.result_andThen, Store.store_andThen, ok]
  exact ⟨rfl, rfl⟩

theorem load_anew : (anew.load (.new settings [])).result = .ok () ∧
    (anew.load (.new settings [])).store = both := by
  have loaded : anew.load (.new settings []) =
      (Store.new settings []).loadEach disk [path "A.tmd", path "B.tmd"] := by
    rw [anew, Moment.load]
    dsimp only
    rw [show ({ (Store.new settings []) with watchers := [] } : Store).register.store.clear =
      .new settings [] from rfl, show (Store.new settings []).settings = settings from rfl,
      modelFiles_disk]
  obtain ⟨ok, store⟩ := loadFile_found (s := .new settings []) lies_user.attempt
  obtain ⟨ok', store'⟩ := loadFile_found (s := { alone with staged := [("A", some 0)] })
    lies_used.attempt
  have halfway : ((Store.new settings []).loadFile disk (path "A.tmd") none).store =
      { alone with staged := [("A", some 0)] } := store
  rw [loaded, (loadEach_cons ok).1, (loadEach_cons ok).2, halfway, (loadEach_cons ok').1,
    (loadEach_cons ok').2, store']
  exact ⟨rfl, rfl⟩

theorem run_anew : (anew.run (.new settings [])).store = scratch := by
  obtain ⟨ok, store⟩ := load_anew
  have next : both.nextBatch disk = .ok ⟨scratch.model, [("A", 0), ("B", 1)], [0, 1]⟩ := rfl
  have done : Batch.resolve ⟨scratch.model, [("A", 0), ("B", 1)], [0, 1]⟩ settings =
      .ok ⟨scratch.model, [(0, [complaint 0 .unusedUse]), (1, [])], [1, 0]⟩ := by with_unfolding_all rfl
  have staged : both.staged ≠ [] := List.cons_ne_nil _ _
  rw [Moment.run_store ok, store]
  refine (Store.applyUpdates_quiet staged rfl next done ?_).trans rfl
  simp [Resolution.Clean, complaint, Finding.diagnostic, Finding.isError]

theorem run_alone : ((callUser.moment disk).run (.new settings [])).store = alone := by
  obtain ⟨ok, store⟩ := load_call (s := .new settings []) lies_user.attempt
  have next : (Moment.staging (.new settings []) "A" (path "A.tmd") userFile).nextBatch disk =
      .ok ⟨alone.model, [("A", 0)], [0]⟩ := rfl
  have done : Batch.resolve ⟨alone.model, [("A", 0)], [0]⟩ settings =
      .ok ⟨alone.model, [(0, [complaint 0 .missingFile])], [0]⟩ := rfl
  have wrong : (complaint 0 .missingFile).isError = true := rfl
  rw [callUser, Moment.run_store ok, store]
  exact Store.applyUpdates_refuses (List.cons_ne_nil _ _) rfl next done (by simp [wrong])

theorem run_used_alone : ((callUsed.moment disk).run alone).store =
    { scratch with committed := [("B", 1)] } := by
  have next : (Moment.staging alone "B" (path "B.tmd") (plainFile "B" "B.tmd")).nextBatch disk =
      .ok ⟨scratch.model, [("B", 1)], [1]⟩ := rfl
  have done : Batch.resolve ⟨scratch.model, [("B", 1)], [1]⟩ settings =
      .ok ⟨scratch.model, [(1, [])], [1]⟩ := rfl
  exact (call_commits (s := alone) lies_used.attempt next done (by simp [Resolution.Clean])).2

/-- All that is on the disk can be loaded and resolved together; but if there is a call for the
user first, and one for the file it uses then, the user is dropped. -/
theorem user_dropped :
    disk.modelFiles settings.modelRoot = .ok [path "A.tmd", path "B.tmd"] ∧
    (anew.run (.new settings [])).store.loadErrors = [] ∧
    (∀ name source, OnDisk settings disk name source →
      (anew.run (.new settings [])).store.source? name = some source) ∧
    OnDisk settings disk "A" user ∧
    (Store.after settings ([callUser, callUsed].map (Call.moment disk))).source? "A" = none := by
  refine ⟨modelFiles_disk, ?_, ?_, onDisk_iff.mpr (.inl ⟨rfl, rfl⟩), ?_⟩
  · rw [run_anew]
    rfl
  · intro name source there
    rw [run_anew]
    rcases onDisk_iff.mp there with ⟨rfl, rfl⟩ | ⟨rfl, rfl⟩
    · rfl
    · rfl
  · have steps : [callUser, callUsed].map (Call.moment disk) =
        [] ++ [callUser.moment disk] ++ [callUsed.moment disk] := rfl
    have start : Store.after settings [] = .new settings [] := rfl
    rw [steps, Store.after_snoc, Store.after_snoc, start, run_alone, run_used_alone]
    rfl

end Dropped

end Arriving

end DataModel
