import DataModel.Proofs.Store.Atomic

/-!
A removal lasts. From the load that finds no file until a load that finds one, the file waits for
its removal or is gone, however many batches are rejected on the way: no change brings it back that
waits, and no batch does, unless it loads another file again under its name.
-/
namespace DataModel

section Loads
variable {loads : List (String × Found)} {name : String}

theorem FoundMissing.mem (h : FoundMissing loads name) : (name, .missing) ∈ loads := by
  obtain ⟨before, after, rfl, -⟩ := h
  simp

/-- Of a list of loads that ends with a file missing, the last load found it missing, or it was
missing before and the last load does not bear on it. -/
theorem FoundMissing.snoc_cases {load : String × Found}
    (h : FoundMissing (loads ++ [load]) name) : load = (name, .missing) ∨
      (FoundMissing loads name ∧ ∀ found, load = (name, found) → found.IsIdle) := by
  obtain ⟨before, after, whole, quiet⟩ := h
  rcases List.eq_nil_or_concat' after with rfl | ⟨after, last, rfl⟩
  · obtain ⟨-, same⟩ := List.append_inj' whole rfl
    exact .inl (List.singleton_inj.mp same)
  · have whole' : loads ++ [load] = (before ++ (name, .missing) :: after) ++ [last] := by
      rw [whole, List.append_assoc]
      rfl
    obtain ⟨rfl, same⟩ := List.append_inj' whole' rfl
    obtain rfl := List.singleton_inj.mp same
    refine .inr ⟨⟨before, after, rfl, fun found member => quiet found ?_⟩, fun found here => ?_⟩
    · exact List.mem_append_left _ member
    · exact quiet found (here ▸ List.mem_append_right _ (List.mem_singleton_self load))

/-- A file that was found missing, and not found since, was found missing last. -/
theorem FoundMissing.of_split {before after : List (String × Found)}
    (unloaded : ∀ f, (name, .file f) ∉ after) :
    FoundMissing (before ++ (name, .missing) :: after) name := by
  induction after using List.reverseRecOn with
  | nil => exact ⟨before, [], rfl, fun found member => absurd member List.not_mem_nil⟩
  | append_singleton after last ih =>
      have earlier := ih fun f member => unloaded f (List.mem_append_left _ member)
      have whole : before ++ (name, .missing) :: (after ++ [last]) =
          (before ++ (name, .missing) :: after) ++ [last] := by
        rw [List.append_assoc]
        rfl
      rw [whole]
      obtain ⟨other, found⟩ := last
      by_cases same : other = name
      · subst same
        cases found with
        | missing => exact ⟨_, [], rfl, fun found member => absurd member List.not_mem_nil⟩
        | file f => exact absurd (List.mem_append_right _ (List.mem_singleton_self _)) (unloaded f)
        | empty =>
            refine earlier.append fun found member => ?_
            cases List.mem_singleton.mp member
            trivial
        | failed =>
            refine earlier.append fun found member => ?_
            cases List.mem_singleton.mp member
            trivial
      · refine earlier.append fun found member => absurd ?_ same
        exact (congrArg Prod.fst (List.mem_singleton.mp member)).symm

end Loads

namespace Store
variable {s : Store} {t : FileTree} {name : String} {loads : List (String × Found)}

/-- What was found missing, and not found since, is not among the files with the changes made. -/
def Lacks (s : Store) (loads : List (String × Found)) (name : String) : Prop :=
  FoundMissing loads name → s.view.get? name = none

/-- What is not among the files with the changes made waits for its removal or is gone. -/
theorem view_eq_none_iff (once : s.staged.keys.Nodup) : s.view.get? name = none ↔
    s.staged.get? name = some none ∨ (s.staged.get? name = none ∧ s.file? name = none) := by
  rw [get?_view once, file?]
  cases s.staged.get? name with
  | none => simp
  | some change => cases change <;> simp

section Loading

theorem Lacks.loadFile (h : s.Lacks loads name) (sound : s.Sound) (t : FileTree) (path : Path)
    (content : Option String) : (s.loadFile t path content).store.Lacks
      (loads ++ (s.attempt? t path content).toList) name := by
  intro missing
  have loaded := loadFile_loaded s t path content
  have once := (loadFile_keeps sound t path content).2.stagedOnce
  have view := get?_view once name
  have before := get?_view sound.stagedOnce name
  generalize s.attempt? t path content = load at loaded missing
  generalize s.loadFile t path content = o at loaded view ⊢
  -- a load for another name leaves what stands under this one
  have kept : ∀ {n : String} {found : Found}, name ≠ n →
      FoundMissing (loads ++ [(n, found)]) name → s.view.get? name = none := by
    intro n found other missing
    rcases missing.snoc_cases with same | ⟨earlier, -⟩
    · exact absurd (congrArg Prod.fst same).symm other
    · exact h earlier
  cases loaded with
  | missing n events =>
      rw [view, clearError, stage, Table.get?_put]
      by_cases same : name = n
      · rw [if_pos same, Option.getD_some]
      · rw [if_neg same, ← before]
        exact kept same missing
  | empty n events =>
      rw [view, clearError, ← before]
      rcases missing.snoc_cases with same | ⟨earlier, -⟩
      · cases same
      · exact h earlier
  | file n f events =>
      rw [view, clearError, stageFile, stage, Table.get?_put]
      by_cases same : name = n
      · subst same
        rcases missing.snoc_cases with found | ⟨-, idle⟩
        · cases found
        · exact (idle (.file f) rfl).elim
      · rw [if_neg same, ← before]
        exact kept same missing
  | @failed load _ _ failed errors =>
      rw [view, ← before]
      cases load with
      | none => exact h (by rwa [Option.toList_none, List.append_nil] at missing)
      | some load =>
          rcases missing.snoc_cases with same | ⟨earlier, -⟩
          · cases failed name .missing (congrArg some same)
          · exact h earlier

theorem Lacks.loadEach (h : s.Lacks loads name) (sound : s.Sound) (t : FileTree)
    (paths : List Path) :
    (s.loadEach t paths).store.Lacks (loads ++ s.attempts t paths) name := by
  induction paths generalizing s loads with
  | nil =>
      rw [Store.loadEach, attempts, List.append_nil]
      exact h
  | cons path rest ih =>
      have first := h.loadFile sound t path none
      have sound' := (loadFile_keeps sound t path none).2
      rw [Store.loadEach, store_andThen, attempts]
      cases (s.loadFile t path none).result with
      | error i =>
          rw [List.append_nil]
          exact first
      | ok u =>
          rw [← List.append_assoc]
          exact ih first sound'

/-- The loads of an operation keep that a missing file is lacking; loading everything starts
without any file. -/
theorem Lacks.load (h : s.Lacks loads name) (sound : s.Sound) (a : Moment) :
    (a.load s).store.Lacks (loads ++ a.attempts s) name := by
  obtain ⟨operation, tree, watchers⟩ := a
  have same : ({ s with watchers } : Store).Sound := sound.ofSame rfl rfl rfl rfl
  cases operation with
  | loadAll =>
      have cleared : ({ s with watchers } : Store).register.store.clear.Lacks loads name :=
        fun _ => rfl
      have sound' : ({ s with watchers } : Store).register.store.clear.Sound :=
        sound.clear.ofSame rfl rfl rfl rfl
      unfold Moment.load Moment.attempts
      dsimp only
      rw [show ({ s with watchers } : Store).register.store.clear.settings = s.settings from rfl]
      cases tree.modelFiles s.settings.modelRoot with
      | error f =>
          rw [List.append_nil]
          exact cleared
      | ok files => exact cleared.loadEach sound' tree files
  | apply =>
      rw [Moment.attempts, List.append_nil]
      exact h
  | change path content =>
      have lacks : ({ s with watchers } : Store).Lacks loads name := h
      exact lacks.loadFile same tree path content

end Loading

section Applying

/-- Of the files that the next batch loads again, none but the one of that name has it by now. -/
def Spares (s : Store) (t : FileTree) (name : String) : Prop :=
  ∀ other ∈ s.batchNames, other ∉ s.pending → ∀ v file, s.committed.get? other = some v →
    s.model.file? v = some file → s.fileName t (.ofString file.path) = .ok name → other = name

/-- A batch that keeps the names of its files spares every name. -/
theorem KeepsNames.spares (h : s.KeepsNames t) (name : String) : s.Spares t name :=
  fun other inside free v file known found place =>
    (h other inside free v file known found name place).symm

/-- A batch has no member of a name that is not among its files, if it spares the name. -/
theorem Prepared.not_named {b : Batch} (h : s.Prepared t b) (sound : s.Sound)
    (spares : s.Spares t name) (lacks : s.view.get? name = none) {v : VersionId}
    (member : v ∈ b.members) : b.model.fileName v ≠ name := by
  intro here
  obtain ⟨other, inside, found⟩ := h.mem_members.mp member
  have viewed := mem_view_of_batchNames inside
  have apart : other ≠ name := by
    rintro rfl
    exact Table.get?_eq_none_iff.mp lacks viewed
  obtain ⟨f, fresh, -, origin⟩ := h.member inside found
  rcases origin with staged | ⟨-, free, w, old, known, file, -, -, place⟩
  · have named := sound.named staged
    rw [Model.fileName_congr (h.old (has_of_waits sound ⟨other, staged⟩))] at here
    exact apart (named.symm.trans here)
  · rw [Model.fileName, Model.file?, fresh] at here
    rw [show f.name = name from here] at place
    exact apart (spares other inside free w old known file place)

/-- A batch that spares a name does not bring a file of that name. -/
theorem Prepared.commit_lacks {b : Batch} (h : s.Prepared t b) (sound : s.Sound)
    (spares : s.Spares t name) (lacks : s.view.get? name = none) :
    (s.commit b).get? name = none := by
  have free : name ∉ Table.keys (b.members.map fun v => (b.model.fileName v, some v)) := by
    intro member
    obtain ⟨_, inside, here⟩ := List.mem_map.mp member
    obtain ⟨v, member', rfl⟩ := List.mem_map.mp inside
    exact h.not_named sound spares lacks member' here
  rw [Store.commit_eq, Table.update_append, Table.get?_update_of_not_mem free,
    Table.get?_update (nodup_removals sound.stagedOnce), get?_removals sound.stagedOnce]
  rcases (view_eq_none_iff sound.stagedOnce).mp lacks with gone | ⟨-, absent⟩
  · rw [if_pos gone, Option.getD_some]
  · rw [file?] at absent
    split
    · rfl
    · exact absent

theorem applyUpdates_lacks (sound : s.Sound) (lacks : s.view.get? name = none)
    (spares : (s.applyUpdates t).store.committed ≠ s.committed → s.Spares t name) :
    (s.applyUpdates t).store.view.get? name = none := by
  by_cases empty : s.staged = []
  · rw [applyUpdates_of_empty empty]
    exact lacks
  · obtain ⟨after, applied, same⟩ := applyUpdates_applied (t := t) empty
    have sound' := (applyUpdates_keeps sound t).1
    rw [view_eq_none_iff sound'.stagedOnce]
    rw [same] at spares ⊢
    generalize (s.applyUpdates t).result = result at applied spares ⊢
    -- a batch that is not committed keeps the removals and the committed files
    have refused : s.removals.get? name = some none ∨
        (s.removals.get? name = none ∧ s.file? name = none) := by
      rw [get?_removals sound.stagedOnce]
      rcases (view_eq_none_iff sound.stagedOnce).mp lacks with gone | ⟨free, absent⟩
      · exact .inl (if_pos gone)
      · rw [free, if_neg nofun]
        exact .inr ⟨rfl, absent⟩
    cases applied with
    | interrupted i _ => exact refused
    | rejected next resolved told _ =>
        rcases told with rfl | ⟨w, rfl⟩
        · exact refused
        · exact refused
    | @committed b _ _ next resolved _ _ =>
        have prepared := nextBatch_prepared sound next
        have spared : s.Spares t name := by
          by_cases unchanged : s.commit b = s.committed
          · exact (prepared.keepsNames sound (absurd unchanged)).spares name
          · exact spares unchanged
        have absent := prepared.commit_lacks sound spared lacks
        cases left : (s.leftover result).get? name with
        | none => exact .inr ⟨rfl, absent⟩
        | some change =>
            obtain rfl := s.leftover_idle result left
            exact .inl rfl

end Applying

/-- An operation keeps that a missing file is lacking, if its batch spares the name. -/
theorem Lacks.run (h : s.Lacks loads name) (sound : s.Sound) (a : Moment)
    (spares : FoundMissing (loads ++ a.attempts s) name →
      (a.run s).store.committed ≠ (a.load s).store.committed → (a.load s).store.Spares a.tree name) :
    (a.run s).store.Lacks (loads ++ a.attempts s) name := by
  have loaded := h.load sound a
  cases a.run_ends s with
  | early _ _ store =>
      rw [store]
      exact loaded
  | batch _ _ store _ =>
      rw [store] at spares ⊢
      exact fun missing => applyUpdates_lacks (Moment.load_extends sound a).1 (loaded missing)
        (spares missing)

end Store

/-- As long as a file was found missing, and not found since, no batch that changed the committed
files loaded another file again that had got its name. -/
def Spared (settings : Settings) (history : List Moment) (name : String) : Prop :=
  ∀ before a after, history = before ++ a :: after →
    FoundMissing ((Store.new settings []).loads (before ++ [a])) name →
    let s := Store.after settings before
    (a.run s).store.committed ≠ (a.load s).store.committed → (a.load s).store.Spares a.tree name

namespace Spared
variable {settings : Settings} {history : List Moment} {a : Moment} {name : String}

theorem init (h : Spared settings (history ++ [a]) name) : Spared settings history name :=
  fun before b after whole => h before b (after ++ [a]) (by rw [whole, List.append_assoc]; rfl)

theorem last (h : Spared settings (history ++ [a]) name) :
    FoundMissing ((Store.new settings []).loads (history ++ [a])) name →
    let s := Store.after settings history
    (a.run s).store.committed ≠ (a.load s).store.committed → (a.load s).store.Spares a.tree name :=
  h history a [] rfl

theorem nil (settings : Settings) (name : String) : Spared settings [] name :=
  fun before _ _ whole => absurd whole.symm (List.append_ne_nil_of_right_ne_nil before
    (List.cons_ne_nil _ _))

/-- A history goes on sparing a name with an operation whose batch does not change the committed
files, or spares it. -/
theorem snoc (h : Spared settings history name)
    (spares : FoundMissing ((Store.new settings []).loads (history ++ [a])) name →
      let s := Store.after settings history
      (a.run s).store.committed ≠ (a.load s).store.committed →
        (a.load s).store.Spares a.tree name) :
    Spared settings (history ++ [a]) name := by
  intro before b after whole
  rcases List.eq_nil_or_concat' after with rfl | ⟨after, c, rfl⟩
  · obtain ⟨rfl, same⟩ := List.append_inj' whole rfl
    cases same
    exact spares
  · have whole' : history ++ [a] = (before ++ b :: after) ++ [c] := by
      rw [whole, List.append_assoc]
      rfl
    obtain ⟨rfl, -⟩ := List.append_inj' whole' rfl
    exact h before b after rfl

/-- The run lemma: whatever happens, what was found missing is lacking. -/
theorem lacks (h : Spared settings history name) :
    (Store.after settings history).Lacks ((Store.new settings []).loads history) name := by
  induction history using List.reverseRecOn with
  | nil => exact fun _ => rfl
  | append_singleton before a ih =>
      have spares := h.last
      rw [Store.loads_snoc] at spares
      rw [Store.after_snoc, Store.loads_snoc]
      exact (ih h.init).run (Store.after_sound settings before).1 a spares

end Spared

/-- Once a load has found a file missing, and until a load finds it, the file waits for its removal
or is gone, whatever batches are rejected on the way. -/
theorem removal_lasts (settings : Settings) (history : List Moment) {name : String}
    {before after : List (String × Found)}
    (loads : (Store.new settings []).loads history = before ++ (name, .missing) :: after)
    (unloaded : ∀ f, (name, .file f) ∉ after) (spared : Spared settings history name) :
    let s := Store.after settings history
    s.staged.get? name = some none ∨ s.file? name = none := by
  have missing : FoundMissing (before ++ (name, .missing) :: after) name := .of_split unloaded
  rw [← loads] at missing
  have once := (Store.after_sound settings history).1.stagedOnce
  exact ((Store.view_eq_none_iff once).mp (spared.lacks missing)).imp_right And.right

namespace Retrying
open Relinking (settings path unlinked linked)

section Rejected
variable {history : List Moment} {n : Nat}

/-- An operation on the used file that stages at most its removal, and after which the removal
waits, spares every name. -/
theorem spares_waiting {s : Store} {content : Option String} {found : Found} {name : String}
    (committed : s.committed = [("B", 0), ("A", 1)])
    (attempt : ({ s with watchers := [] } : Store).attempt? unlinked (path "B.tmd") content =
      some ("B", found))
    (idle : found = .missing ∨ found = .empty)
    (run : (Moment.run ⟨.change (path "B.tmd") content, unlinked, []⟩ s).store = waiting n) :
    let a : Moment := ⟨.change (path "B.tmd") content, unlinked, []⟩
    (a.run s).store.committed ≠ (a.load s).store.committed →
      (a.load s).store.Spares unlinked name := by
  intro a changed
  have loaded := Moment.load_loaded s (path "B.tmd") content unlinked []
  rw [attempt] at loaded
  refine absurd ?_ changed
  rw [run]
  rcases idle with rfl | rfl
  · rw [loaded.of_missing.2]
    exact committed.symm
  · rw [loaded.of_empty.2]
    exact committed.symm

theorem spared_begun : Spared settings (begun ++ [emptied]) "B" := by
  have steps : begun ++ [emptied] = [] ++ [⟨.change (path "B.tmd") (some plain), unlinked, []⟩] ++
      [⟨.change (path "A.tmd") (some user), unlinked, []⟩] ++
      [⟨.change (path "B.tmd") none, unlinked, []⟩] ++ [emptied] := rfl
  have start : Store.after settings [] = .new settings [] := rfl
  have used := Store.attempt_file (s := .new settings []) name_used (load_plain "B" "B.tmd")
  have uses := Store.attempt_file (s := first) name_user load_user
  have missing := Store.attempt_missing (s := second) name_used gone
  have idle := Store.attempt_empty (s := waiting 1) name_used (load_nothing "B" "B.tmd")
  rw [steps]
  refine (((Spared.nil settings "B").snoc ?_).snoc ?_).snoc ?_ |>.snoc ?_
  · intro found
    simpa [Store.loads, Moment.attempts, used] using found.mem
  · intro found
    simpa [Store.loads, Moment.attempts, run_first, used, uses] using found.mem
  · rw [Store.after_snoc, Store.after_snoc, start, run_first, run_second]
    exact fun _ => spares_waiting rfl missing (.inl rfl) run_third
  · rw [Store.after_snoc, Store.after_snoc, Store.after_snoc, start, run_first, run_second,
      run_third]
    exact fun _ => spares_waiting rfl idle (.inr rfl) run_emptied

end Rejected

/-- A removal that was rejected goes on waiting after the file is back without a text. -/
theorem removal_lasts_emptied :
    ((Store.new settings []).loads (begun ++ [emptied]) =
        [("B", .file (plainFile "B" "B.tmd")), ("A", .file userFile)] ++
          ("B", .missing) :: [("B", .empty)] ∧
      (∀ f, ("B", .file f) ∉ [("B", Found.empty)]) ∧
      Spared settings (begun ++ [emptied]) "B") ∧
    ((Store.after settings (begun ++ [emptied])).staged.get? "B" = some none ∨
      (Store.after settings (begun ++ [emptied])).file? "B" = none) := by
  have idle := Store.attempt_empty (s := waiting 1) name_used (load_nothing "B" "B.tmd")
  have loads : (Store.new settings []).loads (begun ++ [emptied]) =
      [("B", .file (plainFile "B" "B.tmd")), ("A", .file userFile)] ++
        ("B", .missing) :: [("B", .empty)] := by
    rw [Store.loads_snoc, after_begun, loads_begun]
    simp [emptied, Moment.attempts, idle]
  have unloaded : ∀ f, ("B", .file f) ∉ [("B", Found.empty)] := by simp
  exact ⟨⟨loads, unloaded, spared_begun⟩, removal_lasts settings _ loads unloaded spared_begun⟩

section Overtaken

/-- A file that declares a domain, so that every file is in the batch of its removal. -/
def declaring : String := "module: M\n---\ndomain: {name: D, label: l}\n"

def declaringFile : ModelFile :=
  ⟨"Z", "/m/Z.tmd", "M", declaring, [], [], [⟨"D", some "l", none, none, none, [], [],
    some ⟨"domain", 3, 1⟩⟩], [], [], [], []⟩

/-- Another file becomes a link to the file with the domain, which is removed. -/
def overtaken : List Moment :=
  [⟨.change (path "Z.tmd") (some declaring), unlinked, []⟩,
    ⟨.change (path "L.tmd") (some plain), unlinked, []⟩,
    ⟨.change (path "Z.tmd") none, linked, []⟩]

set_option maxRecDepth 2000 in
theorem load_declaring : Grammar.loadText settings.app ⟨"Z", (path "Z.tmd").toString, declaring⟩ =
    .ok (some declaringFile) := by
  cbv

def declared : Store := ⟨settings, [], ⟨#[.fresh 0 declaringFile]⟩, [("Z", 0)], [], []⟩

def joined : Store :=
  ⟨settings, [], ⟨#[.fresh 0 declaringFile, .fresh 1 (plainFile "L" "L.tmd")]⟩,
    [("Z", 0), ("L", 1)], [], []⟩

theorem run_declaring :
    (Moment.run ⟨.change (path "Z.tmd") (some declaring), unlinked, []⟩ (.new settings [])).store =
      declared := by
  have next : (Moment.staging (.new settings []) "Z" (path "Z.tmd") declaringFile).nextBatch
      unlinked = .ok ⟨declared.model, [("Z", 0)], [0]⟩ := rfl
  have done : Batch.resolve ⟨declared.model, [("Z", 0)], [0]⟩ settings =
      .ok ⟨declared.model, [(0, [])], [0]⟩ := rfl
  rw [Moment.run_change (s := .new settings []) Relinking.name_target load_declaring next done
    (by simp [Resolution.Clean])]
  rfl

theorem run_joined :
    (Moment.run ⟨.change (path "L.tmd") (some plain), unlinked, []⟩ declared).store = joined := by
  have next : (Moment.staging declared "L" (path "L.tmd") (plainFile "L" "L.tmd")).nextBatch
      unlinked = .ok ⟨joined.model, [("Z", 0), ("L", 1)], [1]⟩ := rfl
  have done : Batch.resolve ⟨joined.model, [("Z", 0), ("L", 1)], [1]⟩ settings =
      .ok ⟨joined.model, [(1, [])], [1]⟩ := rfl
  rw [Moment.run_change (s := declared) Relinking.name_own (load_plain "L" "L.tmd") next done
    (by simp [Resolution.Clean])]
  rfl

theorem missing_overtaken : joined.attempt? linked (path "Z.tmd") none = some ("Z", .missing) := by
  have fit : Fit "Z.tmd" :=
    ⟨rfl, rfl, by with_unfolding_all rfl, by with_unfolding_all rfl, by decide⟩
  exact Store.attempt_missing (s := joined) (fit.named rfl (.inl rfl) rfl)
    (exists_missing fit rfl rfl)

/-- The file with the domain is missing, and its removal waits. -/
def removing : Store := { joined with staged := [("Z", none)] }

/-- The next batch loads the other file again, which has the name of the removed one by now. -/
theorem nextBatch_removing : removing.nextBatch linked =
    .ok ⟨(joined.model.add (plainFile "Z" "L.tmd")).1, [("L", 2)], [2]⟩ := by
  have view : removing.view = [("L", 1)] := rfl
  have names : removing.batchNames = ["L"] := rfl
  have free : "L" ∉ removing.pending := by
    have waits : removing.pending = ["Z"] := rfl
    simp [waits]
  have place : removing.fileName linked (.ofString (plainFile "L" "L.tmd").path) = .ok "Z" := by
    rw [show Path.ofString (plainFile "L" "L.tmd").path = path "L.tmd" from rfl]
    exact Relinking.name_linked
  have text : Grammar.loadText removing.settings.app
      ⟨"Z", (plainFile "L" "L.tmd").path, (plainFile "L" "L.tmd").source⟩ =
      .ok (some (plainFile "Z" "L.tmd")) := load_plain "Z" "L.tmd"
  have known : removing.model.file? 1 = some (plainFile "L" "L.tmd") := rfl
  have found : Table.get? [("L", 1)] "L" = some 1 := rfl
  have renewed := Store.renew_committed free found known place text
  rw [Store.nextBatch_eq, names, view]
  simp only [List.foldlM_cons, List.foldlM_nil, bind, Except.bind, renewed]
  rfl

theorem run_overtaken :
    (Moment.run ⟨.change (path "Z.tmd") none, linked, []⟩ joined).store =
      { joined with
        model := (joined.model.add (plainFile "Z" "L.tmd")).1
        committed := [("L", 1), ("Z", 2)] } := by
  have loaded := Moment.load_loaded joined (path "Z.tmd") none linked []
  obtain ⟨ok, store⟩ := (missing_overtaken ▸ loaded).of_missing
  have done : Batch.resolve ⟨(joined.model.add (plainFile "Z" "L.tmd")).1, [("L", 2)], [2]⟩
      settings = .ok ⟨(joined.model.add (plainFile "Z" "L.tmd")).1, [(2, [])], [2]⟩ := rfl
  have applied := Store.applyUpdates_quiet (s := removing) (List.cons_ne_nil _ _) rfl
    nextBatch_removing done (by simp [Resolution.Clean])
  rw [Moment.run_store ok, store]
  exact applied

theorem after_overtaken : Store.after settings overtaken =
    { joined with
      model := (joined.model.add (plainFile "Z" "L.tmd")).1
      committed := [("L", 1), ("Z", 2)] } := by
  have steps : overtaken = [] ++ [⟨.change (path "Z.tmd") (some declaring), unlinked, []⟩] ++
      [⟨.change (path "L.tmd") (some plain), unlinked, []⟩] ++
      [⟨.change (path "Z.tmd") none, linked, []⟩] := rfl
  have start : Store.after settings [] = .new settings [] := rfl
  rw [steps, Store.after_snoc, Store.after_snoc, Store.after_snoc, start, run_declaring, run_joined,
    run_overtaken]

end Overtaken

/-- If a link gives another file the name of a missing one, the missing file is committed again,
though no load found it. -/
theorem removal_overtaken :
    (Store.new settings []).loads overtaken =
      [("Z", .file declaringFile), ("L", .file (plainFile "L" "L.tmd")), ("Z", .missing)] ∧
    ¬ ((Store.after settings overtaken).staged.get? "Z" = some none ∨
      (Store.after settings overtaken).file? "Z" = none) := by
  have declares := Store.attempt_file (s := .new settings []) Relinking.name_target load_declaring
  have joins := Store.attempt_file (s := declared) Relinking.name_own (load_plain "L" "L.tmd")
  refine ⟨?_, ?_⟩
  · simp [overtaken, Store.loads, Moment.attempts, run_declaring, run_joined, declares, joins,
      missing_overtaken]
  · rw [after_overtaken]
    decide

end Retrying
end DataModel
