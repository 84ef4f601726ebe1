import Mathlib
import DataModel.Proofs.Store.Committing

/-!
Steady histories. Links in the tree of files may change the name of a file while it is committed
under the old one; in a steady history no batch meets such a file. The store after a steady history
is settled.
-/
namespace DataModel
variable {s : Store}

/-- Since everything was loaded last, no batch that changed the committed files loaded one of them
again that had got another name. -/
def Steady (settings : Settings) (history : List Moment) : Prop :=
  ∀ before a after, history = before ++ a :: after → (∀ b ∈ after, b.operation ≠ .loadAll) →
    let s := Store.after settings before
    (a.run s).store.committed ≠ (a.load s).store.committed → (a.load s).store.KeepsNames a.tree

namespace Steady
variable {settings : Settings} {history : List Moment} {a : Moment}

theorem init (h : Steady settings (history ++ [a])) (part : a.operation ≠ .loadAll) :
    Steady settings history := by
  intro before a' after whole parts
  refine h before a' (after ++ [a]) ?_ ?_
  · rw [whole, List.append_assoc]
    rfl
  · intro b hb
    rcases List.mem_append.mp hb with early | last
    · exact parts b early
    · cases List.mem_singleton.mp last
      exact part

theorem last (h : Steady settings (history ++ [a])) :
    let s := Store.after settings history
    (a.run s).store.committed ≠ (a.load s).store.committed →
      (a.load s).store.KeepsNames a.tree :=
  h history a [] rfl fun _ none' => absurd none' List.not_mem_nil

theorem nil (settings : Settings) : Steady settings [] := by
  intro before a after whole
  cases before with
  | nil => cases whole
  | cons _ _ => cases whole

/-- A history goes on steadily with an operation whose batch keeps the names of its files. -/
theorem snoc (h : Steady settings history)
    (keeps : (a.load (Store.after settings history)).store.KeepsNames a.tree) :
    Steady settings (history ++ [a]) := by
  intro before a' after whole parts
  rcases List.eq_nil_or_concat' after with rfl | ⟨after', b, rfl⟩
  · obtain ⟨rfl, same⟩ := List.append_inj' whole rfl
    cases same
    exact fun _ => keeps
  · have whole' : history ++ [a] = (before ++ a' :: after') ++ [b] := by
      rw [whole, List.append_assoc]
      rfl
    obtain ⟨rfl, -⟩ := List.append_inj' whole' rfl
    exact h before a' after' rfl fun b' hb => parts b' (List.mem_append_left _ hb)

end Steady

namespace Store

/-- Applying what is pending keeps a store settled if a batch that changes the committed files keeps
their names. -/
theorem applyUpdates_settled (sound : s.Sound) (settled : s.Settled) {t : FileTree}
    (keeps : (s.applyUpdates t).store.committed ≠ s.committed → s.KeepsNames t) :
    (s.applyUpdates t).store.Settled := by
  by_cases empty : s.staged = []
  · rw [applyUpdates_of_empty empty]
    exact settled
  · obtain ⟨after, applied, same⟩ := applyUpdates_applied (t := t) empty
    rw [same] at keeps ⊢
    obtain ⟨-, settings, old⟩ := applied.keeps sound
    by_cases unchanged : after.committed = s.committed
    · refine settled.same sound.committedOnce settings unchanged fun known => ?_
      obtain ⟨there, free⟩ := sound.committed known
      exact old there free
    · generalize (s.applyUpdates t).result = result at applied unchanged keeps ⊢
      cases applied with
      | interrupted i _ => exact absurd rfl unchanged
      | rejected _ _ _ _ => exact absurd rfl unchanged
      | committed next resolved _ clean =>
          exact Commits.settles
            ⟨sound, settled, keeps unchanged, next, resolved, clean, rfl, rfl, rfl⟩

end Store

/-- The store after a steady history is settled, whatever failed or was rejected on the way. -/
theorem Steady.settled {settings : Settings} {history : List Moment}
    (h : Steady settings history) : (Store.after settings history).Settled := by
  induction history using List.reverseRecOn with
  | nil => exact .ofEmpty rfl
  | append_singleton before a ih =>
      have sound := (Store.after_sound settings before).1
      have loaded : (a.load (Store.after settings before)).store.Settled := by
        by_cases all : a.operation = .loadAll
        · exact .ofEmpty (Moment.load_all sound all).2.committed
        · exact (ih (h.init all)).extend sound (Moment.load_part sound all).2
      have keeps := h.last
      rw [Store.after_snoc]
      cases Moment.run_ends a (Store.after settings before) with
      | early _ _ store =>
          rw [store]
          exact loaded
      | batch _ _ store _ =>
          dsimp only at keeps
          rw [store] at keeps ⊢
          exact Store.applyUpdates_settled (Moment.load_extends sound a).1 loaded keeps


namespace Relinking

/-- A file that declares a class. -/
def declaration : String := "module: M\n---\nclass: {name: B, comment: c, properties: []}\n"

/-- A file that offers the class, too. -/
def sharing : String := "module: M\nuses: [Z]\n---\nalias: {file: Z, classes: [B]}\n"

def settings : Settings := ⟨"a", ⟨"/", ["m"]⟩, true, []⟩

/-- The path of a file in the model root. -/
def path (file : String) : Path := ⟨"/", ["m", file]⟩

def unlinked : FileTree := ⟨[(["m"], .directory (.changes 0))], 0, 0⟩

/-- A tree with a link that gives one file the name of another. -/
def linked : FileTree :=
  ⟨[(["m"], .directory (.changes 0)), (["m", "L.tmd"], .link "Z.tmd")], 0, 0⟩

/-- The class is declared where the link is; then the link is gone, and the class is shared. -/
def begun : List Moment :=
  [⟨.change (path "L.tmd") (some declaration), linked, []⟩,
    ⟨.change (path "L.tmd") (some sharing), unlinked, []⟩]

/-- A history that goes on without the link. -/
def steady : List Moment :=
  begun ++ [⟨.change (path "Z.tmd") (some declaration), unlinked, []⟩]

/-- A history that goes on with the link, which is back. -/
def unsteady : List Moment :=
  begun ++ [⟨.change (path "L.tmd") (some declaration), linked, []⟩]

section Files

def declares (file : String) : ModelFile :=
  ⟨"Z", "/m/" ++ file, "M", declaration, [], [], [], [],
    [⟨"B", "c", none, none, none, .none, false, none, none, none, none, [], [], [],
      some ⟨"a", "M"⟩, some ⟨"class", 3, 1⟩⟩], [], []⟩

def shares (name : String) : ModelFile :=
  ⟨name, "/m/L.tmd", "M", sharing, [], [⟨"Z", 2, 8⟩], [], [], [], [],
    [⟨⟨"Z", 4, 15⟩, [⟨"B", 4, 28⟩], [], some ⟨"alias", 4, 1⟩⟩]⟩

set_option maxRecDepth 2000 in
theorem load_declaration (file : String) :
    Grammar.loadText settings.app ⟨"Z", (path file).toString, declaration⟩ =
      .ok (some (declares file)) := by
  cbv

theorem load_sharing (name : String) :
    Grammar.loadText settings.app ⟨name, "/m/L.tmd", sharing⟩ = .ok (some (shares name)) := by
  cbv

theorem path_of_text : Path.ofString "/m/L.tmd" = path "L.tmd" := rfl

end Files

section FileNames

theorem short_root : Path.isLongName "m" = false := by with_unfolding_all rfl

theorem name_linked : settings.fileName linked ⟨"/", []⟩ (path "L.tmd") = .ok "Z" := by
  have target : Path.ofString "Z.tmd" = ⟨"", ["Z.tmd"]⟩ := rfl
  have free : Path.firstNameFault? ⟨"/", ["m", "L.tmd"]⟩ = none := rfl
  have freeRoot : Path.firstNameFault? ⟨"/", ["m"]⟩ = none := rfl
  have short : Path.isLongName "Z.tmd" = false := by with_unfolding_all rfl
  have name : logicalName ⟨"/", ["m"]⟩ ⟨"/", ["m", "Z.tmd"]⟩ (path "L.tmd") = "Z" := rfl
  simp [Settings.fileName, Settings.places, FileTree.resolve, FileTree.withoutLinks,
    FileTree.locate, FileTree.node?, linked, path, settings, Path.isAbsolute, Path.under,
    Path.collapseDots, List.lookup, free, freeRoot, short, short_root, target, bind, Except.bind,
    pure, Except.pure]
  exact name

/-- A path in the model root that is no link has its own name, whether there is a file or not. -/
theorem fileName_top {t : FileTree} {file name : String} {st : Stamp}
    (free : (path file).firstNameFault? = none) (short : Path.isLongName file = false)
    (plain : file ≠ "..") (top : t.node? ["m"] = some (.directory st))
    (here : t.node? ["m", file] = none ∨
      ∃ bytes st', t.node? ["m", file] = some (.file bytes st'))
    (named : logicalName ⟨"/", ["m"]⟩ (path file) (path file) = name) :
    settings.fileName t ⟨"/", []⟩ (path file) = .ok name := by
  have freeRoot : Path.firstNameFault? ⟨"/", ["m"]⟩ = none := rfl
  rw [path] at free
  rcases here with node | ⟨bytes, st', node⟩
  · simp [Settings.fileName, Settings.places, FileTree.resolve, FileTree.withoutLinks,
      FileTree.locate, path, settings, Path.isAbsolute, Path.under, top, node, Path.collapseDots,
      free, freeRoot, short, short_root, plain, bind, Except.bind, pure, Except.pure]
    exact named
  · simp [Settings.fileName, Settings.places, FileTree.resolve, FileTree.withoutLinks,
      FileTree.locate, path, settings, Path.isAbsolute, Path.under, top, node, Path.collapseDots,
      free, freeRoot, short, short_root, plain, bind, Except.bind, pure, Except.pure]
    exact named

theorem name_unlinked {file name : String} (free : (path file).firstNameFault? = none)
    (short : Path.isLongName file = false) (plain : file ≠ "..")
    (h : logicalName ⟨"/", ["m"]⟩ (path file) (path file) = name) :
    settings.fileName unlinked ⟨"/", []⟩ (path file) = .ok name :=
  fileName_top free short plain rfl (.inl rfl) h

theorem name_own : settings.fileName unlinked ⟨"/", []⟩ (path "L.tmd") = .ok "L" :=
  name_unlinked rfl (by with_unfolding_all rfl) (by decide) rfl

theorem name_target : settings.fileName unlinked ⟨"/", []⟩ (path "Z.tmd") = .ok "Z" :=
  name_unlinked rfl (by with_unfolding_all rfl) (by decide) rfl

end FileNames

section Runs

deriving instance DecidableEq for Model, Batch, BatchResult

def declared (v : VersionId) (file : String) : Version := ⟨declares file, [⟨v, 0⟩], [], [], []⟩

/-- A file that shares the class of a version. -/
def shared (v : VersionId) (name : String) : Version := ⟨shares name, [⟨v, 0⟩], [], [⟨v, 0⟩], []⟩

def first : Store := ⟨settings, [], ⟨#[declared 0 "L.tmd"]⟩, [("Z", 0)], [], []⟩

def second : Store :=
  ⟨settings, [], ⟨#[declared 0 "L.tmd", shared 0 "L"]⟩, [("Z", 0), ("L", 1)], [], []⟩

/-- The store before the last batch of either history. -/
def pending (file : String) : Store :=
  ⟨settings, [], ⟨#[declared 0 "L.tmd", shared 0 "L", declared 2 file]⟩, [("Z", 0), ("L", 1)],
    [("Z", some 2)], []⟩

/-- The last batch, in which a file is loaded again and gets a name. -/
def batch (file name : String) : Batch :=
  ⟨((pending file).model.add (shares name)).1, [("Z", 2), ("L", 3)], [2, 3]⟩

def resolved (file name : String) : Model :=
  ⟨#[declared 0 "L.tmd", shared 0 "L", declared 2 file, shared 2 name]⟩

theorem run_first :
    (Moment.run ⟨.change (path "L.tmd") (some declaration), linked, []⟩ (.new settings [])).store =
      first := by
  have next : (Moment.staging (.new settings []) "Z" (path "L.tmd") (declares "L.tmd")).nextBatch
      linked = .ok ⟨first.model, [("Z", 0)], [0]⟩ := rfl
  have done : Batch.resolve ⟨first.model, [("Z", 0)], [0]⟩ settings =
      .ok ⟨first.model, [(0, [])], [0]⟩ := rfl
  rw [Moment.run_change (s := .new settings []) name_linked (load_declaration "L.tmd") next done
    (by simp [Resolution.Clean])]
  rfl

theorem run_second :
    (Moment.run ⟨.change (path "L.tmd") (some sharing), unlinked, []⟩ first).store = second := by
  have text : Grammar.loadText settings.app ⟨"L", (path "L.tmd").toString, sharing⟩ =
      .ok (some (shares "L")) := load_sharing "L"
  have next : (Moment.staging first "L" (path "L.tmd") (shares "L")).nextBatch unlinked =
      .ok ⟨(first.model.add (shares "L")).1, [("Z", 0), ("L", 1)], [1]⟩ := rfl
  have done : Batch.resolve ⟨(first.model.add (shares "L")).1, [("Z", 0), ("L", 1)], [1]⟩
      settings = .ok ⟨second.model, [(1, [])], [1]⟩ := by with_unfolding_all rfl
  rw [Moment.run_change (s := first) name_own text next done (by simp [Resolution.Clean])]
  rfl

theorem after_begun : Store.after settings begun = second := by
  have steps : begun = [] ++ [⟨.change (path "L.tmd") (some declaration), linked, []⟩] ++
      [⟨.change (path "L.tmd") (some sharing), unlinked, []⟩] := rfl
  have start : Store.after settings [] = .new settings [] := rfl
  rw [steps, Store.after_snoc, Store.after_snoc, start, run_first, run_second]

section Last
variable {t : FileTree} {file name : String}

theorem staging_pending : Moment.staging second "Z" (path file) (declares file) = pending file := by
  rfl

theorem batchNames_pending : (pending file).batchNames = ["Z", "L"] := by
  rfl

theorem file_pending : (pending file).model.file? 1 = some (shares "L") := rfl

theorem fileName_pending (again : settings.fileName t ⟨"/", []⟩ (path "L.tmd") = .ok name) :
    (pending file).fileName t (.ofString (shares "L").path) = .ok name := by
  rw [show (shares "L").path = "/m/L.tmd" from rfl, path_of_text]
  exact again

/-- While the link is gone, the file that is loaded again keeps its name. -/
theorem pending_keeps : (pending file).KeepsNames unlinked := by
  intro name inside free v f known found name' named
  rw [batchNames_pending, List.mem_cons, List.mem_singleton] at inside
  rcases inside with rfl | rfl
  · exact absurd (List.mem_singleton_self "Z") free
  · cases known
    rw [file_pending] at found
    cases found
    rw [fileName_pending name_own] at named
    exact (Except.ok.inj named).symm

/-- The last batch loads the file that shares the class again, under the name that it has by
then. -/
theorem nextBatch_pending (again : settings.fileName t ⟨"/", []⟩ (path "L.tmd") = .ok name) :
    (pending file).nextBatch t = .ok (batch file name) := by
  have view : (pending file).view = [("Z", 2), ("L", 1)] := rfl
  have waiting : (pending file).pending = ["Z"] := rfl
  have waits : "Z" ∈ (pending file).pending := waiting ▸ List.mem_singleton_self "Z"
  have free : "L" ∉ (pending file).pending := by
    rw [waiting]
    decide
  have known : Table.get? [("Z", 2), ("L", 1)] "L" = some 1 := rfl
  have text : Grammar.loadText (pending file).settings.app
      ⟨name, (shares "L").path, (shares "L").source⟩ = .ok (some (shares name)) :=
    load_sharing name
  have old : (pending file).model.file? 1 = some (shares "L") := file_pending
  have renewed := Store.renew_committed free known old (fileName_pending again) text
  rw [Store.nextBatch_eq, batchNames_pending, List.foldlM_cons, Store.renew_pending waits, view]
  simp only [List.foldlM_cons, List.foldlM_nil, bind, Except.bind, renewed]
  rfl

theorem run_last (named : settings.fileName t ⟨"/", []⟩ (path file) = .ok "Z")
    (again : settings.fileName t ⟨"/", []⟩ (path "L.tmd") = .ok name) :
    (Moment.run ⟨.change (path file) (some declaration), t, []⟩ second).store =
      ⟨settings, [], resolved file name, (pending file).commit (batch file name), [], []⟩ := by
  have next : (pending file).nextBatch t = .ok (batch file name) := nextBatch_pending again
  have done : (batch file name).resolve settings =
      .ok ⟨resolved file name, [(2, []), (3, [])], [2, 3]⟩ := by cbv
  rw [← staging_pending] at next
  rw [Moment.run_change (s := second) named (load_declaration file) next done
    (by simp [Resolution.Clean]), staging_pending]
  rfl

end Last

theorem after_steady : Store.after settings steady =
    ⟨settings, [], resolved "Z.tmd" "L", [("Z", 2), ("L", 3)], [], []⟩ := by
  rw [steady, Store.after_snoc, after_begun, run_last name_target name_own]
  rfl

theorem file_steady : (Store.after settings steady).file? "L" = some 3 := by
  rw [after_steady]
  rfl

theorem after_unsteady : Store.after settings unsteady =
    ⟨settings, [], resolved "L.tmd" "Z", [("Z", 3), ("L", 1)], [], []⟩ := by
  rw [unsteady, Store.after_snoc, after_begun, run_last name_linked name_linked]
  rfl

/-- The history without the link is steady. -/
theorem steady_keeps : Steady settings steady := by
  have steps : steady = [] ++ [⟨.change (path "L.tmd") (some declaration), linked, []⟩] ++
      [⟨.change (path "L.tmd") (some sharing), unlinked, []⟩] ++
      [⟨.change (path "Z.tmd") (some declaration), unlinked, []⟩] := rfl
  have start : Store.after settings [] = .new settings [] := rfl
  rw [steps]
  refine ((Steady.snoc (.nil settings) ?_).snoc ?_).snoc ?_
  · rw [start, Moment.load_change (s := .new settings []) name_linked (load_declaration "L.tmd")]
    intro name _ _ v file known
    cases known
  · have text : Grammar.loadText settings.app ⟨"L", (path "L.tmd").toString, sharing⟩ =
        .ok (some (shares "L")) := load_sharing "L"
    have names : (Moment.staging first "L" (path "L.tmd") (shares "L")).batchNames = ["L"] := rfl
    rw [Store.after_snoc, start, run_first, Moment.load_change (s := first) name_own text]
    intro name inside free
    rw [names] at inside
    exact absurd inside free
  · have whole : Store.after settings begun = second := after_begun
    rw [begun] at whole
    rw [List.nil_append, List.singleton_append, whole,
      Moment.load_change (s := second) name_target (load_declaration "Z.tmd"), staging_pending]
    exact pending_keeps

end Runs

end Relinking

end DataModel
