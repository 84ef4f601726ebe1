import DataModel.Proofs.FileTree.Clearing
import DataModel.Proofs.Grammar.Refusing
import DataModel.Proofs.Store.Attempts

/-!
Loading files of which some cannot be loaded. Each of these is noted and the others are loaded, by
the names and from the texts that they have on a disk without the files that are refused.
-/
namespace DataModel
open DataModel.Text DataModel.Yaml

namespace Settings
variable {settings : Settings} {t : FileTree} {p : Path}

/-- A model file on the disk. -/
def Lists (settings : Settings) (t : FileTree) (p : Path) : Prop :=
  ∃ files, t.modelFiles settings.modelRoot = .ok files ∧ p ∈ files

/-- Why something on the disk cannot be loaded. -/
def loadError? (settings : Settings) (t : FileTree) (p : Path) : Option LoadError :=
  match t.exists? p with
  | .ok true =>
    match t.read p with
    | .error f => some (.unreadable f)
    | .ok bytes => (Grammar.refusal? settings.app bytes).map .rejected
  | _ => none

/-- Bytes hold no model file. -/
def refusesBytes (settings : Settings) (bytes : List UInt8) : Bool :=
  (Grammar.refusal? settings.app bytes).isSome

/-- The bytes at a path are refused. -/
def refuses (settings : Settings) (t : FileTree) (p : Path) : Bool := t.spoilt settings.refusesBytes p

/-- The disk without the model files that are refused. -/
def cleared (settings : Settings) (t : FileTree) : FileTree :=
  t.cleared settings.modelRoot settings.refusesBytes

/-- A model file that leads nowhere does so under the same name on the disk without the files that
are refused. -/
def KeepsStrays (settings : Settings) (t : FileTree) : Prop :=
  ∀ p, settings.Lists t p → t.exists? p ≠ .ok true →
    (settings.cleared t).exists? p = t.exists? p ∧
      settings.fileName (settings.cleared t) ⟨"/", []⟩ p = settings.fileName t ⟨"/", []⟩ p

/-- No model file holds an oversized number. -/
def Sized (settings : Settings) (t : FileTree) : Prop :=
  ∀ p, settings.Lists t p → ∀ text, Store.readText t p = .ok text → ¬ HoldsOversized (charsOf text)

section Refusing

theorem refuses_iff :
    settings.refuses t p = true ↔ ∃ r, settings.loadError? t p = some (.rejected r) := by
  rw [refuses, FileTree.spoilt_iff, loadError?]
  constructor
  · rintro ⟨bytes, read, refused⟩
    obtain ⟨r, refused'⟩ := Option.isSome_iff_exists.mp refused
    obtain ⟨q, st, found⟩ := FileTree.read_iff.mp read
    refine ⟨r, ?_⟩
    rw [FileTree.exists_iff.mpr ⟨_, _, found⟩, read]
    exact congrArg (Option.map LoadError.rejected) refused'
  · rintro ⟨r, refused⟩
    split at refused
    · split at refused
      · cases refused
      · next bytes read =>
        obtain ⟨r', refused', -⟩ := Option.map_eq_some_iff.mp refused
        exact ⟨bytes, read, Option.isSome_iff_exists.mpr ⟨r', refused'⟩⟩
    · cases refused

end Refusing

section Naming
variable {q top : Place} {node : Node} {st : Stamp}

/-- A model file that leads somewhere lies below a directory. -/
theorem Lists.root (h : settings.Lists t p) :
    ∃ top st, t.find settings.modelRoot = .ok (top, .directory st) := by
  obtain ⟨files, listed, member⟩ := h
  by_contra other
  rw [FileTree.modelFiles_of_other (fun top st found => other ⟨top, st, found⟩) listed] at member
  cases member

/-- Different model files have paths of different texts. -/
theorem Lists.eq_of_toString {p' : Path} (h : settings.Lists t p) (h' : settings.Lists t p')
    (split : ∀ p, settings.Lists t p → p.Split) (text : p.toString = p'.toString) : p = p' := by
  obtain ⟨top, st, root⟩ := h.root
  have proper {p : Path} (h : settings.Lists t p) :
      p.root = settings.modelRoot.root ∧ p.parts ≠ [] := by
    obtain ⟨files, listed, member⟩ := h
    exact FileTree.mem_modelFiles root listed member
  exact Path.eq_of_toString ((proper h).1.trans (proper h').1.symm) ⟨(proper h).2, (proper h').2⟩
    ⟨split p h, split p' h'⟩ text

theorem places_found (found : t.find p = .ok (q, node))
    (root : t.find settings.modelRoot = .ok (top, .directory st)) :
    settings.places t ⟨"/", []⟩ p = (do
      let place ← FileTree.named p q
      return (← FileTree.named settings.modelRoot top, place)) := by
  have along (p : Path) : (p.under ⟨"/", []⟩).parts = p.parts := by
    unfold Path.under
    split <;> rfl
  obtain ⟨-, walk, -⟩ := FileTree.find_iff.mp found
  obtain ⟨-, walk', -⟩ := FileTree.find_iff.mp root
  rw [← along] at walk walk'
  rw [places, walk.resolve, walk'.resolve]

/-- What a model root leads to has a name, if only that of its path. -/
theorem fileName_found (found : t.find p = .ok (q, node))
    (root : t.find settings.modelRoot = .ok (top, .directory st)) :
    ∃ name, settings.fileName t ⟨"/", []⟩ p = .ok name := by
  rw [fileName, places_found found root]
  unfold FileTree.named
  cases p.firstNameFault? with
  | some f => exact ⟨_, rfl⟩
  | none =>
      cases settings.modelRoot.firstNameFault? with
      | some f => exact ⟨_, rfl⟩
      | none => exact ⟨_, rfl⟩

/-- What is not refused is found as before on the disk without the files that are. -/
theorem find_cleared (found : t.find p = .ok (q, node)) (sound : settings.refuses t p = false) :
    (settings.cleared t).find p = .ok (q, node) := by
  refine FileTree.find_cleared found fun bytes st file => Bool.eq_false_iff.mpr fun refused => ?_
  rw [file] at found
  rw [refuses, FileTree.spoilt_iff.mpr ⟨bytes, FileTree.read_iff.mpr ⟨q, st, found⟩, refused⟩] at sound
  cases sound

theorem refuses_directory (found : t.find p = .ok (q, .directory st)) :
    settings.refuses t p = false := by
  refine Bool.eq_false_iff.mpr fun refused => ?_
  obtain ⟨bytes, read, -⟩ := FileTree.spoilt_iff.mp refused
  obtain ⟨q', st', found'⟩ := FileTree.read_iff.mp read
  rw [found] at found'
  cases found'

end Naming
end Settings

namespace Store
variable {settings : Settings} {s : Store} {t : FileTree} {p : Path} {e : LoadError}

section Loading

theorem loadFile_congr {t' : FileTree} (name : s.fileName t' p = s.fileName t p)
    (there : t'.exists? p = t.exists? p)
    (text : t.exists? p = .ok true → readText t' p = readText t p) :
    s.loadFile t' p none = s.loadFile t p none := by
  unfold loadFile
  rw [name, there]
  cases s.fileName t p with
  | error f => rfl
  | ok name =>
      cases known : t.exists? p with
      | error f => rfl
      | ok answer =>
          cases answer with
          | false => rfl
          | true => simp only [text known]

/-- A file that is not refused is loaded as on the disk without those that are. -/
theorem loadFile_cleared (listed : s.settings.Lists t p) (strays : s.settings.KeepsStrays t)
    (sound : s.settings.refuses t p = false) :
    s.loadFile (s.settings.cleared t) p none = s.loadFile t p none := by
  by_cases there : t.exists? p = .ok true
  · obtain ⟨q, node, found⟩ := FileTree.exists_iff.mp there
    obtain ⟨top, st, root⟩ := listed.root
    have found' := Settings.find_cleared found sound
    have root' : (s.settings.cleared t).find s.settings.modelRoot = .ok (top, .directory st) :=
      Settings.find_cleared root (Settings.refuses_directory root)
    refine loadFile_congr ?_ ?_ fun _ => ?_
    · unfold Store.fileName Settings.fileName
      rw [Settings.places_found found root, Settings.places_found found' root']
    · rw [there]
      exact FileTree.exists_iff.mpr ⟨q, node, found'⟩
    · simp only [readText, FileTree.read, found, found']
  · obtain ⟨same, named⟩ := strays p listed there
    exact loadFile_congr named same fun there' => absurd there' there

/-- What cannot be loaded is noted. -/
theorem loadFile_fails (listed : s.settings.Lists t p) (failed : s.settings.loadError? t p = some e) :
    s.loadFile t p none = s.failedToLoad p e := by
  unfold Settings.loadError? at failed
  split at failed
  · next there =>
    obtain ⟨q, node, found⟩ := FileTree.exists_iff.mp there
    obtain ⟨top, st, root⟩ := listed.root
    obtain ⟨name, named⟩ := Settings.fileName_found found root
    have named' : s.fileName t p = .ok name := named
    cases read : t.read p with
    | error f =>
        rw [read] at failed
        cases failed
        simp only [loadFile, named', there, readText, read]
        rfl
    | ok bytes =>
        rw [read] at failed
        obtain ⟨r, refused, rfl⟩ := Option.map_eq_some_iff.mp failed
        simp only [loadFile, named', there, readText, read]
        rcases Grammar.refusal?_cases refused with decoded | ⟨text, decoded, rejected⟩
        · simp only [Except.mapError, bind, Except.bind, decoded]
        · have parsed : s.parse name p text = .error (.rejected r) := rejected name p.toString
          simp only [Except.mapError, bind, Except.bind, decoded, loadText, parsed]
  · cases failed

/-- Without oversized numbers, loading a file is only interrupted for want of a name. -/
theorem loadFile_interrupted (listed : s.settings.Lists t p) (sized : s.settings.Sized t)
    {i : Interruption} (stopped : (s.loadFile t p none).result = .error i) :
    (∃ f, i = .path f) ∨ ∃ f, i = .file f := by
  unfold loadFile at stopped
  split at stopped
  · cases stopped
    exact .inl ⟨_, rfl⟩
  · next name named =>
    dsimp only at stopped
    split at stopped
    · cases stopped
      exact .inr ⟨_, rfl⟩
    · cases stopped
    · split at stopped
      · cases stopped
      · next text read =>
        have total := Grammar.loadText_rejects s.settings.app ⟨name, p.toString, text⟩
          (sized p listed text read)
        have parsed : s.parse name p text = Grammar.loadText s.settings.app ⟨name, p.toString, text⟩ :=
          rfl
        unfold loadText at stopped
        rcases total with ⟨f, whole⟩ | ⟨r, refused⟩
        · rw [parsed, whole] at stopped
          cases f <;> cases stopped
        · rw [parsed, refused] at stopped
          cases stopped

/-- A load notes something about its own path at most, and does everything else whatever was noted
before. -/
theorem loadFile_notes (s : Store) (t : FileTree) (p : Path) :
    ∃ (o : Outcome Unit) (note : Table LoadError → Table LoadError),
      (∀ errors key, key ≠ p.toString → (note errors).get? key = errors.get? key) ∧
      ∀ errors, ({ s with loadErrors := errors } : Store).loadFile t p none =
        { o with store := { o.store with loadErrors := note errors } } := by
  have kept : ∀ (errors : Table LoadError) key, key ≠ p.toString →
      errors.get? key = errors.get? key := fun _ _ _ => rfl
  have erased : ∀ (errors : Table LoadError) key, key ≠ p.toString →
      (errors.erase p.toString).get? key = errors.get? key := fun errors key other => by
    rw [Table.get?_erase, if_neg other]
  have put (e : LoadError) : ∀ (errors : Table LoadError) key, key ≠ p.toString →
      (errors.put p.toString e).get? key = errors.get? key := fun errors key other => by
    rw [Table.get?_put, if_neg other]
  have named (errors : Table LoadError) :
      ({ s with loadErrors := errors } : Store).fileName t p = s.fileName t p := rfl
  have parsed (errors : Table LoadError) (name text : String) :
      ({ s with loadErrors := errors } : Store).parse name p text = s.parse name p text := rfl
  simp only [loadFile, named]
  cases s.fileName t p with
  | error f => exact ⟨⟨.error (.path f), s, []⟩, _, kept, fun _ => rfl⟩
  | ok name =>
      dsimp only
      cases t.exists? p with
      | error f => exact ⟨⟨.error (.file f), s, []⟩, _, kept, fun _ => rfl⟩
      | ok there =>
          cases there with
          | false => exact ⟨⟨.ok (), s.stage name none, []⟩, _, erased, fun _ => rfl⟩
          | true =>
              cases readText t p with
              | error e => exact ⟨⟨.ok (), s, _⟩, _, put e, fun _ => rfl⟩
              | ok text =>
                  simp only [loadText, parsed]
                  cases s.parse name p text with
                  | error f =>
                      cases f with
                      | rejected r => exact ⟨⟨.ok (), s, _⟩, _, put (.rejected r), fun _ => rfl⟩
                      | value f => exact ⟨⟨.error (.source (.value f)), s, []⟩, _, kept, fun _ => rfl⟩
                  | ok found =>
                      cases found with
                      | none => exact ⟨⟨.ok (), s, _⟩, _, erased, fun _ => rfl⟩
                      | some f => exact ⟨⟨.ok (), s.stageFile name f, []⟩, _, erased, fun _ => rfl⟩

theorem loadFile_settings (s : Store) (t : FileTree) (p : Path) :
    (s.loadFile t p none).store.settings = s.settings := by
  have loaded := loadFile_loaded s t p none
  generalize s.attempt? t p none = load at loaded
  generalize s.loadFile t p none = o at loaded ⊢
  cases loaded <;> rfl

end Loading

section Noting
variable {paths : List Path} {key : String}

theorem loadFile_noted (other : key ≠ p.toString) :
    (s.loadFile t p none).store.loadErrors.get? key = s.loadErrors.get? key := by
  obtain ⟨o, note, others, notes⟩ := s.loadFile_notes t p
  rw [show s.loadFile t p none = _ from notes s.loadErrors]
  exact others s.loadErrors key other

theorem loadEach_noted (others : ∀ p ∈ paths, key ≠ p.toString) :
    (s.loadEach t paths).store.loadErrors.get? key = s.loadErrors.get? key := by
  induction paths generalizing s with
  | nil => rfl
  | cons p rest ih =>
      obtain ⟨first, later⟩ := List.forall_mem_cons.mp others
      rw [loadEach, store_andThen]
      split
      · exact loadFile_noted first
      · rw [ih later]
        exact loadFile_noted first

/-- Every file that cannot be loaded is noted. -/
theorem loadEach_notes (same : s.settings = settings) (listed : ∀ p ∈ paths, settings.Lists t p)
    (ended : (s.loadEach t paths).result = .ok ()) (member : p ∈ paths)
    (failed : settings.loadError? t p = some e)
    (alone : ∀ p' ∈ paths, p'.toString = p.toString → p' = p) :
    (s.loadEach t paths).store.loadErrors.get? p.toString = some e := by
  induction paths generalizing s with
  | nil => cases member
  | cons q rest ih =>
      obtain ⟨first, others⟩ := List.forall_mem_cons.mp listed
      obtain ⟨-, alone'⟩ := List.forall_mem_cons.mp alone
      rw [loadEach, Moment.result_andThen] at ended
      rw [loadEach, store_andThen]
      cases result : (s.loadFile t q none).result with
      | error i =>
          rw [result] at ended
          cases ended
      | ok u =>
          rw [result] at ended
          by_cases later : p ∈ rest
          · exact ih ((s.loadFile_settings t q).trans same) others ended later alone'
          · obtain rfl := (List.mem_cons.mp member).resolve_right later
            subst same
            have apart : ∀ p' ∈ rest, p.toString ≠ p'.toString := fun p' inside text =>
              later (alone' p' inside text.symm ▸ inside)
            refine (loadEach_noted apart).trans ?_
            rw [loadFile_fails first failed]
            exact (Table.get?_put ..).trans (if_pos rfl)

/-- Without oversized numbers, loading files is only interrupted for want of a name. -/
theorem loadEach_interrupted (same : s.settings = settings)
    (listed : ∀ p ∈ paths, settings.Lists t p) (sized : settings.Sized t) {i : Interruption}
    (stopped : (s.loadEach t paths).result = .error i) :
    (∃ f, i = .path f) ∨ ∃ f, i = .file f := by
  induction paths generalizing s with
  | nil => cases stopped
  | cons q rest ih =>
      obtain ⟨first, others⟩ := List.forall_mem_cons.mp listed
      rw [loadEach, Moment.result_andThen] at stopped
      cases result : (s.loadFile t q none).result with
      | error i' =>
          rw [result] at stopped
          cases stopped
          subst same
          exact loadFile_interrupted first sized result
      | ok u =>
          rw [result] at stopped
          exact ih ((s.loadFile_settings t q).trans same) others stopped

end Noting

end Store
end DataModel
