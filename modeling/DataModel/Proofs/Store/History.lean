import DataModel.Proofs.Store.Applying

/-!
Histories of a store: any operations in any order, each with the tree of files and the watchers of
its moment. Every store with a history is sound, whatever texts, failures and interruptions the
history holds.
-/
namespace DataModel

inductive Operation where
  | loadAll
  | apply
  | change (path : Path) (content : Option String)

/-- An operation with what it meets. Watchers may fail at one moment and not at another. -/
structure Moment where
  operation : Operation
  tree : FileTree
  watchers : List Watcher

namespace Moment

/-- The part of an operation before its batch. -/
def load (a : Moment) (s : Store) : Outcome Unit :=
  let s := { s with watchers := a.watchers }
  match a.operation with
  | .loadAll =>
    let s := s.register.store.clear
    match a.tree.modelFiles s.settings.modelRoot with
    | .error f => ⟨.error (.file f), s, []⟩
    | .ok files => s.loadEach a.tree files
  | .apply => ⟨.ok (), s, []⟩
  | .change path content => s.loadFile a.tree path content

/-- An operation; loading everything gives no answer. -/
def run (a : Moment) (s : Store) : Outcome (Option Bool) :=
  let s := { s with watchers := a.watchers }
  match a.operation with
  | .loadAll =>
    (s.register.andThen fun _ s => s.loadModel a.tree).andThen fun _ s => ⟨.ok none, s, []⟩
  | .apply => (s.applyUpdates a.tree).andThen fun answer s => ⟨.ok (some answer), s, []⟩
  | .change path content =>
    (s.onFileChanged a.tree path content).andThen fun answer s => ⟨.ok (some answer), s, []⟩

end Moment

/-- The store after a history. -/
def Store.after (settings : Settings) (history : List Moment) : Store :=
  history.foldl (fun s a => (a.run s).store) (.new settings [])

namespace Moment
variable {s : Store}

section Endings

theorem result_andThen {α β : Type} (o : Outcome α) (next : α → Store → Outcome β) :
    (o.andThen next).result = match o.result with
      | .error i => .error i
      | .ok x => (next x o.store).result := by
  obtain ⟨result, store, events⟩ := o
  cases result with
  | error i => rfl
  | ok x => rfl

theorem store_andThen_ok {α β : Type} (o : Outcome α) (f : α → β) :
    (o.andThen fun x s => ⟨.ok (f x), s, []⟩).store = o.store := by
  obtain ⟨result, store, events⟩ := o
  cases result with
  | error i => rfl
  | ok x => rfl

theorem result_andThen_ok {α β : Type} (o : Outcome α) (f : α → β) :
    (o.andThen fun x s => ⟨.ok (f x), s, []⟩).result = o.result.map f := by
  obtain ⟨result, store, events⟩ := o
  cases result with
  | error i => rfl
  | ok x => rfl

/-- The ways in which an operation ends: its loading is interrupted, or its batch is applied. -/
inductive Ends (a : Moment) (s : Store) : Prop
  | early {i : Interruption} (load : (a.load s).result = .error i)
    (result : (a.run s).result = .error i) (store : (a.run s).store = (a.load s).store)
  | batch {f : Bool → Option Bool} (load : (a.load s).result = .ok ())
    (result : (a.run s).result = ((a.load s).store.applyUpdates a.tree).result.map f)
    (store : (a.run s).store = ((a.load s).store.applyUpdates a.tree).store)
    (told : ∀ x y, f x = some y → x = y ∧ a.operation ≠ .loadAll)

theorem ends_of_andThen {a : Moment} {s : Store} {β : Type} {f : Bool → β} {g : β → Option Bool}
    {k : Unit → Store → Outcome β}
    (nextResult : ∀ s, (k () s).result = (s.applyUpdates a.tree).result.map f)
    (nextStore : ∀ s, (k () s).store = (s.applyUpdates a.tree).store)
    (result : (a.run s).result = ((a.load s).andThen k).result.map g)
    (store : (a.run s).store = ((a.load s).andThen k).store)
    (told : ∀ x y, g (f x) = some y → x = y ∧ a.operation ≠ .loadAll) : a.Ends s := by
  rw [result_andThen] at result
  rw [Store.store_andThen] at store
  cases load : (a.load s).result with
  | error i =>
      rw [load] at result store
      exact .early load result store
  | ok u =>
      rw [load] at result store
      dsimp only at result store
      rw [nextResult] at result
      rw [nextStore] at store
      refine .batch (f := g ∘ f) load ?_ store told
      rw [result]
      cases ((a.load s).store.applyUpdates a.tree).result with
      | error i => rfl
      | ok x => rfl

theorem map_id' {α ε : Type} (r : Except ε α) : r = r.map id := by rw [Except.map_id, id]

theorem run_ends (a : Moment) (s : Store) : a.Ends s := by
  obtain ⟨operation, tree, watchers⟩ := a
  cases operation with
  | loadAll =>
      cases files : tree.modelFiles s.settings.modelRoot with
      | error f =>
          have load : (Moment.load ⟨.loadAll, tree, watchers⟩ s) =
              ⟨.error (.file f), ({ s with watchers } : Store).register.store.clear, []⟩ := by
            simp only [Moment.load]
            rw [show ({ s with watchers } : Store).register.store.clear.settings = s.settings
              from rfl, files]
          have begun : ({ s with watchers } : Store).register.store.settings = s.settings := rfl
          refine .early (i := .file f) ?_ ?_ ?_
          · rw [load]
          · refine (result_andThen_ok _ _).trans ?_
            simp only [Outcome.andThen, Store.register, Store.loadModel, files]
            rfl
          · rw [load]
            refine (store_andThen_ok _ _).trans ?_
            simp only [Outcome.andThen, Store.register, Store.loadModel, files]
      | ok files' =>
          have load : (Moment.load ⟨.loadAll, tree, watchers⟩ s) =
              ({ s with watchers } : Store).register.store.clear.loadEach tree files' := by
            simp only [Moment.load]
            rw [show ({ s with watchers } : Store).register.store.clear.settings = s.settings
              from rfl, files]
          refine ends_of_andThen (f := fun _ => ()) (g := fun _ => none)
            (k := fun _ s => (s.applyUpdates tree).andThen fun _ s => ⟨.ok (), s, []⟩)
            (fun _ => result_andThen_ok _ _) (fun _ => store_andThen_ok _ _) ?_ ?_ nofun
          · rw [load]
            refine (result_andThen_ok _ _).trans ?_
            simp only [Outcome.andThen, Store.register, Store.loadModel, files]
          · rw [load]
            refine (store_andThen_ok _ _).trans ?_
            simp only [Outcome.andThen, Store.register, Store.loadModel, files]
  | apply =>
      exact ends_of_andThen (f := id) (g := some) (k := fun _ s => s.applyUpdates tree)
        (fun _ => map_id' _) (fun _ => rfl) (result_andThen_ok _ _) (store_andThen_ok _ _)
        fun x y same => ⟨Option.some.inj same, nofun⟩
  | change path content =>
      exact ends_of_andThen (f := id) (g := some) (k := fun _ s => s.applyUpdates tree)
        (fun _ => map_id' _) (fun _ => rfl) (result_andThen_ok _ _) (store_andThen_ok _ _)
        fun x y same => ⟨Option.some.inj same, nofun⟩
end Endings

section Changing
variable {t : FileTree} {path : Path} {text name : String} {f : ModelFile}

/-- A store with a file that was loaded from a text and waits for its batch. -/
def staging (s : Store) (name : String) (path : Path) (f : ModelFile) : Store :=
  ({ s with watchers := [], model := (s.model.add f).1 }.clearError path).stage name
    (some (s.model.add f).2)

/-- Who watches is known before the batch. -/
theorem load_watched (watchers : List Watcher) (named : s.fileName t path = .ok name)
    (parsed : Grammar.loadText s.settings.app ⟨name, path.toString, text⟩ = .ok (some f)) :
    load ⟨.change path (some text), t, watchers⟩ s =
      ⟨.ok (), { staging s name path f with watchers }, []⟩ := by
  have named' : ({ s with watchers } : Store).fileName t path = .ok name := named
  simp only [load, Store.loadFile, named', Store.loadText, Store.parse, parsed]
  rfl

theorem load_change (named : s.fileName t path = .ok name)
    (parsed : Grammar.loadText s.settings.app ⟨name, path.toString, text⟩ = .ok (some f)) :
    load ⟨.change path (some text), t, []⟩ s = ⟨.ok (), staging s name path f, []⟩ :=
  load_watched [] named parsed

/-- A change that nobody watches and whose batch has no errors. -/
theorem run_change {b : Batch} {r : BatchResult} (named : s.fileName t path = .ok name)
    (parsed : Grammar.loadText s.settings.app ⟨name, path.toString, text⟩ = .ok (some f))
    (next : (staging s name path f).nextBatch t = .ok b) (resolved : b.resolve s.settings = .ok r)
    (clean : Resolution.Clean (r.found.flatMap (·.2))) :
    (run ⟨.change path (some text), t, []⟩ s).store = { staging s name path f with
      model := r.model, committed := (staging s name path f).commit b, staged := [] } := by
  have loaded := load_change named parsed
  cases run_ends ⟨.change path (some text), t, []⟩ s with
  | early failed _ _ =>
      rw [loaded] at failed
      cases failed
  | batch _ _ store _ =>
      rw [store, loaded]
      refine Store.applyUpdates_quiet (fun none' => ?_) rfl next resolved clean
      have member : name ∈ (staging s name path f).staged.keys :=
        Table.mem_keys_put.mpr (.inl rfl)
      rw [none'] at member
      cases member

end Changing

section Soundness

/-- Loading everything starts with no files and stages new versions. -/
theorem load_all (sound : s.Sound) {a : Moment} (all : a.operation = .loadAll) :
    (a.load s).store.Sound ∧ Store.Extends s.clear (a.load s).store := by
  obtain ⟨operation, tree, watchers⟩ := a
  cases all
  unfold load
  dsimp only
  have cleared : ({ s with watchers } : Store).register.store.clear.Sound :=
    sound.clear.ofSame rfl rfl rfl rfl
  have begun : Store.Extends s.clear ({ s with watchers } : Store).register.store.clear :=
    ⟨rfl, rfl, fun _ => rfl, .inl⟩
  split
  · exact ⟨cleared, begun⟩
  · obtain ⟨extends', sound'⟩ := Store.loadEach_keeps cleared tree _
    exact ⟨sound', begun.trans extends'⟩

/-- Before its batch, any other operation stages new versions and removals. -/
theorem load_part (sound : s.Sound) {a : Moment} (part : a.operation ≠ .loadAll) :
    (a.load s).store.Sound ∧ Store.Extends s (a.load s).store := by
  obtain ⟨operation, tree, watchers⟩ := a
  have same : ({ s with watchers } : Store).Sound := sound.ofSame rfl rfl rfl rfl
  have unchanged : Store.Extends s { s with watchers } := ⟨rfl, rfl, fun _ => rfl, .inl⟩
  cases operation with
  | loadAll => exact absurd rfl part
  | apply => exact ⟨same, unchanged⟩
  | change path content =>
      obtain ⟨extends', sound'⟩ := Store.loadFile_keeps same tree path content
      exact ⟨sound', unchanged.trans extends'⟩

theorem load_extends (sound : s.Sound) (a : Moment) : (a.load s).store.Sound ∧
    (Store.Extends s (a.load s).store ∨ Store.Extends s.clear (a.load s).store) := by
  by_cases all : a.operation = .loadAll
  · exact (load_all sound all).imp_right .inr
  · exact (load_part sound all).imp_right .inl

/-- Versions that did not wait are as they were, and wait no more than before. -/
theorem load_old (sound : s.Sound) (a : Moment) {v : VersionId} (there : s.model.Has v) :
    (a.load s).store.model.version? v = s.model.version? v ∧
      ((a.load s).store.Waits v → s.Waits v) := by
  rcases (load_extends sound a).2 with extends' | extends'
  · exact ⟨extends'.old there, fun waiting => (extends'.waits waiting).resolve_right (not_not_intro there)⟩
  · refine ⟨extends'.old there, fun waiting => ?_⟩
    obtain ⟨name, none'⟩ := (extends'.waits waiting).resolve_right (not_not_intro there)
    cases none'

theorem load_settings (sound : s.Sound) (a : Moment) :
    (a.load s).store.settings = s.settings := by
  rcases (load_extends sound a).2 with extends' | extends'
  · exact extends'.settings
  · exact extends'.settings

/-- No operation makes a store unsound, and none writes to a version that does not wait. -/
theorem run_keeps (sound : s.Sound) (a : Moment) :
    (a.run s).store.Sound ∧ (a.run s).store.settings = s.settings ∧
      ∀ {v}, s.model.Has v → ¬ s.Waits v →
        (a.run s).store.model.version? v = s.model.version? v := by
  have loaded := (load_extends sound a).1
  have settings := load_settings sound a
  cases run_ends a s with
  | early _ _ store =>
      rw [store]
      exact ⟨loaded, settings, fun there _ => (load_old sound a there).1⟩
  | batch _ _ store _ =>
      rw [store]
      obtain ⟨sound', settings', others⟩ := Store.applyUpdates_keeps loaded a.tree
      refine ⟨sound', settings'.trans settings, fun {v} there free => ?_⟩
      obtain ⟨same, waits⟩ := load_old sound a there
      refine (others ?_ fun waiting => free (waits waiting)).trans same
      rw [Model.has_iff, same, ← Model.has_iff]
      exact there

end Soundness

end Moment

namespace Store

theorem after_snoc (settings : Settings) (history : List Moment) (a : Moment) :
    after settings (history ++ [a]) = (a.run (after settings history)).store := by
  rw [after, List.foldl_append]
  rfl

/-- Whatever happened to a store, it is sound and has its settings. -/
theorem after_sound (settings : Settings) (history : List Moment) :
    (after settings history).Sound ∧ (after settings history).settings = settings := by
  induction history using List.reverseRecOn with
  | nil => exact ⟨.new settings [], rfl⟩
  | append_singleton before a ih =>
      rw [after_snoc]
      obtain ⟨sound, same, -⟩ := Moment.run_keeps ih.1 a
      exact ⟨sound, same.trans ih.2⟩

end Store
end DataModel
