import DataModel.Proofs.Model.Version
import DataModel.Proofs.Store.Attempts
import DataModel.Proofs.Watch.Schedule
import DataModel.Store.Session

/-!
The labels of watchers. Loading everything numbers the watchers of one name from one, in the order
in which they were registered. The name and the number can be read back from a label, whatever the
name holds, so no two watchers of a store share theirs, and nothing that happens later changes one.
-/
namespace DataModel

section Spelling
variable {α : Type} {c : α} {xs ys ds es : List α} {w w' : Watcher}

theorem eq_nil_of_last (last : c ∉ ds) (split : c :: ds = xs ++ c :: es) : xs = [] := by
  cases xs with
  | nil => rfl
  | cons x rest =>
      have behind : ds = rest ++ c :: es := (List.cons.inj split).2
      exact absurd (behind ▸ List.mem_append_right rest List.mem_cons_self) last

/-- A list is divided in one way only at the last place of a mark. -/
theorem append_cons_inj_of_last (hd : c ∉ ds) (he : c ∉ es)
    (same : xs ++ c :: ds = ys ++ c :: es) : xs = ys ∧ ds = es := by
  rcases List.append_eq_append_iff.mp same with ⟨more, front, split⟩ | ⟨more, front, split⟩
  · obtain rfl := eq_nil_of_last hd split
    exact ⟨(front.trans (List.append_nil xs)).symm, (List.cons.inj split).2⟩
  · obtain rfl := eq_nil_of_last he split
    exact ⟨front.trans (List.append_nil ys), (List.cons.inj split).2.symm⟩

namespace Watcher

theorem toList_fullName (w : Watcher) :
    w.fullName.toList = w.name.toList ++ '@' :: w.number.repr.toList := by
  simp [fullName, toString]

theorem mark_notMem_repr (n : Nat) : '@' ∉ n.repr.toList := by
  intro member
  rw [Nat.toList_repr] at member
  have digit := Nat.isDigit_of_mem_toDigits (by decide) (by decide) member
  exact absurd digit (by decide)

/-- The last mark of a label stands before its number, also where the name has such marks. -/
theorem fullName_inj : w.fullName = w'.fullName ↔ w.name = w'.name ∧ w.number = w'.number := by
  constructor
  · intro same
    have spelt := congrArg String.toList same
    rw [toList_fullName, toList_fullName] at spelt
    obtain ⟨name, digits⟩ := append_cons_inj_of_last (mark_notMem_repr _) (mark_notMem_repr _) spelt
    exact ⟨String.toList_injective name, Nat.repr_injective (String.toList_injective digits)⟩
  · rintro ⟨name, number⟩
    rw [fullName, fullName, name, number]

/-- Labels differ where the watchers of each name have different numbers. -/
theorem nodup_fullName {watchers : List Watcher}
    (numbers : ∀ name, ((watchers.filter (·.name == name)).map (·.number)).Nodup) :
    (watchers.map (·.fullName)).Nodup := by
  refine List.pairwise_map.mpr (List.pairwise_iff_forall_sublist.mpr fun {a b} pair same => ?_)
  obtain ⟨name, number⟩ := fullName_inj.mp same
  have both : [a, b].filter (fun w => w.name == b.name) = [a, b] := by simp [name]
  have inside := (pair.filter fun w => w.name == b.name).map (·.number)
  rw [both, List.map_cons, List.map_cons, number] at inside
  exact (List.nodup_cons.mp ((numbers b.name).sublist inside)).1 List.mem_cons_self

end Watcher

end Spelling

section Numbering
variable {ι : Type} [DecidableEq ι] {objects before rest : List (Watcher × ι)} {o : Watcher × ι}

namespace Watcher

/-- The watchers of one name, in their order. -/
def namesakes (objects : List (Watcher × ι)) (name : String) : List (Watcher × ι) :=
  objects.filter (·.1.name == name)

/-- The place of a watcher among its namesakes, from one. It is looked up by what tells the watchers
apart, since their names do not. -/
def ordinal (objects : List (Watcher × ι)) (o : Watcher × ι) : Nat :=
  ((namesakes objects o.1.name).map (·.2)).idxOf o.2 + 1

theorem ordinal_of_split (distinct : ((before ++ o :: rest).map (·.2)).Nodup) :
    ordinal (before ++ o :: rest) o = (namesakes before o.1.name).length + 1 := by
  have new : o.2 ∉ (namesakes before o.1.name).map (·.2) := by
    rw [List.map_append, List.map_cons, List.nodup_append] at distinct
    intro member
    obtain ⟨o', found, same⟩ := List.mem_map.mp member
    exact distinct.2.2 o'.2 (List.mem_map_of_mem (List.mem_of_mem_filter found)) o.2
      List.mem_cons_self same
  have split : namesakes (before ++ o :: rest) o.1.name =
      namesakes before o.1.name ++ o :: namesakes rest o.1.name := by
    rw [namesakes, List.filter_append, List.filter_cons, if_pos (beq_self_eq_true o.1.name)]
    rfl
  rw [ordinal, split, List.map_append, List.map_cons, List.idxOf_append_of_notMem new,
    List.idxOf_cons_self, List.length_map, Nat.add_zero]

end Watcher

namespace Store

/-- After some watchers, the others are numbered by their places among all. -/
theorem numbered_append (before rest : List (Watcher × ι))
    (distinct : ((before ++ rest).map (·.2)).Nodup) :
    numbered (before.map (·.1)).reverse (rest.map (·.1)) =
      rest.map fun o => { o.1 with number := Watcher.ordinal (before ++ rest) o } := by
  induction rest generalizing before with
  | nil => rfl
  | cons o rest ih =>
      have later : before ++ o :: rest = (before ++ [o]) ++ rest := List.append_cons before o rest
      have earlier : o.1 :: (before.map (·.1)).reverse = ((before ++ [o]).map (·.1)).reverse := by
        rw [List.map_append, List.reverse_append]
        rfl
      have place : ((before.map (·.1)).reverse.filter (·.name == o.1.name)).length + 1 =
          Watcher.ordinal (before ++ o :: rest) o := by
        rw [Watcher.ordinal_of_split distinct, List.filter_reverse, List.length_reverse,
          List.filter_map, List.length_map]
        rfl
      rw [List.map_cons, numbered, place, earlier, ih _ (later ▸ distinct), ← later]
      rfl

/-- Watchers are numbered by their places among their namesakes. -/
theorem numbered_eq_ordinals (distinct : (objects.map (·.2)).Nodup) :
    numbered [] (objects.map (·.1)) =
      objects.map fun o => { o.1 with number := Watcher.ordinal objects o } :=
  numbered_append [] objects distinct

theorem map_idxOf_of_nodup {keys : List ι} (once : keys.Nodup) :
    keys.map (keys.idxOf · + 1) = List.range' 1 keys.length := by
  refine List.ext_getElem (by simp) fun i bound _ => ?_
  rw [List.getElem_map, List.getElem_range', once.idxOf_getElem i, Nat.one_mul, Nat.add_comm]

/-- Namesakes have the numbers from one to as many as they are, in their order. -/
theorem numbers_of_objects (distinct : (objects.map (·.2)).Nodup) (name : String) :
    ((numbered [] (objects.map (·.1))).filter (·.name == name)).map (·.number) =
      List.range' 1 (Watcher.namesakes objects name).length := by
  have ordinals : ∀ o ∈ Watcher.namesakes objects name, Watcher.ordinal objects o =
      ((Watcher.namesakes objects name).map (·.2)).idxOf o.2 + 1 := by
    intro o member
    rw [Watcher.ordinal, eq_of_beq (List.mem_filter.mp member).2]
  have once : ((Watcher.namesakes objects name).map (·.2)).Nodup :=
    distinct.sublist (List.filter_sublist.map Prod.snd)
  calc ((numbered [] (objects.map (·.1))).filter (·.name == name)).map (·.number)
    _ = (Watcher.namesakes objects name).map (Watcher.ordinal objects) := by
        rw [numbered_eq_ordinals distinct, List.filter_map, List.map_map]
        rfl
    _ = ((Watcher.namesakes objects name).map (·.2)).map
          (((Watcher.namesakes objects name).map (·.2)).idxOf · + 1) := by
        rw [List.map_congr_left ordinals, List.map_map]
        rfl
    _ = List.range' 1 (Watcher.namesakes objects name).length := by
        rw [map_idxOf_of_nodup once, List.length_map]

theorem numbers_of_name (watchers : List Watcher) (name : String) :
    ((numbered [] watchers).filter (·.name == name)).map (·.number) =
      List.range' 1 ((watchers.map (·.name)).count name) := by
  -- Its place in the list tells a watcher from every other, however alike they are.
  have distinct : (watchers.zipIdx.map (·.2)).Nodup := by
    rw [List.zipIdx_map_snd]
    exact List.nodup_range' 1
  have length : (Watcher.namesakes watchers.zipIdx name).length =
      (watchers.map (·.name)).count name := by
    rw [Watcher.namesakes, ← map_zipIdx_fst, List.count_eq_length_filter, List.filter_map,
      List.length_map]
    rfl
  have numbers := numbers_of_objects distinct name
  rwa [length, List.zipIdx_map_fst] at numbers

theorem numbered_same (before watchers : List Watcher) :
    (numbered before watchers).map (fun w => (w.name, w.failing)) =
      watchers.map fun w => (w.name, w.failing) := by
  induction watchers generalizing before with
  | nil => rfl
  | cons w rest ih => rw [numbered, List.map_cons, List.map_cons, ih]

end Store

/-- Watchers with their labels, and as they were registered: the same in the same order, those of
each name numbered from one in that order, and no two with one label. -/
structure Labelled (registered watchers : List Watcher) : Prop where
  same : watchers.map (fun w => (w.name, w.failing)) =
    registered.map fun w => (w.name, w.failing)
  numbers : ∀ name, (watchers.filter (·.name == name)).map (·.number) =
    List.range' 1 ((registered.map (·.name)).count name)
  apart : (watchers.map (·.fullName)).Nodup

theorem Labelled.numbered {registered watchers : List Watcher}
    (same : watchers.map (fun w => (w.name, w.failing)) =
      registered.map fun w => (w.name, w.failing)) :
    Labelled registered (Store.numbered [] watchers) where
  same := (Store.numbered_same [] watchers).trans same
  numbers name := by
    have names := congrArg (List.map Prod.fst) same
    rw [List.map_map, List.map_map] at names
    rw [Store.numbers_of_name]
    exact congrArg (fun names => List.range' 1 (List.count name names)) names
  apart := by
    refine Watcher.nodup_fullName fun name => ?_
    rw [Store.numbers_of_name]
    exact List.nodup_range' 1

/-- A name may look like the label of another watcher. -/
example : (Store.numbered [] [⟨"gen", 1, none⟩, ⟨"gen@1", 1, none⟩, ⟨"gen", 1, none⟩]).map
    (·.fullName) = ["gen@1", "gen@1@1", "gen@2"] := by decide

end Numbering

section Keeping

namespace Store

theorem loadFile_watchers (s : Store) (t : FileTree) (path : Path) (content : Option String) :
    (s.loadFile t path content).store.watchers = s.watchers := by
  have loaded := loadFile_loaded s t path content
  generalize s.attempt? t path content = load at loaded
  generalize s.loadFile t path content = o at loaded ⊢
  cases loaded <;> rfl

theorem loadEach_watchers (s : Store) (t : FileTree) (paths : List Path) :
    (s.loadEach t paths).store.watchers = s.watchers := by
  induction paths generalizing s with
  | nil => rfl
  | cons path rest ih =>
      rw [loadEach, store_andThen]
      split
      · exact loadFile_watchers s t path none
      · rw [ih, loadFile_watchers]

theorem applyUpdates_watchers (s : Store) (t : FileTree) :
    (s.applyUpdates t).store.watchers = s.watchers := by
  by_cases empty : s.staged = []
  · rw [applyUpdates_of_empty empty]
  · obtain ⟨after, applied, same⟩ := applyUpdates_applied (t := t) empty
    rw [same]
    generalize (s.applyUpdates t).result = result at applied ⊢
    cases applied <;> rfl

theorem loadModel_watchers (s : Store) (t : FileTree) :
    (s.loadModel t).store.watchers = s.watchers := by
  rw [loadModel, store_andThen]
  dsimp only
  cases t.modelFiles s.settings.modelRoot with
  | error f => rfl
  | ok files =>
      dsimp only
      rw [store_andThen]
      split
      · exact loadEach_watchers s.clear t files
      · rw [Moment.store_andThen_ok, applyUpdates_watchers, loadEach_watchers]
        rfl

theorem onFileChanged_watchers (s : Store) (t : FileTree) (path : Path) (content : Option String) :
    (s.onFileChanged t path content).store.watchers = s.watchers := by
  rw [onFileChanged, store_andThen]
  dsimp only
  rw [store_andThen]
  split
  · exact loadFile_watchers s t path content
  · rw [applyUpdates_watchers, loadFile_watchers]

end Store

end Keeping

section Lasting
variable {s : StoreSession}

namespace StoreSession

/-- What can happen to a store in a session. -/
inductive Step where
  | act (a : Act)
  | change (path : Path) (content : Option String)
  | apply
  | loadAll (watching : Option (Time × Time))

def step (s : StoreSession) : Step → StoreSession
  | .act a => Session.act reaction s a
  | .change path content => (s.act fun store t => store.onFileChanged t path content).2
  | .apply => (s.act fun store t => store.applyUpdates t).2
  | .loadAll watching => (s.loadAll watching).2

/-- A session after some steps. -/
def steps (s : StoreSession) (later : List Step) : StoreSession := later.foldl step s

theorem watch_listener (s : StoreSession) (delay interval : Time) :
    (s.watch delay interval).2.listener = s.listener := by
  unfold watch
  dsimp only
  split
  · rfl
  · next started =>
    have kept := Session.startWatcher_listener started
    exact kept

theorem loadAll_watchers (s : StoreSession) (watching : Option (Time × Time)) :
    (s.loadAll watching).2.listener.watchers = Store.numbered [] s.listener.watchers := by
  cases watching with
  | none => exact Store.loadModel_watchers s.listener.register.store s.tree
  | some times =>
      unfold loadAll
      dsimp only
      have kept := watch_listener (s.act fun store _ => store.register).2 times.1 times.2
      generalize (s.act fun store _ => store.register).2.watch times.1 times.2 = watched at kept ⊢
      obtain ⟨started, s'⟩ := watched
      cases started with
      | error i => exact congrArg Store.watchers kept
      | ok n =>
          refine (Store.loadModel_watchers s'.listener s'.tree).trans ?_
          exact congrArg Store.watchers kept

/-- A step leaves the watchers as they are, or numbers them. -/
theorem step_watchers (s : StoreSession) (e : Step) :
    (s.step e).listener.watchers = s.listener.watchers ∨
      (s.step e).listener.watchers = Store.numbered [] s.listener.watchers := by
  cases e with
  | act a =>
      refine .inl (Session.act_keeps (P := fun store : Store => store.watchers = s.listener.watchers)
        (fun t now path store same => ?_) rfl a)
      exact (Store.onFileChanged_watchers store t path none).trans same
  | change path content =>
      exact .inl (Store.onFileChanged_watchers s.listener s.tree path content)
  | apply => exact .inl (Store.applyUpdates_watchers s.listener s.tree)
  | loadAll watching => exact .inr (loadAll_watchers s watching)

theorem step_labelled {registered : List Watcher} (labelled : Labelled registered s.listener.watchers)
    (e : Step) : Labelled registered (s.step e).listener.watchers := by
  rcases step_watchers s e with same | numbered
  · rwa [same]
  · rw [numbered]
    exact .numbered labelled.same

theorem steps_labelled {registered : List Watcher}
    (labelled : Labelled registered s.listener.watchers) (later : List Step) :
    Labelled registered (s.steps later).listener.watchers := by
  induction later generalizing s with
  | nil => exact labelled
  | cons e rest ih => exact ih (step_labelled labelled e)

/-- Whatever watchers are registered, once everything is loaded those of one name are numbered from
one in their order, no two labels are alike, and both stay so whatever happens. -/
theorem loadAll_labels (s : StoreSession) (watching : Option (Time × Time)) (later : List Step) :
    Labelled s.listener.watchers ((s.loadAll watching).2.steps later).listener.watchers := by
  refine steps_labelled ?_ later
  rw [loadAll_watchers]
  exact .numbered rfl

end StoreSession

end Lasting
end DataModel
