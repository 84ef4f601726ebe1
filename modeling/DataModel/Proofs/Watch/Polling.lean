import DataModel.Proofs.FileTree.Editing
import DataModel.Proofs.Watch.Delivery

/-!
What polls tell. A watcher remembers its last scan that did not fail, so that a poll pushes just the
paths that look different from then, each once; between two such scans nothing else is pushed for
it, however many polls fail in between.
-/
namespace DataModel

/-- The tree lists a model file below a root, and the file has a stamp. -/
def FileTree.Stamps (t : FileTree) (root p : Path) (stamp : Stamp) : Prop :=
  (∃ files, t.modelFiles root = .ok files ∧ p ∈ files) ∧ t.stamp p = .ok stamp

namespace FileWatcher
variable {t : FileTree} {root p : Path} {before after found : List (Path × Stamp)}

section Scans

theorem filterMap_of_mapM {α β ε : Type} {f : α → Except ε (Option β)} {xs : List α}
    {ys : List (Option β)} (ok : xs.mapM f = .ok ys) :
    ys.filterMap id = xs.filterMap fun x => (f x).toOption.join := by
  induction xs generalizing ys with
  | nil =>
      cases ok
      rfl
  | cons x rest ih =>
      rw [List.mapM_cons] at ok
      obtain ⟨first, made, ok⟩ := ok_of_bind ok
      obtain ⟨others, rest', ok⟩ := ok_of_bind ok
      cases ok
      rw [List.filterMap_cons, List.filterMap_cons, made, ih rest']
      rfl

/-- A scan goes through the listed files, and leaves out those that lead nowhere. -/
theorem scan_eq (ok : scan t root = .ok found) : ∃ files, t.modelFiles root = .ok files ∧
    found = files.filterMap fun p => (t.stamp p).toOption.map (p, ·) := by
  rw [scan] at ok
  obtain ⟨files, listed, ok⟩ := ok_of_bind ok
  obtain ⟨looked, mapped, ok⟩ := ok_of_bind ok
  cases ok
  refine ⟨files, listed, (filterMap_of_mapM mapped).trans (congrFun (congrArg _ ?_) _)⟩
  funext p
  cases t.stamp p with
  | ok stamp => rfl
  | error f =>
      dsimp only
      split
      · rfl
      · rfl

theorem scan_once (once : t.Once) (ok : scan t root = .ok found) : (found.map Prod.fst).Nodup := by
  obtain ⟨files, listed, rfl⟩ := scan_eq ok
  have listedOnce : files.Nodup := by
    by_cases directory : ∃ top st, t.find root = .ok (top, .directory st)
    · obtain ⟨top, st, found⟩ := directory
      exact FileTree.Once.nodup_modelFiles once found listed
    · have none' := FileTree.modelFiles_of_other
        (fun top st found => directory ⟨top, st, found⟩) listed
      rw [none']
      exact List.nodup_nil
  rw [List.map_filterMap]
  refine listedOnce.filterMap fun p q path same same' => ?_
  cases stamped : t.stamp p <;> cases stamped' : t.stamp q <;>
    simp_all [Except.toOption]

/-- A scan records the stamp of every model file, and nothing else. -/
theorem lookup_scan (ok : scan t root = .ok found) (p : Path) (stamp : Stamp) :
    found.lookup p = some stamp ↔ t.Stamps root p stamp := by
  have member : (p, stamp) ∈ found ↔ t.Stamps root p stamp := by
    obtain ⟨files, listed, rfl⟩ := scan_eq ok
    simp only [FileTree.Stamps, listed, List.mem_filterMap, Option.map_eq_some_iff]
    constructor
    · rintro ⟨q, inside, st, stamped, same⟩
      cases same
      refine ⟨⟨files, rfl, inside⟩, ?_⟩
      cases here : t.stamp p with
      | error f =>
          rw [here] at stamped
          cases stamped
      | ok st =>
          rw [here] at stamped
          cases stamped
          rfl
    · rintro ⟨⟨_, same, inside⟩, stamped⟩
      cases same
      exact ⟨p, inside, stamp, by rw [stamped]; rfl, rfl⟩
  rw [← member]
  refine ⟨fun here => ?_, scan_oneEach ok p stamp⟩
  obtain ⟨earlier, later, whole, -⟩ := List.lookup_eq_some_iff.mp here
  rw [whole]
  simp

end Scans

section Differences

/-- A path looks different from before. -/
inductive Differs (before after : List (Path × Stamp)) (p : Path) : Prop
  | new {stamp : Stamp} (absent : before.lookup p = none) (here : after.lookup p = some stamp)
  | gone {stamp : Stamp} (there : before.lookup p = some stamp) (absent : after.lookup p = none)
  | touched {old new : Stamp} (there : before.lookup p = some old)
    (here : after.lookup p = some new) (other : old ≠ new)

/-- Paths in order, each once, that look different from before, and all of these. -/
structure Tells (before after : List (Path × Stamp)) (paths : List Path) : Prop where
  exact : ∀ p, p ∈ paths ↔ Differs before after p
  once : paths.Nodup
  sorted : paths.Pairwise fun p q => p.le q = true

theorem differs_iff : Differs before after p ↔ before.lookup p ≠ after.lookup p := by
  constructor
  · rintro (⟨absent, here⟩ | ⟨there, absent⟩ | ⟨there, here, other⟩)
    · rw [absent, here]
      exact (Option.some_ne_none _).symm
    · rw [there, absent]
      exact Option.some_ne_none _
    · rw [there, here]
      exact fun same => other (Option.some.inj same)
  · intro differ
    cases there : before.lookup p with
    | none =>
        rw [there] at differ
        obtain ⟨stamp, here⟩ := Option.ne_none_iff_exists'.mp differ.symm
        exact .new there here
    | some old =>
        rw [there] at differ
        cases here : after.lookup p with
        | none => exact .gone there here
        | some new => exact .touched there here fun same => differ (by rw [here, same])

theorem differences_once (once : (before.map Prod.fst).Nodup) (once' : (after.map Prod.fst).Nodup) :
    (differences before after).Nodup := by
  rw [differences, (List.mergeSort_perm _ _).nodup_iff, List.nodup_append]
  refine ⟨once'.sublist (List.filter_sublist.map _), once.sublist List.filter_sublist, ?_⟩
  rintro p changed _ gone rfl
  obtain ⟨⟨_, stamp⟩, inside, rfl⟩ := List.mem_map.mp changed
  have absent := Option.isNone_iff_eq_none.mp (List.mem_filter.mp gone).2
  have unequal := List.lookup_eq_none_iff.mp absent _ (List.mem_filter.mp inside).1
  simp at unequal

theorem differences_tells (once : (before.map Prod.fst).Nodup)
    (once' : (after.map Prod.fst).Nodup) (each : OneEach after) :
    Tells before after (differences before after) where
  exact _ := (mem_differences each).trans differs_iff.symm
  once := differences_once once once'
  sorted := @List.pairwise_mergeSort _ Path.le (fun _ _ _ => Path.le_trans) Path.le_total _

end Differences

end FileWatcher

/-- The watcher that scans in an act, by its start or by a poll. -/
def Act.scanner? : Act → Option Nat
  | .start n | .poll n | .turn n => some n
  | _ => none

namespace Session
variable {σ ε : Type} {l : Listener σ ε} {s : Session σ ε} {a : Act} {n : Nat} {w : FileWatcher}
  {found : List (Path × Stamp)} {acts : List Act}

section Recording

/-- What a watcher finds in an act, if it scans and the scan does not fail. -/
def scanIn (s : Session σ ε) (n : Nat) (a : Act) : Option (List (Path × Stamp)) :=
  if a.scanner? = some n then (s.scanned? n).map (·.2) else none

/-- The scans of a watcher that did not fail. -/
def scans (l : Listener σ ε) (s : Session σ ε) (n : Nat) : List Act → List (List (Path × Stamp))
  | [] => []
  | a :: rest => (s.scanIn n a).toList ++ (s.act l a).scans l n rest

/-- What a watcher remembers. -/
def recorded (s : Session σ ε) (n : Nat) : List (Path × Stamp) :=
  ((s.watchers[n]?).map (·.seen)).getD []

theorem recorded_of_known (known : s.watchers[n]? = some w) : s.recorded n = w.seen := by
  rw [recorded, known]
  rfl

theorem scanner_of_polls (polls : a.Polls n) : a.scanner? = some n := by
  rcases polls with rfl | rfl
  · rfl
  · rfl

theorem scanIn_of_polls (polls : a.Polls n) : s.scanIn n a = (s.scanned? n).map (·.2) :=
  if_pos (scanner_of_polls polls)

theorem stopWatcher_watchers (m : Nat) : (s.stopWatcher l m).watchers =
    s.watchers.modify m fun w => { w with stopped := true } := by
  rw [stopWatcher]
  split
  · rfl
  · rfl

theorem recorded_set {m : Nat} {seen : List (Path × Stamp)} {s' : Session σ ε}
    (known : s.watchers[m]? = some w)
    (set : s'.watchers = s.watchers.set m { w with seen }) (n : Nat) :
    s'.recorded n = if m = n then seen else s.recorded n := by
  rw [recorded, recorded, set, List.getElem?_set]
  by_cases here : m = n
  · subst here
    rw [if_pos rfl, if_pos (List.getElem?_eq_some_iff.mp known).1, if_pos rfl]
    rfl
  · rw [if_neg here, if_neg here]

/-- A scan that does not fail is remembered; one that fails changes no watcher. -/
theorem act_scanner {m : Nat} (scans : a.scanner? = some m) :
    (s.scanned? m = none ∧ (s.act l a).watchers = s.watchers) ∨
    ∃ w found, s.scanned? m = some (w, found) ∧
      (s.act l a).watchers = s.watchers.set m { w with seen := found } := by
  have polled (polls : a.Polls m) : (s.scanned? m = none ∧ (s.act l a).watchers = s.watchers) ∨
      ∃ w found, s.scanned? m = some (w, found) ∧
        (s.act l a).watchers = s.watchers.set m { w with seen := found } := by
    rcases act_poll (l := l) (s := s) polls with ⟨none', same, -⟩ | ⟨w, found, scan, same⟩
    · exact .inl ⟨none', same⟩
    · exact .inr ⟨w, found, scan, by rw [same]; rfl⟩
  cases a with
  | start m =>
      cases scans
      rw [act, startWatcher, scanned?]
      cases s.watchers[m]? with
      | none => exact .inl ⟨rfl, rfl⟩
      | some w =>
          dsimp only [FileWatcher.start]
          cases FileWatcher.scan s.tree w.root with
          | error f => exact .inl ⟨rfl, rfl⟩
          | ok found => exact .inr ⟨w, found, rfl, rfl⟩
  | poll m =>
      cases scans
      exact polled (.inl rfl)
  | turn m =>
      cases scans
      exact polled (.inr rfl)
  | edit _ => cases scans
  | add _ => cases scans
  | stop _ => cases scans
  | advance _ => cases scans

/-- A watcher remembers what it finds in an act, or else what it remembered before. -/
theorem act_recorded (new : ∀ w, a = .add w → w.seen = []) :
    (s.act l a).recorded n = (s.scanIn n a).getD (s.recorded n) := by
  cases scanner : a.scanner? with
  | some m =>
      have scanIn : s.scanIn n a = if m = n then (s.scanned? n).map (·.2) else none := by
        simp only [Session.scanIn, scanner, Option.some.injEq]
      rcases act_scanner (l := l) (s := s) scanner with ⟨failed, same⟩ | ⟨w, found, scan, set⟩
      · rw [scanIn, recorded, same]
        split
        · next here =>
          rw [← here, failed]
          rfl
        · rfl
      · rw [scanIn, recorded_set (scanned?_eq_some.mp scan).1 set]
        split
        · next here =>
          rw [← here, scan]
          rfl
        · rfl
  | none =>
      have scanIn : s.scanIn n a = none := if_neg (by simp [scanner])
      rw [scanIn, Option.getD_none]
      cases a with
      | start m => cases scanner
      | poll m => cases scanner
      | turn m => cases scanner
      | edit e =>
          rw [act, edit]
          cases s.tree.edit e with
          | error f => rfl
          | ok t => rfl
      | add w =>
          show (((s.watchers ++ [w])[n]?).map (·.seen)).getD [] = s.recorded n
          rw [recorded]
          rcases Nat.lt_trichotomy n s.watchers.length with before | rfl | after
          · rw [List.getElem?_append_left before]
          · rw [List.getElem?_concat_length, List.getElem?_eq_none (Nat.le_refl _)]
            exact new w rfl
          · rw [List.getElem?_eq_none (Nat.le_of_lt after), List.getElem?_eq_none]
            simpa using after
      | stop m =>
          rw [act, recorded, recorded, stopWatcher_watchers, List.getElem?_modify]
          cases s.watchers[n]? with
          | none => rfl
          | some w =>
              dsimp only [Option.map_eq_map, Option.map_some]
              split
              · rfl
              · rfl
      | advance span => rw [act, recorded, recorded, advance_watchers]

/-- A watcher remembers its last scan that did not fail. -/
theorem run_recorded (new : ∀ w, .add w ∈ acts → w.seen = []) :
    (s.run l acts).recorded n = (s.scans l n acts).getLast?.getD (s.recorded n) := by
  induction acts generalizing s with
  | nil => rfl
  | cons a rest ih =>
      rw [run_cons, ih fun w inside => new w (List.mem_cons_of_mem _ inside), scans,
        act_recorded fun w same => new w (same ▸ List.mem_cons_self)]
      cases s.scanIn n a with
      | none => rfl
      | some found => simp [List.getLast?_cons]

end Recording

section Pushing
variable {d : Debouncer (Nat × Path) Unit} {delay : Time} {paths : List Path}

/-- The paths that an act pushes for a watcher: those of its calls that wait for a new push. -/
def pushed (l : Listener σ ε) (s : Session σ ε) (n : Nat) (a : Act) : List Path :=
  ((s.act l a).calls.waiting.filter fun c =>
    decide (s.calls.pushes ≤ c.number) && c.key.1 == n).map (·.key.2)

/-- The paths that acts push for a watcher. -/
def pushes (l : Listener σ ε) (s : Session σ ε) (n : Nat) : List Act → List Path
  | [] => []
  | a :: rest => s.pushed l n a ++ (s.act l a).pushes l n rest

theorem pushes_append (early late : List Act) : s.pushes l n (early ++ late) =
    s.pushes l n early ++ (s.run l early).pushes l n late := by
  induction early generalizing s with
  | nil => rfl
  | cons a rest ih =>
      rw [List.cons_append, pushes, pushes, ih, List.append_assoc]
      rfl

/-- The calls that wait after different paths were pushed: those of other paths, and a new one for
each path, numbered from the pushes before. -/
theorem pushAll_waiting (once : paths.Nodup) : (pushAll d delay n paths).waiting =
    d.waiting.filter (fun c => !(paths.map (n, ·)).contains c.key) ++
      (paths.zipIdx d.pushes).map fun q => ⟨(n, q.1), (), d.now.after delay, q.2⟩ := by
  induction paths generalizing d with
  | nil => simp [pushAll]
  | cons q rest ih =>
      obtain ⟨new, once⟩ := List.nodup_cons.mp once
      have pushed : pushAll d delay n (q :: rest) = pushAll (d.push delay (n, q) ()) delay n rest :=
        rfl
      have waiting : (d.push delay (n, q) ()).waiting =
          d.waiting.filter (fun c => !(c.key == (n, q))) ++
            [⟨(n, q), (), d.now.after delay, d.pushes⟩] := rfl
      have free : (rest.map (n, ·)).contains (n, q) = false := by simpa using new
      rw [pushed, ih once, waiting, List.filter_append, List.filter_filter, List.append_assoc]
      congr 1
      · refine List.filter_congr fun c _ => ?_
        rw [List.map_cons, List.contains_cons, Bool.not_or, Bool.and_comm]
      · simp only [List.filter_cons, free, Bool.not_false, if_true, List.filter_nil,
          List.zipIdx_cons, List.map_cons]
        rfl

/-- A poll pushes the differences, each once. -/
theorem pushed_scanned (orderly : s.Orderly) (polls : a.Polls n)
    (scan : s.scanned? n = some (w, found)) (once : (FileWatcher.differences w.seen found).Nodup) :
    s.pushed l n a = FileWatcher.differences w.seen found := by
  rw [pushed, act_of_scanned polls scan, after]
  dsimp only
  rw [pushAll_waiting once, List.filter_append, List.filter_filter, List.filter_eq_nil_iff.mpr,
    List.filter_eq_self.mpr, List.nil_append, List.map_map]
  · exact List.zipIdx_map_fst _ _
  · intro c member
    obtain ⟨⟨q, number⟩, inside, rfl⟩ := List.mem_map.mp member
    simpa using (List.mem_zipIdx inside).1
  · intro c member
    have earlier := orderly.pushed c member
    simp [Nat.not_le.mpr earlier]

/-- Whatever else happens, a watcher that does not poll, or whose scan fails, pushes nothing. -/
theorem pushed_nothing (orderly : s.Orderly) (quiet : a.Polls n → s.scanned? n = none) :
    s.pushed l n a = [] := by
  rw [pushed, List.filter_eq_nil_iff.mpr, List.map_nil]
  intro c waits pushed
  obtain ⟨new, here⟩ := (Bool.and_eq_true_iff).mp pushed
  obtain rfl := beq_iff_eq.mp here
  rcases waiting_of_act orderly waits with ⟨before, -⟩ | ⟨polls, ⟨w, found, known, ok, -⟩, -⟩
  · exact absurd (of_decide_eq_true new) (Nat.not_le.mpr (orderly.pushed c before))
  · have failed := quiet polls
    rw [scanned?_eq_some.mpr ⟨known, ok⟩] at failed
    cases failed

theorem pushes_nothing (orderly : s.Orderly) (failed : s.scans l n acts = []) :
    s.pushes l n acts = [] := by
  induction acts generalizing s with
  | nil => rfl
  | cons a rest ih =>
      obtain ⟨here, later⟩ := List.append_eq_nil_iff.mp failed
      rw [pushes, ih (act_orderly orderly a) later, pushed_nothing orderly, List.nil_append]
      intro polls
      rw [Option.toList_eq_nil_iff, scanIn_of_polls polls] at here
      exact Option.map_eq_none_iff.mp here

end Pushing

section Polling

theorem poll_tree {r : List Path × Session σ ε} (ok : s.poll n = .ok r) : r.2.tree = s.tree := by
  rw [poll_eq] at ok
  split at ok
  · cases ok
    rfl
  · split at ok
    · cases ok
    · cases ok
      rfl

/-- Only edits change the tree. -/
theorem act_tree (l : Listener σ ε) (s : Session σ ε) (a : Act) :
    (s.act l a).tree = s.tree ∨ ∃ e, s.tree.edit e = .ok (s.act l a).tree := by
  cases a with
  | edit e =>
      rw [act, edit]
      cases edited : s.tree.edit e with
      | error f => exact .inl rfl
      | ok t => exact .inr ⟨e, edited⟩
  | add w => exact .inl rfl
  | start m =>
      rw [act, startWatcher]
      cases s.watchers[m]? with
      | none => exact .inl rfl
      | some w =>
          dsimp only
          cases w.start s.tree with
          | error f => exact .inl rfl
          | ok w' => exact .inl rfl
  | stop m =>
      rw [act, stopWatcher]
      split
      · exact .inl rfl
      · exact .inl rfl
  | advance span =>
      rw [act, advance_eq]
      exact .inl rfl
  | poll m =>
      rw [act]
      cases polled : s.poll m with
      | error f => exact .inl rfl
      | ok r => exact .inl (poll_tree polled)
  | turn m =>
      rw [act]
      cases polled : s.poll m with
      | error f => exact .inl rfl
      | ok r => exact .inl (poll_tree polled)

theorem act_once (once : s.tree.Once) (a : Act) : (s.act l a).tree.Once := by
  rcases act_tree l s a with same | ⟨e, edited⟩
  · rwa [same]
  · exact once.edit edited

theorem run_once (once : s.tree.Once) (acts : List Act) : (s.run l acts).tree.Once := by
  induction acts generalizing s with
  | nil => exact once
  | cons a rest ih => exact ih (act_once once a)

theorem scans_once (once : s.tree.Once) (member : found ∈ s.scans l n acts) :
    (found.map Prod.fst).Nodup := by
  induction acts generalizing s with
  | nil => cases member
  | cons a rest ih =>
      rcases List.mem_append.mp member with here | later
      · rw [Option.mem_toList, scanIn] at here
        split at here
        · obtain ⟨⟨w, _⟩, scan, rfl⟩ := Option.map_eq_some_iff.mp here
          exact FileWatcher.scan_once once (scanned?_eq_some.mp scan).2
        · cases here
      · exact ih (act_once once a) later

/-- A poll that does not fail: it tells and pushes the differences to what its watcher remembers,
and remembers what it found. -/
structure Reports (l : Listener σ ε) (s : Session σ ε) (n : Nat) (a : Act) (w : FileWatcher)
    (found : List (Path × Stamp)) (paths : List Path) : Prop where
  told : s.poll n = .ok (paths, s.act l a)
  tells : FileWatcher.Tells w.seen found paths
  calls : (s.act l a).calls = pushAll s.calls w.delay n paths
  once : s.pushed l n a = paths
  watchers : (s.act l a).watchers = s.watchers.set n { w with seen := found }

theorem reports_of_scan (orderly : s.Orderly) (polls : a.Polls n)
    (known : s.watchers[n]? = some w) (ok : FileWatcher.scan s.tree w.root = .ok found)
    (before : (w.seen.map Prod.fst).Nodup) (after : (found.map Prod.fst).Nodup) :
    Reports l s n a w found (FileWatcher.differences w.seen found) := by
  have scan := scanned?_eq_some.mpr ⟨known, ok⟩
  have act : s.act l a = s.after n w found := act_of_scanned polls scan
  exact {
    told := by rw [poll_eq, known]; dsimp only; rw [ok, act]
    tells := FileWatcher.differences_tells before after (FileWatcher.scan_oneEach ok)
    calls := by rw [act]; rfl
    once := pushed_scanned orderly polls scan (FileWatcher.differences_once before after)
    watchers := by rw [act]; rfl }

/-- A poll whose scan fails changes nothing of the watchers and their calls. -/
theorem poll_of_failed {f : FileFault} (polls : a.Polls n) (known : s.watchers[n]? = some w)
    (failed : FileWatcher.scan s.tree w.root = .error f) : s.poll n = .error f ∧
      (s.act l a).watchers = s.watchers ∧ (s.act l a).calls = s.calls := by
  refine ⟨by rw [poll_eq, known]; dsimp only; rw [failed], ?_⟩
  rcases act_poll (l := l) (s := s) polls with ⟨-, same⟩ | ⟨w', found, scan, -⟩
  · exact same
  · obtain ⟨known', ok⟩ := scanned?_eq_some.mp scan
    rw [known] at known'
    cases known'
    rw [failed] at ok
    cases ok

/-- Polls tell just what changed, and lose none of it. What a watcher remembers is its last scan
that did not fail. A poll that does not fail tells, in order and each once, the paths that look
different from then, and pushes each of them; one that fails pushes nothing and forgets nothing. So
what is pushed from one scan to the next that does not fail is each difference once. -/
theorem polls_tell_differences (l : Listener σ ε) (tree : FileTree) (listener : σ)
    (acts : List Act) (once : tree.Once) (new : ∀ w, .add w ∈ acts → w.seen = []) (n : Nat) :
    let start := Session.new tree listener
    let s := start.run l acts
    let before := (start.scans l n acts).getLast?.getD []
    (∀ w, s.watchers[n]? = some w → w.seen = before ∧ ∀ a, a.Polls n →
      (∀ f, FileWatcher.scan s.tree w.root = .error f → s.poll n = .error f ∧
        (s.act l a).watchers = s.watchers ∧ (s.act l a).calls = s.calls) ∧
      ∀ found, FileWatcher.scan s.tree w.root = .ok found →
        (∀ p stamp, found.lookup p = some stamp ↔ s.tree.Stamps w.root p stamp) ∧
        ∃ paths, Reports l s n a w found paths) ∧
    ∀ later, (∀ w, .add w ∈ later → w.seen = []) → s.scans l n later = [] →
      ∀ b, b.Polls n → ∀ found, (s.run l later).scanIn n b = some found →
        FileWatcher.Tells before found (s.pushes l n (later ++ [b])) := by
  intro start s before
  have orderly : s.Orderly := run_orderly (new_orderly tree listener) acts
  have once' : s.tree.Once := run_once (s := start) once acts
  have recorded : s.recorded n = before := run_recorded new
  have beforeOnce : (before.map Prod.fst).Nodup := by
    cases last : (start.scans l n acts).getLast? with
    | none => simp [before, last]
    | some found =>
        simp only [before, last, Option.getD_some]
        exact scans_once (s := start) once (List.mem_of_getLast? last)
  refine ⟨fun w known => ?_, fun later new' failed b polls found scan => ?_⟩
  · have seen : w.seen = before := (recorded_of_known known).symm.trans recorded
    refine ⟨seen, fun a polls => ⟨fun f failed => poll_of_failed polls known failed,
      fun found ok => ⟨FileWatcher.lookup_scan ok, FileWatcher.differences w.seen found, ?_⟩⟩⟩
    exact reports_of_scan orderly polls known ok (seen ▸ beforeOnce)
      (FileWatcher.scan_once once' ok)
  · rw [scanIn_of_polls polls] at scan
    obtain ⟨⟨w, _⟩, scanned, rfl⟩ := Option.map_eq_some_iff.mp scan
    obtain ⟨known, ok⟩ := scanned?_eq_some.mp scanned
    have seen : w.seen = before := by
      rw [← recorded_of_known known, run_recorded new', failed]
      exact recorded
    have reports := reports_of_scan (l := l) (run_orderly orderly later) polls known ok
      (seen ▸ beforeOnce) (FileWatcher.scan_once (run_once once' later) ok)
    rw [pushes_append, pushes_nothing orderly failed, List.nil_append, pushes, pushes,
      List.append_nil, reports.once]
    exact seen ▸ reports.tells

end Polling

end Session
end DataModel

namespace DataModel.Watching
open Relinking (path settings)
open Retrying (Fit find_file fit_used)

/-- A link through the file, as if that were a directory. -/
def through : Node := .link "B.tmd/x"

/-- The disk with the link, which no scan gets past. -/
def barred : FileTree :=
  ⟨[(["m", "B.tmd"], .file [] (.time 0)), (["m", "L.tmd"], through), (["m"], .directory (.changes 1))],
    0, 1⟩

/-- When the file is deleted, the link leads nowhere. -/
def dangling : FileTree := ⟨[(["m", "L.tmd"], through), (["m"], .directory (.changes 2))], 0, 2⟩

/-- The watcher is started. -/
def opening : List Act := [.add watcher, .start 0]

/-- A poll fails before the file is deleted. -/
def barring : List Act :=
  [.edit (.write (path "L.tmd") (.link "B.tmd/x") none), .poll 0, .edit (.delete (path "B.tmd"))]

section Scans

theorem fit_link : Fit "L.tmd" :=
  ⟨rfl, rfl, by with_unfolding_all rfl, by with_unfolding_all rfl, by decide⟩

theorem target_parts : Path.ofString "B.tmd/x" = ⟨"", ["B.tmd", "x"]⟩ := by
  with_unfolding_all rfl

theorem stamp_barred : barred.stamp (path "L.tmd") =
    .error (.system .notDirectory (path "L.tmd").toString) := by
  have place : barred.locate true FileTree.maxLinks [] (path "L.tmd").parts =
      .error .notDirectory := by
    simp [FileTree.locate, FileTree.maxLinks, path, barred, through, FileTree.node?, List.lookup,
      Relinking.short_root, fit_link.short, fit_used.short, target_parts, Path.isAbsolute]
  rw [FileTree.stamp, FileTree.find, FileTree.checkPath, fit_link.allowed, fit_link.fits, place]
  rfl

theorem scan_barred : FileWatcher.scan barred settings.modelRoot =
    .error (.system .notDirectory (path "L.tmd").toString) := by
  have root := find_root (t := barred) rfl
  have file : barred.modelPath? settings.modelRoot ["m", "B.tmd"] = some (path "B.tmd") := by
    rw [FileTree.modelPath?_of_directory root]
    rfl
  have link : barred.modelPath? settings.modelRoot ["m", "L.tmd"] = some (path "L.tmd") := by
    rw [FileTree.modelPath?_of_directory root]
    rfl
  have top : barred.modelPath? settings.modelRoot ["m"] = none := by
    rw [FileTree.modelPath?_of_directory root]
    rfl
  have sorted : [path "B.tmd", path "L.tmd"].Pairwise fun p q => Path.le p q = true := by
    simp
    with_unfolding_all rfl
  have files : barred.modelFiles settings.modelRoot = .ok [path "B.tmd", path "L.tmd"] := by
    rw [FileTree.modelFiles_of_directory root,
      show barred.entries = [(["m", "B.tmd"], _), (["m", "L.tmd"], _), (["m"], _)] from rfl]
    simp only [List.filterMap_cons, List.filterMap_nil, file, link, top]
    rw [List.mergeSort_of_pairwise sorted]
  have stamp : barred.stamp (path "B.tmd") = .ok (.time 0) := by
    rw [FileTree.stamp, find_file fit_used rfl rfl]
    rfl
  rw [FileWatcher.scan, files]
  simp [bind, Except.bind, stamp, stamp_barred, List.mapM_cons, FileFault.cause?]

theorem scan_dangling : FileWatcher.scan dangling settings.modelRoot = .ok [] := by
  have root := find_root (t := dangling) rfl
  have link : dangling.modelPath? settings.modelRoot ["m", "L.tmd"] = some (path "L.tmd") := by
    rw [FileTree.modelPath?_of_directory root]
    rfl
  have top : dangling.modelPath? settings.modelRoot ["m"] = none := by
    rw [FileTree.modelPath?_of_directory root]
    rfl
  have files : dangling.modelFiles settings.modelRoot = .ok [path "L.tmd"] := by
    rw [FileTree.modelFiles_of_directory root,
      show dangling.entries = [(["m", "L.tmd"], _), (["m"], _)] from rfl]
    simp only [List.filterMap_cons, List.filterMap_nil, link, top]
    rw [List.mergeSort_of_pairwise (List.pairwise_singleton _ _)]
  have place : dangling.locate true FileTree.maxLinks [] (path "L.tmd").parts =
      .error .missing := by
    simp [FileTree.locate, FileTree.maxLinks, path, dangling, through, FileTree.node?, List.lookup,
      Relinking.short_root, fit_link.short, fit_used.short, target_parts, Path.isAbsolute]
  have stamp : dangling.stamp (path "L.tmd") =
      .error (.system .missing (path "L.tmd").toString) := by
    rw [FileTree.stamp, FileTree.find, FileTree.checkPath, fit_link.allowed, fit_link.fits, place]
    rfl
  rw [FileWatcher.scan, files]
  simp [bind, Except.bind, stamp, List.mapM_cons, FileFault.cause?, pure, Except.pure]

theorem edit_barred :
    disk.edit (.write (path "L.tmd") (.link "B.tmd/x") none) = .ok barred := by
  have parent : (path "L.tmd").parent = settings.modelRoot := rfl
  have root : FileTree.checkPath settings.modelRoot = .ok () := by with_unfolding_all rfl
  have top : ({ disk with changes := 1 } : FileTree).locate true FileTree.maxLinks []
      settings.modelRoot.parts = .ok ["m"] := by
    simp [FileTree.locate, settings, disk, FileTree.node?, List.lookup, Relinking.short_root]
  have made : ({ disk with changes := 1 } : FileTree).makeDirectories settings.modelRoot =
      .ok { disk with changes := 1 } := by
    rw [FileTree.makeDirectories, root,
      show settings.modelRoot.onTheWay = [settings.modelRoot] from rfl]
    simp only [bind, Except.bind, List.foldlM_cons, List.foldlM_nil, top]
    rfl
  rw [FileTree.edit]
  simp only [FileTree.write]
  rw [show disk.changes + 1 = 1 from rfl, parent, made]
  simp only [bind, Except.bind]
  rw [FileTree.checkPath, fit_link.allowed, fit_link.fits]
  simp only [top]
  rfl

theorem edit_dangling : barred.edit (.delete (path "B.tmd")) = .ok dangling := by
  have place : ({ barred with changes := 2 } : FileTree).locate false FileTree.maxLinks []
      (path "B.tmd").parts = .ok ["m", "B.tmd"] := by
    simp [FileTree.locate, path, barred, FileTree.node?, List.lookup, Relinking.short_root,
      fit_used.short]
  rw [FileTree.edit]
  simp only [FileTree.delete]
  rw [show barred.changes + 1 = 2 from rfl, place]
  rfl

end Scans

section Runs

/-- A session on a tree, when nothing is pushed. -/
def idle (t : FileTree) : Session (List Path) Unit := ⟨t, [started], [0], .start, [], []⟩

theorem run_opening : (Session.new disk []).run listener opening = idle disk := by
  rw [opening, Session.run_cons, Session.run_cons, Session.act, Session.act]
  simp only [Session.addWatcher, Session.new, Session.startWatcher, List.nil_append,
    List.getElem?_cons_zero, start_disk, bind, Except.bind, pure, Except.pure]
  rfl

theorem poll_barred : (idle barred).poll 0 =
    .error (.system .notDirectory (path "L.tmd").toString) := by
  have scan : FileWatcher.scan (idle barred).tree started.root = _ := scan_barred
  rw [Session.poll_eq, show (idle barred).watchers[0]? = some started from rfl]
  dsimp only
  rw [scan]

theorem act_link : (idle disk).act listener (.edit (.write (path "L.tmd") (.link "B.tmd/x") none)) =
    idle barred := by
  rw [Session.act, Session.edit, show (idle disk).tree = disk from rfl, edit_barred]
  rfl

theorem act_barred : (idle barred).act listener (.poll 0) = idle barred := by
  rw [Session.act, poll_barred]

theorem act_deletion : (idle barred).act listener (.edit (.delete (path "B.tmd"))) =
    idle dangling := by
  rw [Session.act, Session.edit, show (idle barred).tree = barred from rfl, edit_dangling]
  rfl

theorem run_barring : (idle disk).run listener barring = idle dangling := by
  rw [barring, Session.run_cons, Session.run_cons, Session.run_cons, act_link, act_barred,
    act_deletion]
  rfl

theorem scans_barring : (idle disk).scans listener 0 barring = [] := by
  have failed : (idle barred).scanned? 0 = none := by
    rw [Session.scanned?, show (idle barred).watchers[0]? = some started from rfl]
    dsimp only
    rw [show FileWatcher.scan (idle barred).tree started.root = _ from scan_barred]
  rw [barring, Session.scans, Session.scans, Session.scans, Session.scans, act_link, act_barred,
    Session.scanIn_of_polls (.inl rfl), failed]
  rfl

theorem scans_opening : (Session.new disk []).scans listener 0 opening =
    [[(path "B.tmd", .time 0)]] := by
  have scan : ((Session.new disk []).act listener (.add watcher)).scanned? 0 =
      some (watcher, [(path "B.tmd", .time 0)]) :=
    Session.scanned?_eq_some.mpr ⟨rfl, scan_disk⟩
  rw [opening, Session.scans, Session.scans, Session.scans, Session.scanIn, Session.scanIn, scan]
  rfl

end Runs

/-- The deletion of a file is pushed by the first poll that does not fail. -/
theorem polls_tell_differences_deletion :
    let s := (Session.new disk []).run listener opening
    (disk.Once ∧ (∀ w, .add w ∈ opening → w.seen = []) ∧ (∀ w, .add w ∈ barring → w.seen = []) ∧
      s.scans listener 0 barring = [] ∧
      (s.run listener (barring.take 1)).poll 0 =
        .error (.system .notDirectory (path "L.tmd").toString) ∧
      (s.run listener barring).scanIn 0 (.poll 0) = some []) ∧
    FileWatcher.Tells [(path "B.tmd", .time 0)] [] (s.pushes listener 0 (barring ++ [.poll 0])) := by
  intro s
  have same : s = idle disk := run_opening
  have once : disk.Once := by
    simp [FileTree.Once, disk]
  have new : ∀ w, .add w ∈ opening → w.seen = [] := by
    simp [opening, watcher, FileWatcher.new]
  have new' : ∀ w, .add w ∈ barring → w.seen = [] := by
    simp [barring]
  have failed : s.scans listener 0 barring = [] := same ▸ scans_barring
  have scan : (s.run listener barring).scanIn 0 (.poll 0) = some [] := by
    have scanned : (idle dangling).scanned? 0 = some (started, []) :=
      Session.scanned?_eq_some.mpr ⟨rfl, scan_dangling⟩
    rw [same, run_barring, Session.scanIn_of_polls (.inl rfl), scanned]
    rfl
  have stuck : (s.run listener (barring.take 1)).poll 0 =
      .error (.system .notDirectory (path "L.tmd").toString) := by
    rw [same, show barring.take 1 = [_] from rfl, Session.run_cons, act_link]
    exact poll_barred
  refine ⟨⟨once, new, new', failed, stuck, scan⟩, ?_⟩
  obtain ⟨-, tells⟩ := Session.polls_tell_differences listener disk [] opening once new 0
  have told := tells barring new' failed (.poll 0) (.inl rfl) [] scan
  rwa [scans_opening] at told

end DataModel.Watching
