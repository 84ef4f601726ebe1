import DataModel.Proofs.Watch.Debouncing
import DataModel.Proofs.Watch.Scanning
import DataModel.Watch.Session

/-!
Schedules: whatever can happen in a session, in any order. A tick is a schedule too, of the turns
of the loops; each turn lets time pass and polls.
-/
namespace DataModel

/-- What can happen in a session. -/
inductive Act where
  | edit (e : FileTree.Edit)
  | add (w : FileWatcher)
  | start (n : Nat)
  | stop (n : Nat)
  | advance (span : Time)
  | poll (n : Nat)
  /-- A poll of a loop, which logs its failure. -/
  | turn (n : Nat)

/-- A poll of that watcher, by its loop or not. -/
def Act.Polls (a : Act) (n : Nat) : Prop := a = .poll n ∨ a = .turn n

namespace Session
variable {σ ε : Type} {l : Listener σ ε} {s : Session σ ε} {a : Act} {n : Nat} {p : Path}
  {w : FileWatcher} {c : WaitingCall (Nat × Path) Unit}

section Acting

def failedScan (l : Listener σ ε) (w : FileWatcher) : ε :=
  l.log ⟨.error, watchLogger, s!"Failed to scan {w.root.toString}"⟩

/-- Whatever fails leaves the session as it is, but for the log of a loop. -/
def act (l : Listener σ ε) (s : Session σ ε) : Act → Session σ ε
  | .edit e =>
    match s.edit e with
    | .ok s => s
    | .error _ => s
  | .add w => (s.addWatcher w).1
  | .start n =>
    match s.startWatcher n with
    | .ok s => s
    | .error _ => s
  | .stop n => s.stopWatcher l n
  | .advance span => s.advance l span
  | .poll n =>
    match s.poll n with
    | .ok (_, s) => s
    | .error _ => s
  | .turn n =>
    match s.poll n with
    | .ok (_, s) => s
    | .error _ => s.emit (s.watchers[n]?.map (failedScan l)).toList

/-- A session after a schedule. -/
def run (l : Listener σ ε) (s : Session σ ε) (acts : List Act) : Session σ ε := acts.foldl (act l) s

theorem run_append (acts later : List Act) : s.run l (acts ++ later) = (s.run l acts).run l later :=
  List.foldl_append

theorem run_cons (acts : List Act) : s.run l (a :: acts) = (s.act l a).run l acts := rfl

theorem run_snoc (acts : List Act) : s.run l (acts ++ [a]) = (s.run l acts).act l a := by
  rw [run_append]
  rfl

end Acting

section Advancing

/-- What the passing of time leaves of the waiting calls, and the calls that it makes. -/
def passing (s : Session σ ε) (span : Time) :
    List (WaitingCall (Nat × Path) Unit) × Debouncer (Nat × Path) Unit :=
  s.calls.takeAll (s.calls.now.after span).seconds s.calls.waiting.length

/-- The calls that are made when time passes. -/
def made (s : Session σ ε) (span : Time) : List (WaitingCall (Nat × Path) Unit) :=
  (s.passing span).1

/-- The listener hears of the path of a call, at the time of the call. -/
def hear (l : Listener σ ε) (t : FileTree) (c : WaitingCall (Nat × Path) Unit)
    (heard : σ × List ε) : σ × List ε :=
  ((l.changed t c.due c.key.2 heard.1).1, heard.2 ++ (l.changed t c.due c.key.2 heard.1).2)

/-- When time passes, the listener hears of the calls that are made, and of nothing else. -/
theorem advance_eq (l : Listener σ ε) (s : Session σ ε) (span : Time) :
    s.advance l span =
      let heard := (s.made span).foldl (fun heard c => hear l s.tree c heard) (s.listener, s.events)
      { s with
        calls := { (s.passing span).2 with now := s.calls.now.after span }
        listener := heard.1
        events := heard.2 } := by
  rw [advance, Debouncer.advance]
  dsimp only
  rw [Debouncer.callDue_eq (f := fun c now heard =>
    ((l.changed s.tree now c.key.2 heard.1).1,
      heard.2 ++ (l.changed s.tree now c.key.2 heard.1).2)) fun _ _ _ => rfl]
  rfl

end Advancing

section Polling

/-- A watcher and what its scan finds, if the scan does not fail. -/
def scanned? (s : Session σ ε) (n : Nat) : Option (FileWatcher × List (Path × Stamp)) :=
  match s.watchers[n]? with
  | none => none
  | some w =>
    match FileWatcher.scan s.tree w.root with
    | .error _ => none
    | .ok found => some (w, found)

/-- The waiting calls after some paths were pushed for a watcher. -/
def pushAll (d : Debouncer (Nat × Path) Unit) (delay : Time) (n : Nat) (paths : List Path) :
    Debouncer (Nat × Path) Unit :=
  paths.foldl (fun d p => d.push delay (n, p) ()) d

/-- A session after a watcher has found something. -/
def after (s : Session σ ε) (n : Nat) (w : FileWatcher) (found : List (Path × Stamp)) :
    Session σ ε :=
  { s with
    watchers := s.watchers.set n { w with seen := found }
    calls := pushAll s.calls w.delay n (FileWatcher.differences w.seen found) }

theorem scanned?_eq_some {found : List (Path × Stamp)} : s.scanned? n = some (w, found) ↔
    s.watchers[n]? = some w ∧ FileWatcher.scan s.tree w.root = .ok found := by
  unfold scanned?
  cases s.watchers[n]? with
  | none => simp
  | some w' =>
      dsimp only
      constructor
      · intro same
        cases scan : FileWatcher.scan s.tree w'.root with
        | error f =>
            rw [scan] at same
            cases same
        | ok found' =>
            rw [scan] at same
            cases same
            exact ⟨rfl, scan⟩
      · rintro ⟨same, scan⟩
        cases same
        rw [scan]

theorem poll_eq (s : Session σ ε) (n : Nat) : s.poll n =
    match s.watchers[n]? with
    | none => .ok ([], s)
    | some w =>
      match FileWatcher.scan s.tree w.root with
      | .error f => .error f
      | .ok found => .ok (FileWatcher.differences w.seen found, s.after n w found) := by
  rw [Session.poll]
  cases s.watchers[n]? with
  | none => rfl
  | some w =>
      dsimp only
      rw [FileWatcher.poll_eq]
      cases FileWatcher.scan s.tree w.root with
      | error f => rfl
      | ok found => rfl

/-- A poll pushes the differences to the last scan and remembers the new one; one that fails does
neither. -/
theorem act_poll (polls : a.Polls n) :
    (s.scanned? n = none ∧ (s.act l a).watchers = s.watchers ∧ (s.act l a).calls = s.calls) ∨
    ∃ w found, s.scanned? n = some (w, found) ∧ s.act l a = s.after n w found := by
  unfold scanned?
  rcases polls with rfl | rfl
  · rw [act, poll_eq]
    cases s.watchers[n]? with
    | none => exact .inl ⟨rfl, rfl, rfl⟩
    | some w =>
        dsimp only
        cases FileWatcher.scan s.tree w.root with
        | error f => exact .inl ⟨rfl, rfl, rfl⟩
        | ok found => exact .inr ⟨w, found, rfl, rfl⟩
  · rw [act, poll_eq]
    cases s.watchers[n]? with
    | none => exact .inl ⟨rfl, rfl, rfl⟩
    | some w =>
        dsimp only
        cases FileWatcher.scan s.tree w.root with
        | error f => exact .inl ⟨rfl, rfl, rfl⟩
        | ok found => exact .inr ⟨w, found, rfl, rfl⟩

theorem act_of_scanned {found : List (Path × Stamp)} (polls : a.Polls n)
    (scan : s.scanned? n = some (w, found)) : s.act l a = s.after n w found := by
  rcases act_poll (l := l) (s := s) polls with ⟨failed, -, -⟩ | ⟨w', found', scan', same⟩
  · rw [scan] at failed
    cases failed
  · rw [scan] at scan'
    cases scan'
    exact same

end Polling

section Ticking

/-- A turn of a loop lets time pass and polls, unless the watcher is stopped. -/
def turnActs (s : Session σ ε) (n : Nat) : List Act :=
  match s.watchers[n]? with
  | none => []
  | some w => if w.stopped then [] else [.advance w.interval, .turn n]

def tickActs (s : Session σ ε) (polls : Nat) : List Act :=
  s.loops.flatMap fun n => (List.replicate polls (s.turnActs n)).flatten

theorem advance_watchers (span : Time) : (s.advance l span).watchers = s.watchers := by
  rw [advance_eq]

theorem turn_eq (l : Listener σ ε) (s : Session σ ε) (n : Nat) :
    s.turn l n = s.run l (s.turnActs n) := by
  rw [turn, turnActs]
  cases known : s.watchers[n]? with
  | none => rfl
  | some w =>
      dsimp only
      cases w.stopped with
      | true => rfl
      | false =>
          rw [if_neg Bool.false_ne_true, if_neg Bool.false_ne_true, run_cons, run_cons, act, act,
            advance_watchers, known]
          rfl

theorem turnActs_cases (s : Session σ ε) (n : Nat) :
    s.turnActs n = [] ∨ ∃ span, s.turnActs n = [.advance span, .turn n] := by
  rw [turnActs]
  cases s.watchers[n]? with
  | none => exact .inl rfl
  | some w =>
      dsimp only
      cases w.stopped with
      | true => exact .inl rfl
      | false => exact .inr ⟨w.interval, rfl⟩

/-- A poll changes only what its watcher has seen. -/
theorem act_turnActs (m : Nat) : (s.act l (.turn n)).turnActs m = s.turnActs m := by
  rcases act_poll (l := l) (s := s) (a := .turn n) (.inr rfl) with
    ⟨-, same, -⟩ | ⟨w, found, scanned, same⟩
  · rw [turnActs, turnActs, same]
  · have known := (scanned?_eq_some.mp scanned).1
    rw [same, turnActs, turnActs, after, List.getElem?_set]
    by_cases here : n = m
    · subst here
      rw [if_pos rfl, if_pos (List.getElem?_eq_some_iff.mp known).1, known]
    · rw [if_neg here]

theorem turn_turnActs (m : Nat) : (s.turn l n).turnActs m = s.turnActs m := by
  rw [turn_eq]
  rcases s.turnActs_cases n with none' | ⟨span, both⟩
  · rw [none']
    rfl
  · rw [both, run_cons, run_cons, run, List.foldl_nil, act_turnActs, act, turnActs, turnActs,
      advance_watchers]

theorem turns_eq (l : Listener σ ε) (s : Session σ ε) (n polls : Nat) :
    (List.range polls).foldl (fun s _ => s.turn l n) s =
        s.run l (List.replicate polls (s.turnActs n)).flatten ∧
      ∀ m, ((List.range polls).foldl (fun s _ => s.turn l n) s).turnActs m = s.turnActs m := by
  induction polls with
  | zero => exact ⟨rfl, fun _ => rfl⟩
  | succ polls ih =>
      obtain ⟨same, acts⟩ := ih
      rw [List.range_succ, List.foldl_append, List.foldl_cons, List.foldl_nil]
      refine ⟨?_, fun m => ?_⟩
      · rw [turn_eq, acts, same, List.replicate_succ', List.flatten_append, run_append,
          List.flatten_singleton]
      · rw [turn_turnActs, acts]

/-- A tick is a schedule of turns. -/
theorem tick_eq (l : Listener σ ε) (s : Session σ ε) (polls : Nat) :
    s.tick l polls = s.run l (s.tickActs polls) := by
  rw [tick, tickActs]
  generalize s.loops = loops
  induction loops generalizing s with
  | nil => rfl
  | cons n rest ih =>
      obtain ⟨same, acts⟩ := turns_eq l s n polls
      rw [List.foldl_cons, ih, List.flatMap_cons, run_append, same]
      rw [same] at acts
      simp only [acts]

end Ticking

section Watching

/-- Acts that are not about a watcher leave it as it is. -/
theorem act_watcher (known : s.watchers[n]? = some w) (aside : ¬ a.Polls n) (start : a ≠ .start n)
    (stop : a ≠ .stop n) : (s.act l a).watchers[n]? = some w := by
  cases a with
  | edit e =>
      rw [act, edit]
      cases s.tree.edit e with
      | error f => exact known
      | ok t => exact known
  | add w' =>
      have bound := (List.getElem?_eq_some_iff.mp known).1
      rw [act, addWatcher, List.getElem?_append_left bound]
      exact known
  | start m =>
      have other : m ≠ n := fun same => start (same ▸ rfl)
      rw [act, startWatcher]
      cases s.watchers[m]? with
      | none => exact known
      | some w' =>
          dsimp only
          cases w'.start s.tree with
          | error f => exact known
          | ok w'' => exact (List.getElem?_set_ne other).trans known
  | stop m =>
      have other : m ≠ n := fun same => stop (same ▸ rfl)
      have kept : (s.watchers.modify m fun w => { w with stopped := true })[n]? = some w := by
        rw [List.getElem?_modify, known]
        exact congrArg some (if_neg other)
      rw [act, stopWatcher]
      split
      · exact kept
      · exact kept
  | advance span => rw [act, advance_watchers, known]
  | poll m =>
      have other : m ≠ n := fun same => aside (same ▸ .inl rfl)
      rcases act_poll (l := l) (s := s) (a := .poll m) (.inl rfl) with
        ⟨-, same, -⟩ | ⟨w', found, -, same⟩
      · rw [same, known]
      · rw [same]
        exact (List.getElem?_set_ne other).trans known
  | turn m =>
      have other : m ≠ n := fun same => aside (same ▸ .inr rfl)
      rcases act_poll (l := l) (s := s) (a := .turn m) (.inr rfl) with
        ⟨-, same, -⟩ | ⟨w', found, -, same⟩
      · rw [same, known]
      · rw [same]
        exact (List.getElem?_set_ne other).trans known

end Watching

section Listening

theorem startWatcher_listener {s' : Session σ ε} (started : s.startWatcher n = .ok s') :
    s'.listener = s.listener := by
  rw [startWatcher] at started
  cases known : s.watchers[n]? with
  | none =>
      rw [known] at started
      cases started
      rfl
  | some w =>
      rw [known] at started
      dsimp only at started
      cases found : w.start s.tree with
      | error f =>
          rw [found] at started
          cases started
      | ok w' =>
          rw [found] at started
          cases started
          rfl

/-- Only the passing of time reaches the listener. -/
theorem act_listener (advance : ∀ span, a ≠ .advance span) :
    (s.act l a).listener = s.listener := by
  cases a with
  | edit e =>
      rw [act, edit]
      cases s.tree.edit e with
      | error f => rfl
      | ok t => rfl
  | add w => rfl
  | start m =>
      rw [act]
      cases started : s.startWatcher m with
      | error f => rfl
      | ok s' => exact startWatcher_listener started
  | stop m =>
      rw [act, stopWatcher]
      split
      · rfl
      · rfl
  | advance span => exact absurd rfl (advance span)
  | poll m =>
      rw [act, poll_eq]
      cases s.watchers[m]? with
      | none => rfl
      | some w =>
          dsimp only
          cases FileWatcher.scan s.tree w.root with
          | error f => rfl
          | ok found => rfl
  | turn m =>
      rw [act, poll_eq]
      cases s.watchers[m]? with
      | none => rfl
      | some w =>
          dsimp only
          cases FileWatcher.scan s.tree w.root with
          | error f => rfl
          | ok found => rfl

/-- What nothing that a listener hears can change about it, no act changes. -/
theorem act_keeps {P : σ → Prop} (keeps : ∀ t now path x, P x → P (l.changed t now path x).1)
    (holds : P s.listener) (a : Act) : P (s.act l a).listener := by
  by_cases advance : ∃ span, a = .advance span
  · obtain ⟨span, rfl⟩ := advance
    rw [act, advance_eq]
    generalize s.made span = calls
    generalize s.events = events
    generalize s.listener = x at holds ⊢
    induction calls generalizing x events with
    | nil => exact holds
    | cons c rest ih => exact ih _ _ (keeps s.tree c.due c.key.2 x holds)
  · rw [act_listener (not_exists.mp advance)]
    exact holds

end Listening

end Session
end DataModel
