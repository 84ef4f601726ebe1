import DataModel.Proofs.FileTree.Clearing
import DataModel.Proofs.Store.Attempts
import DataModel.Proofs.Watch.Schedule

/-!
Delivery of changes. A change that a poll sees is pushed, and only a later change of the path takes
its call over; so it is made once the delay is over, and every call that is made comes from a poll
that saw the path change, since the call of that path before.
-/
namespace DataModel.Session
variable {σ ε : Type} {l : Listener σ ε} {s : Session σ ε} {a : Act} {n : Nat} {p : Path}
  {w : FileWatcher} {c : WaitingCall (Nat × Path) Unit}

section Pushing
variable {d : Debouncer (Nat × Path) Unit} {delay : Time} {paths : List Path}

theorem pushAll_now : (pushAll d delay n paths).now = d.now := by
  induction paths generalizing d with
  | nil => rfl
  | cons q rest ih => exact ih

theorem pushAll_orderly (h : d.Orderly) : (pushAll d delay n paths).Orderly := by
  induction paths generalizing d with
  | nil => exact h
  | cons q rest ih => exact ih (h.push delay (n, q) ())

/-- What waits after a push was waiting before, or is pushed for a path. -/
theorem mem_of_pushAll (h : c ∈ (pushAll d delay n paths).waiting) :
    c ∈ d.waiting ∨ ∃ q ∈ paths, c.key = (n, q) ∧ c.due = d.now.after delay := by
  induction paths generalizing d with
  | nil => exact .inl h
  | cons q rest ih =>
      rcases ih h with before | ⟨q', inside, here, due⟩
      · rcases Debouncer.mem_push.mp before with ⟨kept, -⟩ | rfl
        · exact .inl kept
        · exact .inr ⟨q, List.mem_cons_self, rfl, rfl⟩
      · exact .inr ⟨q', List.mem_cons_of_mem _ inside, here, due⟩

theorem mem_pushAll_kept (waits : c ∈ d.waiting) (other : ∀ q ∈ paths, c.key ≠ (n, q)) :
    c ∈ (pushAll d delay n paths).waiting := by
  induction paths generalizing d with
  | nil => exact waits
  | cons q rest ih =>
      refine ih (Debouncer.mem_push.mpr (.inl ⟨waits, other q List.mem_cons_self⟩)) fun q' inside =>
        other q' (List.mem_cons_of_mem _ inside)

/-- Each path that is pushed waits from now on. -/
theorem exists_mem_pushAll (pushed : p ∈ paths) :
    ∃ c ∈ (pushAll d delay n paths).waiting, c.key = (n, p) ∧ c.due = d.now.after delay := by
  induction paths generalizing d with
  | nil => cases pushed
  | cons q rest ih =>
      by_cases again : p ∈ rest
      · exact ih again
      · obtain rfl := (List.mem_cons.mp pushed).resolve_right again
        refine ⟨⟨(n, p), (), d.now.after delay, d.pushes⟩, ?_, rfl, rfl⟩
        refine mem_pushAll_kept (d := d.push delay (n, p) ()) (Debouncer.mem_push.mpr (.inr rfl))
          fun q inside same => ?_
        cases same
        exact again inside

end Pushing

section Clock

/-- A session whose waiting calls come from different pushes. -/
def Orderly (s : Session σ ε) : Prop := s.calls.Orderly

theorem new_orderly (tree : FileTree) (listener : σ) :
    (Session.new tree listener : Session σ ε).Orderly := Debouncer.Orderly.start

theorem passing_spec (orderly : s.Orderly) (span : Time) :
    (s.made span).Perm
      (s.calls.waiting.filter (·.due.seconds ≤ (s.calls.now.after span).seconds)) ∧
    (s.passing span).2.waiting =
      s.calls.waiting.filter ((s.calls.now.after span).seconds < ·.due.seconds) ∧
    (s.passing span).2.pushes = s.calls.pushes :=
  Debouncer.takeAll_spec orderly (Nat.le_refl _)

/-- Just the calls that are due are made when time passes. -/
theorem mem_made (orderly : s.Orderly) {span : Time} : c ∈ s.made span ↔
    c ∈ s.calls.waiting ∧ c.due.seconds ≤ (s.calls.now.after span).seconds := by
  rw [(passing_spec orderly span).1.mem_iff, List.mem_filter, decide_eq_true_eq]

theorem mem_advance (orderly : s.Orderly) {span : Time} : c ∈ (s.advance l span).calls.waiting ↔
    c ∈ s.calls.waiting ∧ c ∉ s.made span := by
  rw [advance_eq, mem_made orderly, (passing_spec orderly span).2.1, List.mem_filter,
    decide_eq_true_eq]
  refine and_congr_right fun waits => ?_
  rw [not_and, not_le]
  exact ⟨fun later _ => later, fun later => later waits⟩

theorem advance_now (span : Time) : (s.advance l span).calls.now = s.calls.now.after span := by
  rw [advance_eq]

theorem advance_orderly (orderly : s.Orderly) (span : Time) : (s.advance l span).Orderly := by
  obtain ⟨-, left, pushes⟩ := passing_spec orderly span
  rw [Orderly, advance_eq]
  exact orderly.of_sublist (left ▸ List.filter_sublist) pushes

end Clock

section Acting

/-- A poll would find that a path looks different from before. -/
def SeesChange (s : Session σ ε) (n : Nat) (p : Path) : Prop :=
  ∃ w found, s.watchers[n]? = some w ∧ FileWatcher.scan s.tree w.root = .ok found ∧
    w.seen.lookup p ≠ found.lookup p

/-- What an act does to the waiting calls. -/
inductive Effect (l : Listener σ ε) (s : Session σ ε) : Act → Session σ ε → Prop
  | none {a : Act} {s' : Session σ ε} (calls : s'.calls = s.calls)
    (advance : ∀ span, a ≠ .advance span) : Effect l s a s'
  | scanned {a : Act} {n : Nat} {w : FileWatcher} {found : List (Path × Stamp)} (polls : a.Polls n)
    (scan : s.scanned? n = some (w, found)) : Effect l s a (s.after n w found)
  | stopped (n : Nat) : Effect l s (.stop n) (s.stopWatcher l n)
  | passed (span : Time) : Effect l s (.advance span) (s.advance l span)

theorem effect_of_polls (polls : a.Polls n) : Effect l s a (s.act l a) := by
  rcases act_poll (l := l) (s := s) polls with ⟨-, -, calls⟩ | ⟨w, found, scan, same⟩
  · refine .none calls ?_
    rcases polls with rfl | rfl
    · exact nofun
    · exact nofun
  · rw [same]
    exact .scanned polls scan

theorem act_effect (l : Listener σ ε) (s : Session σ ε) (a : Act) :
    Effect l s a (s.act l a) := by
  cases a with
  | edit e =>
      refine .none ?_ (by rintro _ ⟨⟩)
      rw [act, edit]
      cases s.tree.edit e with
      | error f => rfl
      | ok t => rfl
  | add w => exact .none rfl (by rintro _ ⟨⟩)
  | start m =>
      refine .none ?_ (by rintro _ ⟨⟩)
      rw [act, startWatcher]
      cases s.watchers[m]? with
      | none => rfl
      | some w =>
          dsimp only
          cases w.start s.tree with
          | error f => rfl
          | ok w' => rfl
  | stop m => exact .stopped m
  | advance span => exact .passed span
  | poll m => exact effect_of_polls (.inl rfl)
  | turn m => exact effect_of_polls (.inr rfl)

theorem stopWatcher_calls (n : Nat) :
    (s.stopWatcher l n).calls = s.calls.cancel (·.1 == n) := by
  rw [stopWatcher]
  split
  · rfl
  · rfl

theorem act_orderly (orderly : s.Orderly) (a : Act) : (s.act l a).Orderly := by
  have effect := act_effect l s a
  generalize s.act l a = s' at effect ⊢
  cases effect with
  | none calls _ =>
      rw [Orderly, calls]
      exact orderly
  | scanned polls scan => exact pushAll_orderly orderly
  | stopped n =>
      rw [Orderly, stopWatcher_calls]
      exact orderly.cancel _
  | passed span => exact advance_orderly orderly span

theorem run_orderly (orderly : s.Orderly) (acts : List Act) : (s.run l acts).Orderly := by
  induction acts generalizing s with
  | nil => exact orderly
  | cons a rest ih => exact ih (act_orderly orderly a)

/-- Time only passes by the acts that let it pass. -/
theorem act_now (advance : ∀ span, a ≠ .advance span) : (s.act l a).calls.now = s.calls.now := by
  have effect := act_effect l s a
  generalize s.act l a = s' at effect ⊢
  cases effect with
  | none calls _ => rw [calls]
  | scanned polls scan => exact pushAll_now
  | stopped n =>
      rw [stopWatcher_calls]
      rfl
  | passed span => exact absurd rfl (advance span)

theorem now_le_act (forward : ∀ span, a = .advance span → 0 ≤ span.seconds) :
    s.calls.now.seconds ≤ (s.act l a).calls.now.seconds := by
  by_cases advance : ∃ span, a = .advance span
  · obtain ⟨span, rfl⟩ := advance
    rw [act, advance_now]
    exact le_add_of_nonneg_right (forward span rfl)
  · rw [act_now (not_exists.mp advance)]

theorem seesChange_iff {found : List (Path × Stamp)} (scan : s.scanned? n = some (w, found)) :
    p ∈ FileWatcher.differences w.seen found ↔ s.SeesChange n p := by
  obtain ⟨known, ok⟩ := scanned?_eq_some.mp scan
  rw [FileWatcher.mem_differences (FileWatcher.scan_oneEach ok)]
  constructor
  · exact fun differ => ⟨w, found, known, ok, differ⟩
  · rintro ⟨w', found', known', ok', differ⟩
    rw [known] at known'
    cases known'
    rw [ok] at ok'
    cases ok'
    exact differ

/-- A call that waits was waiting before, and was not made, or a poll sees its path change. -/
theorem waiting_of_act (orderly : s.Orderly) (waits : c ∈ (s.act l a).calls.waiting) :
    (c ∈ s.calls.waiting ∧ ∀ span, a = .advance span → c ∉ s.made span) ∨
    (a.Polls c.key.1 ∧ s.SeesChange c.key.1 c.key.2 ∧
      ∃ w, s.watchers[c.key.1]? = some w ∧ c.due = s.calls.now.after w.delay) := by
  have effect := act_effect l s a
  generalize s.act l a = s' at effect waits
  cases effect with
  | none calls advance =>
      rw [calls] at waits
      exact .inl ⟨waits, fun span same => absurd same (advance span)⟩
  | @scanned _ n w found polls scan =>
      rcases mem_of_pushAll waits with before | ⟨q, inside, key, due⟩
      · refine .inl ⟨before, fun span same => ?_⟩
        subst same
        rcases polls with same | same
        · cases same
        · cases same
      · rw [key]
        exact .inr ⟨polls, (seesChange_iff scan).mp inside, w, (scanned?_eq_some.mp scan).1, due⟩
  | stopped n =>
      rw [stopWatcher_calls] at waits
      exact .inl ⟨(List.mem_filter.mp waits).1, nofun⟩
  | passed span =>
      obtain ⟨before, free⟩ := (mem_advance orderly).mp waits
      refine .inl ⟨before, fun span' same => ?_⟩
      cases same
      exact free

/-- A call goes on waiting if it is not made, its watcher is not stopped, and no poll sees its path
change. -/
theorem waiting_act (orderly : s.Orderly) (waits : c ∈ s.calls.waiting) (stop : a ≠ .stop c.key.1)
    (unchanged : a.Polls c.key.1 → ¬ s.SeesChange c.key.1 c.key.2)
    (free : ∀ span, a = .advance span → c ∉ s.made span) :
    c ∈ (s.act l a).calls.waiting := by
  have effect := act_effect l s a
  generalize s.act l a = s' at effect ⊢
  cases effect with
  | none calls _ => rwa [calls]
  | @scanned _ n w found polls scan =>
      refine mem_pushAll_kept waits fun q inside key => ?_
      rw [key] at unchanged
      exact unchanged polls ((seesChange_iff scan).mp inside)
  | stopped n =>
      rw [stopWatcher_calls]
      refine List.mem_filter.mpr ⟨waits, ?_⟩
      have other : c.key.1 ≠ n := fun same => stop (same ▸ rfl)
      simpa using other
  | passed span => exact (mem_advance orderly).mpr ⟨waits, free span rfl⟩

/-- A change that a poll sees waits from then on. -/
theorem exists_waiting_act (polls : a.Polls n) (sees : s.SeesChange n p)
    (known : s.watchers[n]? = some w) : ∃ c ∈ (s.act l a).calls.waiting,
      c.key = (n, p) ∧ c.due = s.calls.now.after w.delay := by
  obtain ⟨w', found, known', ok, differ⟩ := sees
  rw [known] at known'
  cases known'
  have scan : s.scanned? n = some (w, found) := scanned?_eq_some.mpr ⟨known, ok⟩
  have sees : s.SeesChange n p := ⟨w, found, known, ok, differ⟩
  rw [act_of_scanned polls scan]
  exact exists_mem_pushAll ((seesChange_iff scan).mpr sees)

end Acting

section Telling

/-- While the acts take place, the listener hears of the path from the watcher. -/
def Told (l : Listener σ ε) (s : Session σ ε) (acts : List Act) (n : Nat) (p : Path) : Prop :=
  ∃ before span after, acts = before ++ .advance span :: after ∧
    ∃ c ∈ (s.run l before).made span, c.key = (n, p)

namespace Told
variable {acts : List Act}

theorem here {span : Time} {rest : List Act} (made : c ∈ s.made span) (key : c.key = (n, p)) :
    Told l s (.advance span :: rest) n p :=
  ⟨[], span, rest, rfl, c, made, key⟩

theorem cons (h : Told l (s.act l a) acts n p) : Told l s (a :: acts) n p := by
  obtain ⟨before, span, after, rfl, told⟩ := h
  exact ⟨a :: before, span, after, rfl, told⟩

theorem append_right (h : Told l s acts n p) (later : List Act) : Told l s (acts ++ later) n p := by
  obtain ⟨before, span, after, rfl, told⟩ := h
  exact ⟨before, span, after ++ later, by simp, told⟩

theorem append_left {earlier : List Act} (h : Told l (s.run l earlier) acts n p) :
    Told l s (earlier ++ acts) n p := by
  obtain ⟨before, span, after, rfl, told⟩ := h
  exact ⟨earlier ++ before, span, after, by simp, by rwa [run_append]⟩

/-- Of a schedule and one more act, the path is told by the schedule or by the act. -/
theorem snoc_cases (h : Told l s (acts ++ [a]) n p) : Told l s acts n p ∨
    ∃ span, a = .advance span ∧ ∃ c ∈ (s.run l acts).made span, c.key = (n, p) := by
  obtain ⟨before, span, after, whole, told⟩ := h
  rcases List.eq_nil_or_concat' after with rfl | ⟨after, last, rfl⟩
  · obtain ⟨rfl, same⟩ := List.append_inj' whole rfl
    exact .inr ⟨span, List.singleton_inj.mp same, told⟩
  · have whole' : acts ++ [a] = (before ++ .advance span :: after) ++ [last] := by
      rw [whole, List.append_assoc]
      rfl
    obtain ⟨rfl, -⟩ := List.append_inj' whole' rfl
    exact .inl ⟨before, span, after, rfl, told⟩

end Told

end Telling

section Delivering
variable {x : Option Stamp} {acts : List Act}

/-- Whenever a directory is scanned during the acts, the path looks the same. -/
def Alike (l : Listener σ ε) (s : Session σ ε) (acts : List Act) (root p : Path)
    (x : Option Stamp) : Prop :=
  ∀ before after, acts = before ++ after →
    ∀ found, FileWatcher.scan (s.run l before).tree root = .ok found → found.lookup p = x

theorem Alike.head {root : Path} (h : Alike l s acts root p x) {found : List (Path × Stamp)}
    (ok : FileWatcher.scan s.tree root = .ok found) : found.lookup p = x :=
  h [] acts rfl found ok

theorem Alike.tail {root : Path} (h : Alike l s (a :: acts) root p x) :
    Alike l (s.act l a) acts root p x :=
  fun before after whole => h (a :: before) after (by rw [whole]; rfl)

/-- A watcher with its settings, whatever it has seen. -/
def Keeps (s : Session σ ε) (n : Nat) (w : FileWatcher) (p : Path) (x : Option Stamp) : Prop :=
  ∃ seen, s.watchers[n]? = some { w with seen } ∧ seen.lookup p = x

/-- The path was scanned since it changed, and a call for it waits. -/
structure Awaits (s : Session σ ε) (n : Nat) (w : FileWatcher) (p : Path) (x : Option Stamp)
    (c : WaitingCall (Nat × Path) Unit) : Prop where
  keeps : s.Keeps n w p x
  waits : c ∈ s.calls.waiting
  key : c.key = (n, p)

/-- A poll after which the path still looks as it was recorded, or another act, keeps what is
recorded of it. -/
theorem Keeps.act (h : s.Keeps n w p x) (start : a ≠ .start n) (stop : a ≠ .stop n)
    (alike : ∀ found, FileWatcher.scan s.tree w.root = .ok found → found.lookup p = x) :
    (s.act l a).Keeps n w p x := by
  obtain ⟨seen, known, same⟩ := h
  by_cases polls : a.Polls n
  · rcases act_poll (l := l) (s := s) polls with ⟨-, watchers, -⟩ | ⟨w', found, scan, after⟩
    · exact ⟨seen, by rw [watchers, known], same⟩
    · obtain ⟨known', ok⟩ := scanned?_eq_some.mp scan
      rw [known] at known'
      cases known'
      have bound := (List.getElem?_eq_some_iff.mp known).1
      refine ⟨found, ?_, alike found ok⟩
      rw [after]
      exact List.getElem?_set_self bound
  · exact ⟨seen, act_watcher known polls start stop, same⟩

theorem Awaits.act (h : s.Awaits n w p x c) (orderly : s.Orderly) (start : a ≠ .start n)
    (stop : a ≠ .stop n)
    (alike : ∀ found, FileWatcher.scan s.tree w.root = .ok found → found.lookup p = x) :
    (∃ span, a = .advance span ∧ c ∈ s.made span) ∨ (s.act l a).Awaits n w p x c := by
  by_cases made : ∃ span, a = .advance span ∧ c ∈ s.made span
  · exact .inl made
  · refine .inr ⟨h.keeps.act start stop alike, ?_, h.key⟩
    refine waiting_act orderly h.waits (by rwa [h.key]) ?_ fun span same inside =>
      made ⟨span, same, inside⟩
    rw [h.key]
    rintro - ⟨w', found, known, ok, differ⟩
    obtain ⟨seen, known', same⟩ := h.keeps
    rw [known] at known'
    cases known'
    exact differ (same.trans (alike found ok).symm)

/-- A call that waits is made, or waits until the end. -/
theorem Awaits.run (h : s.Awaits n w p x c) (orderly : s.Orderly) (start : .start n ∉ acts)
    (stop : .stop n ∉ acts) (alike : Alike l s acts w.root p x) :
    Told l s acts n p ∨ (s.run l acts).Awaits n w p x c := by
  induction acts generalizing s with
  | nil => exact .inr h
  | cons a rest ih =>
      rw [List.mem_cons, not_or] at start stop
      rcases h.act (l := l) orderly (Ne.symm start.1) (Ne.symm stop.1) fun found => alike.head with
        ⟨span, rfl, made⟩ | waits
      · exact .inl (.here made h.key)
      · exact (ih waits (act_orderly orderly a) start.2 stop.2 alike.tail).imp_left .cons

/-- A poll that sees the path change makes a call wait that is due when the delay is over. -/
theorem awaits_of_poll (known : s.watchers[n]? = some w) (differ : w.seen.lookup p ≠ x)
    (polls : a.Polls n) {found : List (Path × Stamp)}
    (ok : FileWatcher.scan s.tree w.root = .ok found) (here : found.lookup p = x) :
    ∃ c, (s.act l a).Awaits n w p x c ∧ c.due = s.calls.now.after w.delay := by
  have sees : s.SeesChange n p := ⟨w, found, known, ok, here.symm ▸ differ⟩
  obtain ⟨c, waits, key, due⟩ := exists_waiting_act (l := l) polls sees known
  have scan : s.scanned? n = some (w, found) := scanned?_eq_some.mpr ⟨known, ok⟩
  refine ⟨c, ⟨⟨found, ?_, here⟩, waits, key⟩, due⟩
  rw [act_of_scanned polls scan]
  exact List.getElem?_set_self (List.getElem?_eq_some_iff.mp known).1

theorem scan_of_poll {r : List Path × Session σ ε} (known : s.watchers[n]? = some w)
    (ok : s.poll n = .ok r) : ∃ found, FileWatcher.scan s.tree w.root = .ok found := by
  rw [poll, known] at ok
  obtain ⟨polled, ok', -⟩ := ok_of_bind ok
  rw [FileWatcher.poll_eq] at ok'
  cases scan : FileWatcher.scan s.tree w.root with
  | error f =>
      rw [scan] at ok'
      cases ok'
  | ok found => exact ⟨found, rfl⟩

theorem now_le_run (forward : ∀ span, .advance span ∈ acts → 0 ≤ span.seconds) :
    s.calls.now.seconds ≤ (s.run l acts).calls.now.seconds := by
  induction acts generalizing s with
  | nil => exact le_refl _
  | cons a rest ih =>
      refine (now_le_act fun span same => forward span (same ▸ List.mem_cons_self)).trans (ih ?_)
      exact fun span inside => forward span (List.mem_cons_of_mem _ inside)

/-- Acts after the last change of a path: it looks the same whenever it is scanned. The watcher is
not stopped, nor started again, and the clock does not go back. -/
structure Quiet (l : Listener σ ε) (s : Session σ ε) (n : Nat) (w : FileWatcher) (p : Path)
    (x : Option Stamp) (acts : List Act) : Prop where
  start : .start n ∉ acts
  stop : .stop n ∉ acts
  forward : ∀ span, .advance span ∈ acts → 0 ≤ span.seconds
  alike : Alike l s acts w.root p x

namespace Quiet

theorem append {early late : List Act} (h : Quiet l s n w p x (early ++ late)) :
    Quiet l s n w p x early ∧ Quiet l (s.run l early) n w p x late := by
  obtain ⟨start, stop, forward, alike⟩ := h
  rw [List.mem_append, not_or] at start stop
  refine ⟨⟨start.1, stop.1, fun span inside => forward span (List.mem_append_left _ inside), ?_⟩,
    ⟨start.2, stop.2, fun span inside => forward span (List.mem_append_right _ inside), ?_⟩⟩
  · exact fun before after whole => alike before (after ++ late) (by rw [whole, List.append_assoc])
  · intro before after whole
    rw [← run_append]
    exact alike (early ++ before) after (by rw [whole, List.append_assoc])

theorem cons (h : Quiet l s n w p x (a :: acts)) :
    Quiet l s n w p x [a] ∧ Quiet l (s.act l a) n w p x acts := by
  have h' : Quiet l s n w p x ([a] ++ acts) := h
  exact h'.append

/-- A change is not recorded yet, or it is, and a call waits that is due when the delay is over. -/
theorem unseen (h : Quiet l s n w p x acts) (orderly : s.Orderly)
    (known : s.watchers[n]? = some w) (differ : w.seen.lookup p ≠ x) :
    Told l s acts n p ∨ (s.run l acts).watchers[n]? = some w ∨
      ∃ c, (s.run l acts).Awaits n w p x c ∧
        c.due.seconds ≤ (s.run l acts).calls.now.seconds + w.delay.seconds := by
  induction acts generalizing s with
  | nil => exact .inr (.inl known)
  | cons a rest ih =>
      obtain ⟨here, later⟩ := h.cons
      have orderly' := act_orderly (l := l) orderly a
      have start : a ≠ .start n := fun same => here.start (same ▸ List.mem_singleton_self _)
      have stop : a ≠ .stop n := fun same => here.stop (same ▸ List.mem_singleton_self _)
      by_cases polls : a.Polls n
      · rcases act_poll (l := l) (s := s) polls with ⟨-, watchers, -⟩ | ⟨w', found, scan, -⟩
        · exact (ih later orderly' (watchers ▸ known)).imp_left .cons
        · obtain ⟨known', ok⟩ := scanned?_eq_some.mp scan
          rw [known] at known'
          cases known'
          obtain ⟨c, awaits, due⟩ :=
            awaits_of_poll (l := l) known differ polls ok (here.alike.head ok)
          refine (awaits.run orderly' later.start later.stop later.alike).imp .cons fun awaits' =>
            .inr ⟨c, awaits', ?_⟩
          have passed : s.calls.now.seconds ≤ ((s.act l a).run l rest).calls.now.seconds := by
            rw [← run_cons]
            exact now_le_run h.forward
          rw [due]
          exact add_le_add_left passed _
      · exact (ih later orderly' (act_watcher known polls start stop)).imp_left .cons

/-- A change that is not recorded yet is told by the time at which, after any poll, the delay is
over. -/
theorem told {early late : List Act} (h : Quiet l s n w p x (early ++ a :: late))
    (orderly : s.Orderly) (known : s.watchers[n]? = some w) (differ : w.seen.lookup p ≠ x)
    (polls : a.Polls n) {r : List Path × Session σ ε} (ok : (s.run l early).poll n = .ok r)
    {span : Time}
    (passed : (s.run l early).calls.now.seconds + w.delay.seconds ≤
      ((s.run l (early ++ a :: late)).calls.now.after span).seconds) :
    Told l s (early ++ a :: late ++ [.advance span]) n p := by
  obtain ⟨before, there⟩ := h.append
  obtain ⟨here, later⟩ := there.cons
  have orderly' := run_orderly (l := l) orderly early
  have whole : s.run l (early ++ a :: late) = ((s.run l early).act l a).run l late := run_append _ _
  rcases before.unseen orderly known differ with told | waiting
  · rw [List.append_assoc]
    exact told.append_right _
  · have awaits : ∃ c, ((s.run l early).act l a).Awaits n w p x c ∧
        c.due.seconds ≤ (s.run l early).calls.now.seconds + w.delay.seconds := by
      rcases waiting with known' | ⟨c, awaits, due⟩
      · obtain ⟨found, ok'⟩ := scan_of_poll known' ok
        obtain ⟨c, awaits, due⟩ :=
          awaits_of_poll (l := l) known' differ polls ok' (here.alike.head ok')
        exact ⟨c, awaits, le_of_eq (congrArg Time.seconds due)⟩
      · have start : a ≠ .start n := fun same => here.start (same ▸ List.mem_singleton_self _)
        have stop : a ≠ .stop n := fun same => here.stop (same ▸ List.mem_singleton_self _)
        rcases awaits.act (l := l) orderly' start stop fun found => here.alike.head with
          ⟨span, rfl, -⟩ | awaits
        · rcases polls with same | same
          · cases same
          · cases same
        · exact ⟨c, awaits, due⟩
    obtain ⟨c, awaits, due⟩ := awaits
    have orderly'' := act_orderly (l := l) orderly' a
    rcases awaits.run orderly'' later.start later.stop later.alike with told | waits
    · refine .append_right (.append_left ?_) _
      exact told.cons
    · refine .append_left (.here ((mem_made ?_).mpr ⟨?_, due.trans passed⟩) waits.key)
      · exact run_orderly orderly _
      · rw [whole]
        exact waits.waits

end Quiet

/-- A poll saw the path of a call change, the path was not told since, and the call is due when the
delay of the watcher is over after it. -/
def Polled (l : Listener σ ε) (s : Session σ ε) (acts : List Act)
    (c : WaitingCall (Nat × Path) Unit) : Prop :=
  ∃ early poll late w, acts = early ++ poll :: late ∧ poll.Polls c.key.1 ∧
    (s.run l early).SeesChange c.key.1 c.key.2 ∧ (s.run l early).watchers[c.key.1]? = some w ∧
    c.due = (s.run l early).calls.now.after w.delay ∧
    ¬ Told l (s.run l (early ++ [poll])) late c.key.1 c.key.2

theorem polled_of_waits (tree : FileTree) (listener : σ) (acts : List Act) :
    ∀ c ∈ ((Session.new tree listener).run l acts).calls.waiting,
      Polled l (Session.new tree listener) acts c := by
  induction acts using List.reverseRecOn with
  | nil => exact fun c waits => by cases waits
  | append_singleton acts a ih =>
      intro c waits
      have orderly := run_orderly (l := l) (new_orderly tree listener) acts
      rw [run_snoc] at waits
      rcases waiting_of_act orderly waits with ⟨before, free⟩ | ⟨polls, sees, w, known, due⟩
      · obtain ⟨early, poll, late, w, rfl, polls, sees, known, due, silent⟩ := ih c before
        refine ⟨early, poll, late ++ [a], w, by simp, polls, sees, known, due, fun told => ?_⟩
        rcases told.snoc_cases with told | ⟨span, rfl, c', made, key⟩
        · exact silent told
        · -- a call of the same path is this one, which is not made
          rw [← run_append, ← List.append_cons] at made
          have same : c' = c := orderly.eq_of_key ((mem_made orderly).mp made).1 before key
          exact free span rfl (same ▸ made)
      · refine ⟨acts, a, [], w, rfl, polls, sees, known, due, ?_⟩
        rintro ⟨before, span, after, whole, -⟩
        cases before with
        | nil => cases whole
        | cons _ _ => cases whole

/-- Every change is delivered, and nothing else. A change that a watcher has not recorded, and after
which the path stays as it is, is told by the time at which the delay is over after a poll; a call
is only made if a poll saw its path change since it was told last. Calls are made as time passes,
and ticks are schedules. -/
theorem changes_delivered (l : Listener σ ε) (tree : FileTree) (listener : σ) (acts : List Act) :
    let s := (Session.new tree listener).run l acts
    (∀ n w p x early poll late r span, s.watchers[n]? = some w → w.seen.lookup p ≠ x →
      Quiet l s n w p x (early ++ poll :: late) → poll.Polls n →
      (s.run l early).poll n = .ok r →
      (s.run l early).calls.now.seconds + w.delay.seconds ≤
        ((s.run l (early ++ poll :: late)).calls.now.after span).seconds →
      Told l s (early ++ poll :: late ++ [.advance span]) n p) ∧
    (∀ span, ∀ c ∈ s.made span, Polled l (Session.new tree listener) acts c) ∧
    (∀ span, s.act l (.advance span) =
      let heard := (s.made span).foldl (fun heard c => hear l s.tree c heard) (s.listener, s.events)
      { s with
        calls := { (s.passing span).2 with now := s.calls.now.after span }
        listener := heard.1
        events := heard.2 }) ∧
    ∀ polls, s.tick l polls = s.run l (s.tickActs polls) := by
  intro s
  have orderly : s.Orderly := run_orderly (new_orderly tree listener) acts
  refine ⟨?_, ?_, advance_eq l s, tick_eq l s⟩
  · intro n w p x early poll late r span known differ quiet polls ok passed
    exact quiet.told orderly known differ polls ok passed
  · exact fun span c made => polled_of_waits tree listener acts c ((mem_made orderly).mp made).1

end Delivering
end DataModel.Session

namespace DataModel.Watching
open Relinking (path settings)
open Retrying (find_file fit_used)

/-- A disk with one file. -/
def disk : FileTree :=
  ⟨[(["m"], .directory (.changes 0)), (["m", "B.tmd"], .file [] (.time 0))], 0, 0⟩

/-- The disk when the file is deleted. -/
def cleared : FileTree := ⟨[(["m"], .directory (.changes 1))], 0, 1⟩

def watcher : FileWatcher := .new settings.modelRoot .halfSecond .halfSecond

/-- The watcher after its start. -/
def started : FileWatcher := { watcher with seen := [(path "B.tmd", .time 0)] }

/-- A listener that remembers what it hears. -/
def listener : Listener (List Path) Unit := ⟨fun _ _ p heard => (heard ++ [p], []), fun _ => ()⟩

/-- The watcher is started, and the file is deleted. -/
def deletion : List Act := [.add watcher, .start 0, .edit (.delete (path "B.tmd"))]

def deleted : Session (List Path) Unit := ⟨cleared, [started], [0], .start, [], []⟩

section Scans

theorem find_root {t : FileTree} {st : Stamp} (top : t.node? ["m"] = some (.directory st)) :
    t.find settings.modelRoot = .ok (["m"], .directory st) := by
  refine FileTree.find_iff.mpr ⟨by with_unfolding_all rfl, ?_, top⟩
  exact .enter (by decide) Relinking.short_root top (.done _ _)

theorem scan_disk : FileWatcher.scan disk settings.modelRoot = .ok [(path "B.tmd", .time 0)] := by
  have root := find_root (t := disk) rfl
  have top : disk.modelPath? settings.modelRoot ["m"] = none := by
    rw [FileTree.modelPath?_of_directory root]
    rfl
  have file : disk.modelPath? settings.modelRoot ["m", "B.tmd"] = some (path "B.tmd") := by
    rw [FileTree.modelPath?_of_directory root]
    rfl
  have files : disk.modelFiles settings.modelRoot = .ok [path "B.tmd"] := by
    rw [FileTree.modelFiles_of_directory root,
      show disk.entries = [(["m"], _), (["m", "B.tmd"], _)] from rfl]
    simp only [List.filterMap_cons, List.filterMap_nil, top, file]
    rw [List.mergeSort_of_pairwise (List.pairwise_singleton _ _)]
  have stamp : disk.stamp (path "B.tmd") = .ok (.time 0) := by
    rw [FileTree.stamp, find_file fit_used rfl rfl]
    rfl
  rw [FileWatcher.scan, files]
  simp [bind, Except.bind, stamp, List.mapM_cons, pure, Except.pure]

theorem scan_cleared : FileWatcher.scan cleared settings.modelRoot = .ok [] := by
  have root := find_root (t := cleared) rfl
  have top : cleared.modelPath? settings.modelRoot ["m"] = none := by
    rw [FileTree.modelPath?_of_directory root]
    rfl
  have files : cleared.modelFiles settings.modelRoot = .ok [] := by
    rw [FileTree.modelFiles_of_directory root, show cleared.entries = [(["m"], _)] from rfl]
    simp only [List.filterMap_cons, List.filterMap_nil, top]
    rw [List.mergeSort_of_pairwise .nil]
  rw [FileWatcher.scan, files]
  rfl

theorem edit_disk : disk.edit (.delete (path "B.tmd")) = .ok cleared := by
  have place : ({ disk with changes := 1 } : FileTree).locate false FileTree.maxLinks []
      (path "B.tmd").parts = .ok ["m", "B.tmd"] := by
    simp [FileTree.locate, path, disk, FileTree.node?, List.lookup, Relinking.short_root,
      fit_used.short]
  rw [FileTree.edit]
  simp only [FileTree.delete]
  rw [show disk.changes + 1 = 1 from rfl, place]
  rfl

end Scans

section Runs

theorem start_disk : watcher.start disk = .ok started := by
  rw [FileWatcher.start]
  simp only [watcher, FileWatcher.new, scan_disk, bind, Except.bind]
  rfl

theorem run_deletion : (Session.new disk []).run listener deletion = deleted := by
  rw [deletion, Session.run_cons, Session.run_cons, Session.run_cons, Session.act, Session.act,
    Session.act]
  simp only [Session.addWatcher, Session.new, Session.startWatcher, List.nil_append,
    List.getElem?_cons_zero, start_disk, bind, Except.bind, pure, Except.pure, Session.edit,
    edit_disk]
  rfl

theorem poll_deleted : deleted.poll 0 =
    .ok ([path "B.tmd"], deleted.after 0 started []) := by
  have sorted : FileWatcher.differences started.seen [] = [path "B.tmd"] :=
    List.mergeSort_of_pairwise (List.pairwise_singleton _ _)
  have scan : FileWatcher.scan deleted.tree started.root = .ok [] := scan_cleared
  have polled : started.poll deleted.tree =
      .ok ([path "B.tmd"], { started with seen := [] }) := by
    rw [FileWatcher.poll_eq, scan]
    dsimp only
    rw [sorted]
  rw [Session.poll, show deleted.watchers[0]? = some started from rfl]
  simp only [polled, bind, Except.bind]
  rw [Session.after, Session.pushAll, sorted]
  rfl

/-- After the deletion nothing changes any more. -/
theorem quiet_deleted :
    Session.Quiet listener deleted 0 started (path "B.tmd") none [.poll 0] := by
  refine ⟨by simp, by simp, by simp, fun before after whole found ok => ?_⟩
  have tree : (deleted.run listener before).tree = cleared := by
    cases before with
    | nil => rfl
    | cons a rest =>
        obtain ⟨rfl, none'⟩ := List.cons.inj whole
        rw [(List.append_eq_nil_iff.mp none'.symm).1, Session.run, List.foldl_cons, List.foldl_nil,
          Session.act, poll_deleted]
        rfl
  rw [tree, show started.root = settings.modelRoot from rfl, scan_cleared] at ok
  cases ok
  rfl

end Runs

/-- The deletion of a file is told when the delay is over after the poll that sees it. -/
theorem changes_delivered_deletion :
    let s := (Session.new disk []).run listener deletion
    (s.watchers[0]? = some started ∧ started.seen.lookup (path "B.tmd") ≠ none ∧
      Session.Quiet listener s 0 started (path "B.tmd") none [.poll 0] ∧
      s.poll 0 = .ok ([path "B.tmd"], s.after 0 started []) ∧
      s.calls.now.seconds + started.delay.seconds ≤
        ((s.run listener [.poll 0]).calls.now.after .halfSecond).seconds) ∧
    Session.Told listener s [.poll 0, .advance .halfSecond] 0 (path "B.tmd") := by
  intro s
  have same : s = deleted := run_deletion
  have known : s.watchers[0]? = some started := same ▸ rfl
  have differ : started.seen.lookup (path "B.tmd") ≠ none := by
    rw [started]
    simp
  have quiet : Session.Quiet listener s 0 started (path "B.tmd") none [.poll 0] :=
    same ▸ quiet_deleted
  have poll : s.poll 0 = .ok ([path "B.tmd"], s.after 0 started []) := same ▸ poll_deleted
  have now : (s.run listener [.poll 0]).calls.now = s.calls.now :=
    Session.act_now (l := listener) (a := .poll 0) nofun
  have passed : s.calls.now.seconds + started.delay.seconds ≤
      ((s.run listener [.poll 0]).calls.now.after .halfSecond).seconds := by
    rw [now]
    exact le_refl _
  refine ⟨⟨known, differ, quiet, poll, passed⟩, ?_⟩
  obtain ⟨told, -⟩ := Session.changes_delivered listener disk [] deletion
  exact told 0 started (path "B.tmd") none [] (.poll 0) [] _ .halfSecond known differ quiet (.inl rfl)
    poll passed

end DataModel.Watching
