import Mathlib.Data.Set.Card
import DataModel.Proofs.Watch.Debouncing

/-!
Which pushes are delivered. A debouncer is pushed, time passes, and everything is cancelled, in any
order; then just the pushes are delivered whose timers fire before the key is pushed again and
before a cancel. The calls are those that wait, taken from the front, so their order is the order of
the pushes.
-/
namespace DataModel.Debouncer
variable {κ α σ : Type}

/-- What can happen to a debouncer. -/
inductive Act (κ α : Type) where
  | push (key : κ) (args : α)
  | advance (span : Time)
  | cancel

section Acting
variable [BEq κ]

def act (call : WaitingCall κ α → Debouncer κ α × σ → Debouncer κ α × σ) (delay : Time)
    (s : Debouncer κ α × σ) : Act κ α → Debouncer κ α × σ
  | .push key args => (s.1.push delay key args, s.2)
  | .advance span => advance call span s.1.waiting.length s
  | .cancel => (s.1.cancel fun _ => true, s.2)

/-- What some acts make of a debouncer that has just started, and of a state that its calls see. -/
def run (call : WaitingCall κ α → Debouncer κ α × σ → Debouncer κ α × σ) (delay : Time)
    (acts : List (Act κ α)) (s : σ) : Debouncer κ α × σ := acts.foldl (act call delay) (start, s)

/-- The calls that are made, and the debouncer, if the calls do nothing. -/
def course (delay : Time) (acts : List (Act κ α)) : Debouncer κ α × List (WaitingCall κ α) :=
  run (fun c s => (s.1, s.2 ++ [c])) delay acts []

def calls (delay : Time) (acts : List (Act κ α)) : List (WaitingCall κ α) := (course delay acts).2

end Acting

section Timers

/-- The clock after some acts. -/
def clock (t : Time) (acts : List (Act κ α)) : Time :=
  acts.foldl (fun t a => match a with
    | .advance span => t.after span
    | _ => t) t

/-- How often something was pushed. -/
def pushCount (acts : List (Act κ α)) : Nat :=
  acts.countP fun a => match a with
    | .push _ _ => true
    | _ => false

/-- A push of the key or a cancel takes the waiting call of the key away. -/
def Act.Ends (key : κ) : Act κ α → Prop
  | .push other _ => other = key
  | .cancel => True
  | .advance _ => False

/-- Of the acts after a push, one lets the clock come to its due time before any of them ends it. -/
def Fires (key : κ) (due t : Time) (later : List (Act κ α)) : Prop :=
  ∃ before span after, later = before ++ .advance span :: after ∧ (∀ a ∈ before, ¬ a.Ends key) ∧
    due.seconds ≤ ((clock t before).after span).seconds

/-- A push that nothing ends and that is not delivered. -/
def Lasts (key : κ) (due t : Time) (later : List (Act κ α)) : Prop :=
  (∀ a ∈ later, ¬ a.Ends key) ∧ ¬ Fires key due t later

/-- A call is that of a push at a time, with what happens after it. -/
def IsPush (delay : Time) (acts : List (Act κ α)) (c : WaitingCall κ α) (t : Time)
    (later : List (Act κ α)) : Prop :=
  ∃ earlier, acts = earlier ++ .push c.key c.args :: later ∧ c.number = pushCount earlier ∧
    t = clock .zero earlier ∧ c.due = t.after delay

/-- The last push of a key is neither delivered nor cancelled. -/
def Waits (delay : Time) (acts : List (Act κ α)) (key : κ) : Prop :=
  ∃ c t later, IsPush delay acts c t later ∧ c.key = key ∧ Lasts key c.due t later

variable {key : κ} {due t : Time} {later : List (Act κ α)} {a : Act κ α} {delay : Time}
  {acts : List (Act κ α)} {c : WaitingCall κ α}

theorem clock_append (t : Time) (acts later : List (Act κ α)) :
    clock t (acts ++ later) = clock (clock t acts) later := List.foldl_append

theorem clock_advance (t : Time) (acts : List (Act κ α)) (span : Time) :
    clock t (acts ++ [.advance span]) = (clock t acts).after span := clock_append ..

theorem not_fires_nil : ¬ Fires key due t ([] : List (Act κ α)) := by
  rintro ⟨before, span, after, whole, -⟩
  simp at whole

theorem lasts_nil : Lasts key due t ([] : List (Act κ α)) := ⟨nofun, not_fires_nil⟩

/-- With one act more, what fired before has fired, or time has passed. -/
theorem fires_snoc : Fires key due t (later ++ [a]) ↔ Fires key due t later ∨
    ∃ span, a = .advance span ∧ (∀ b ∈ later, ¬ b.Ends key) ∧
      due.seconds ≤ ((clock t later).after span).seconds := by
  constructor
  · rintro ⟨before, span, after, whole, free, reached⟩
    rcases List.eq_nil_or_concat after with rfl | ⟨after, last, rfl⟩
    · obtain ⟨rfl, same⟩ := List.append_inj' whole rfl
      cases same
      exact .inr ⟨span, rfl, free, reached⟩
    · rw [List.concat_eq_append, ← List.cons_append, ← List.append_assoc] at whole
      obtain ⟨rfl, -⟩ := List.append_inj' whole rfl
      exact .inl ⟨before, span, after, rfl, free, reached⟩
  · rintro (⟨before, span, after, rfl, free, reached⟩ | ⟨span, rfl, free, reached⟩)
    · exact ⟨before, span, after ++ [a], by simp, free, reached⟩
    · exact ⟨later, span, [], rfl, free, reached⟩

theorem lasts_snoc : Lasts key due t (later ++ [a]) ↔ Lasts key due t later ∧ ¬ a.Ends key ∧
    ∀ span, a = .advance span → ((clock t later).after span).seconds < due.seconds := by
  rw [Lasts, Lasts, fires_snoc, List.forall_mem_append, List.forall_mem_singleton, not_or]
  constructor
  · rintro ⟨⟨free, last⟩, unfired, still⟩
    exact ⟨⟨free, unfired⟩, last, fun span here => not_le.mp fun reached =>
      still ⟨span, here, free, reached⟩⟩
  · rintro ⟨⟨free, unfired⟩, last, early⟩
    exact ⟨⟨free, last⟩, unfired, fun ⟨span, here, _, reached⟩ =>
      absurd reached (not_le.mpr (early span here))⟩

/-- The clock stands where the acts after the push have brought it. -/
theorem IsPush.clock (h : IsPush delay acts c t later) :
    Debouncer.clock t later = Debouncer.clock .zero acts := by
  obtain ⟨earlier, rfl, -, rfl, -⟩ := h
  rw [clock_append]
  rfl

/-- With one act more, the pushes are those that there were, and the last act if it is one. -/
theorem exists_push_snoc (P : Time → List (Act κ α) → Prop) :
    (∃ t later, IsPush delay (acts ++ [a]) c t later ∧ P t later) ↔
      (∃ t later, IsPush delay acts c t later ∧ P t (later ++ [a])) ∨
      a = .push c.key c.args ∧ c.number = pushCount acts ∧
        c.due = (clock .zero acts).after delay ∧ P (clock .zero acts) [] := by
  constructor
  · rintro ⟨t, later, ⟨earlier, whole, number, rfl, due⟩, holds⟩
    rcases List.eq_nil_or_concat later with rfl | ⟨later, last, rfl⟩
    · obtain ⟨rfl, same⟩ := List.append_inj' whole rfl
      cases same
      exact .inr ⟨rfl, number, due, holds⟩
    · rw [List.concat_eq_append, ← List.cons_append, ← List.append_assoc] at whole
      obtain ⟨rfl, same⟩ := List.append_inj' whole rfl
      cases same
      rw [List.concat_eq_append] at holds
      exact .inl ⟨_, later, ⟨earlier, rfl, number, rfl, due⟩, holds⟩
  · rintro (⟨t, later, ⟨earlier, rfl, number, rfl, due⟩, holds⟩ | ⟨rfl, number, due, holds⟩)
    · exact ⟨_, later ++ [a], ⟨earlier, by simp, number, rfl, due⟩, holds⟩
    · exact ⟨_, [], ⟨acts, rfl, number, rfl, due⟩, holds⟩

end Timers

section Order
variable {d : Debouncer κ α} {limit : Rat} {c : WaitingCall κ α}

/-- Of calls in the order of their due times the first one is due first. -/
theorem first?_of_sorted {rest : List (WaitingCall κ α)}
    (sorted : (c :: rest).Pairwise fun a b => a.due.seconds ≤ b.due.seconds) :
    first? (c :: rest) = some c := by
  rw [first?]
  cases found : first? rest with
  | none => rfl
  | some other =>
      have least := (List.pairwise_cons.mp sorted).1 other (first?_spec found).1
      exact if_neg (not_lt.mpr least)

theorem takeDue?_of_sorted {rest : List (WaitingCall κ α)} (waiting : d.waiting = c :: rest)
    (sorted : (c :: rest).Pairwise fun a b => a.due.seconds ≤ b.due.seconds) :
    d.takeDue? limit = if c.due.seconds ≤ limit then
      some (c, { d with now := c.due, waiting := (c :: rest).filter (·.number != c.number) })
      else none := by
  rw [takeDue?, waiting, first?_of_sorted sorted]

/-- Where the first of the calls is not due, none is. -/
theorem later_of_sorted {rest : List (WaitingCall κ α)}
    (sorted : (c :: rest).Pairwise fun a b => a.due.seconds ≤ b.due.seconds)
    (later : limit < c.due.seconds) : ∀ other ∈ c :: rest, limit < other.due.seconds :=
  List.forall_mem_cons.mpr
    ⟨later, fun other inside => later.trans_le ((List.pairwise_cons.mp sorted).1 other inside)⟩

/-- Where the waiting calls are in the order of their due times, they are made in their order. -/
theorem takeAll_of_sorted (orderly : d.Orderly)
    (sorted : d.waiting.Pairwise fun a b => a.due.seconds ≤ b.due.seconds) {fuel : Nat}
    (enough : d.waiting.length ≤ fuel) :
    (d.takeAll limit fuel).1 = d.waiting.filter (·.due.seconds ≤ limit) := by
  induction fuel generalizing d with
  | zero =>
      have none' : d.waiting = [] := List.length_eq_zero_iff.mp (Nat.le_zero.mp enough)
      rw [takeAll, none']
      rfl
  | succ fuel ih =>
      cases waiting : d.waiting with
      | nil =>
          rw [takeAll, takeDue?, waiting]
          rfl
      | cons c rest =>
          rw [waiting] at sorted enough
          rw [takeAll, takeDue?_of_sorted waiting sorted]
          by_cases due : c.due.seconds ≤ limit
          · have numbers := orderly.numbers
            rw [waiting, List.pairwise_cons] at numbers
            have left : (c :: rest).filter (·.number != c.number) = rest := by
              rw [List.filter_cons_of_neg (by simp), List.filter_eq_self]
              exact fun other inside => bne_iff_ne.mpr (numbers.1 other inside).ne'
            have kept : Orderly { d with now := c.due, waiting := rest } :=
              orderly.of_sublist (waiting ▸ List.sublist_cons_self c rest) rfl
            rw [if_pos due, left, List.filter_cons_of_pos (by simpa using due)]
            exact congrArg _ (ih kept (List.pairwise_cons.mp sorted).2
              (Nat.le_of_succ_le_succ enough))
          · rw [if_neg due]
            refine (List.filter_eq_nil_iff.mpr fun other inside => ?_).symm
            simpa using later_of_sorted sorted (not_le.mp due) other inside

/-- The calls that are due come before those that are not. -/
theorem due_append_later {cs : List (WaitingCall κ α)}
    (sorted : cs.Pairwise fun a b => a.due.seconds ≤ b.due.seconds) :
    cs.filter (·.due.seconds ≤ limit) ++ cs.filter (limit < ·.due.seconds) = cs := by
  induction cs with
  | nil => rfl
  | cons c cs ih =>
      by_cases due : c.due.seconds ≤ limit
      · rw [List.filter_cons_of_pos (by simpa using due),
          List.filter_cons_of_neg (by simpa using due), List.cons_append,
          ih (List.pairwise_cons.mp sorted).2]
      · have later := later_of_sorted sorted (not_le.mp due)
        rw [List.filter_eq_nil_iff.mpr, List.filter_eq_self.mpr, List.nil_append]
        · exact fun other inside => by simpa using later other inside
        · exact fun other inside => by simpa using later other inside

end Order

section Running
variable [BEq κ] {delay span : Time} {acts : List (Act κ α)} {key : κ} {args : α}
  {c : WaitingCall κ α}

theorem run_snoc (call : WaitingCall κ α → Debouncer κ α × σ → Debouncer κ α × σ) (delay : Time)
    (acts : List (Act κ α)) (a : Act κ α) (s : σ) :
    run call delay (acts ++ [a]) s = act call delay (run call delay acts s) a := by
  rw [run, List.foldl_append]
  rfl

theorem course_push : course delay (acts ++ [.push key args]) =
    ((course delay acts).1.push delay key args, calls delay acts) := run_snoc ..

theorem course_cancel : course delay (acts ++ [.cancel]) =
    ((course delay acts).1.cancel fun _ => true, calls delay acts) := run_snoc ..

/-- The calls that time makes, and the debouncer that it leaves. -/
theorem course_advance : course delay (acts ++ [.advance span]) =
    let d := (course delay acts).1
    let taken := d.takeAll (d.now.after span).seconds d.waiting.length
    ({ taken.2 with now := d.now.after span }, calls delay acts ++ taken.1) := by
  have record : ∀ made cs : List (WaitingCall κ α),
      cs.foldl (fun s c => s ++ [c]) made = made ++ cs := by
    intro made cs
    induction cs generalizing made with
    | nil => exact (List.append_nil made).symm
    | cons c cs ih => rw [List.foldl_cons, ih, List.append_assoc, List.singleton_append]
  refine (run_snoc ..).trans ?_
  rw [act, advance, ← course]
  dsimp only
  rw [show (course delay acts) = ((course delay acts).1, calls delay acts) from rfl,
    callDue_eq (f := fun c _ made => made ++ [c]) fun _ _ _ => rfl, record]

theorem calls_push : calls delay (acts ++ [.push key args]) = calls delay acts := by
  rw [calls, course_push]

theorem calls_cancel : calls delay (acts ++ [.cancel]) = calls delay acts := by
  rw [calls, course_cancel]

theorem calls_advance : calls delay (acts ++ [.advance span]) =
    let d := (course delay acts).1
    calls delay acts ++ (d.takeAll (d.now.after span).seconds d.waiting.length).1 :=
  congrArg Prod.snd course_advance

/-- Whatever the calls do, they are these ones, each made when it is due. -/
theorem run_calls {call : WaitingCall κ α → Debouncer κ α × σ → Debouncer κ α × σ}
    {f : WaitingCall κ α → Time → σ → σ} (keeps : ∀ c d s, call c (d, s) = (d, f c d.now s))
    (delay : Time) (acts : List (Act κ α)) (s : σ) : run call delay acts s =
      ((course delay acts).1, (calls delay acts).foldl (fun s c => f c c.due s) s) := by
  induction acts using List.reverseRecOn with
  | nil => rfl
  | append_singleton acts a ih =>
      rw [run_snoc, ih]
      cases a with
      | push key args => rw [calls_push, course_push, act]
      | cancel => rw [calls_cancel, course_cancel, act]
      | advance span =>
          rw [calls_advance, course_advance, act, advance, callDue_eq keeps, List.foldl_append]

end Running

section Invariants
variable {delay : Time} {acts : List (Act κ α)}

/-- No time passes backwards. -/
def Forward (acts : List (Act κ α)) : Prop := ∀ span, .advance span ∈ acts → 0 ≤ span.seconds

theorem Forward.before {later : List (Act κ α)} (forward : Forward (acts ++ later)) :
    Forward acts := fun span member => forward span (List.mem_append_left _ member)

/-- A call is due and pushed before another one. -/
def Precedes (c c' : WaitingCall κ α) : Prop :=
  c.due.seconds ≤ c'.due.seconds ∧ c.number < c'.number

/-- What holds of a debouncer and the calls made so far. -/
structure Faithful (delay : Time) (acts : List (Act κ α)) (d : Debouncer κ α)
    (made : List (WaitingCall κ α)) : Prop where
  orderly : d.Orderly
  now : d.now = clock .zero acts
  pushes : d.pushes = pushCount acts
  /-- The calls that wait come behind those that were made. -/
  order : (made ++ d.waiting).Pairwise Precedes
  bound : ∀ c ∈ made ++ d.waiting,
    c.due.seconds ≤ (d.now.after delay).seconds ∧ c.number < d.pushes
  waits : ∀ c, c ∈ d.waiting ↔ ∃ t later, IsPush delay acts c t later ∧ Lasts c.key c.due t later
  fires : ∀ c, c ∈ made ↔ ∃ t later, IsPush delay acts c t later ∧ Fires c.key c.due t later

namespace Faithful
variable {d : Debouncer κ α} {made : List (WaitingCall κ α)}

theorem sorted (h : Faithful delay acts d made) :
    d.waiting.Pairwise fun a b => a.due.seconds ≤ b.due.seconds :=
  (List.pairwise_append.mp h.order).2.1.imp And.left

theorem start : Faithful delay ([] : List (Act κ α)) Debouncer.start [] := by
  have none' : ∀ (c : WaitingCall κ α) (P : Time → List (Act κ α) → Prop),
      ¬ ∃ t later, IsPush delay [] c t later ∧ P t later := by
    rintro c P ⟨t, later, ⟨earlier, whole, -⟩, -⟩
    simp at whole
  exact ⟨.start, rfl, rfl, .nil, nofun, fun c => iff_of_false nofun (none' c _),
    fun c => iff_of_false nofun (none' c _)⟩

theorem push [BEq κ] [LawfulBEq κ] (h : Faithful delay acts d made) (key : κ) (args : α) :
    Faithful delay (acts ++ [.push key args]) (d.push delay key args) made where
  orderly := h.orderly.push delay key args
  now := by rw [clock_append]; exact h.now
  pushes := by
    rw [pushCount, List.countP_append, ← pushCount, ← h.pushes]
    rfl
  order := by
    have kept : (made ++ d.waiting.filter fun c => !(c.key == key)).Sublist (made ++ d.waiting) :=
      List.filter_sublist.append_left made
    rw [Debouncer.push, ← List.append_assoc]
    refine List.pairwise_append.mpr ⟨h.order.sublist kept, List.pairwise_singleton _ _, ?_⟩
    intro c inside new here
    rw [List.mem_singleton.mp here]
    exact h.bound c (kept.subset inside)
  bound := by
    intro c inside
    rcases List.mem_append.mp inside with before | waiting
    · have within := h.bound c (List.mem_append_left _ before)
      exact ⟨within.1, Nat.lt_succ_of_lt within.2⟩
    · rcases mem_push.mp waiting with ⟨old, -⟩ | rfl
      · have within := h.bound c (List.mem_append_right _ old)
        exact ⟨within.1, Nat.lt_succ_of_lt within.2⟩
      · exact ⟨le_refl _, Nat.lt_succ_self _⟩
  waits c := by
    rw [mem_push, h.waits, exists_push_snoc]
    refine or_congr ?_ ?_
    · constructor
      · rintro ⟨⟨t, later, pushed, lasts⟩, other⟩
        refine ⟨t, later, pushed, lasts_snoc.mpr ⟨lasts, fun same => other same.symm, ?_⟩⟩
        intro span here
        cases here
      · rintro ⟨t, later, pushed, lasts⟩
        obtain ⟨lasts, other, -⟩ := lasts_snoc.mp lasts
        exact ⟨⟨t, later, pushed, lasts⟩, fun same => other same.symm⟩
    · constructor
      · rintro rfl
        exact ⟨rfl, h.pushes, by rw [h.now], lasts_nil⟩
      · rintro ⟨same, number, due, -⟩
        obtain ⟨_, _, _, _⟩ := c
        cases same
        rw [h.now, h.pushes]
        exact congrArg₂ (WaitingCall.mk _ _) due number
  fires c := by
    rw [h.fires, exists_push_snoc]
    simp only [fires_snoc, not_fires_nil, reduceCtorEq, false_and, exists_false, or_false,
      and_false]

theorem cancel (h : Faithful delay acts d made) :
    Faithful delay (acts ++ [.cancel]) (d.cancel fun _ => true) made := by
  have none' : (d.cancel fun _ => true).waiting = [] := List.filter_eq_nil_iff.mpr (by simp)
  refine ⟨h.orderly.cancel _, ?_, ?_, ?_, ?_, fun c => ?_, fun c => ?_⟩
  · rw [clock_append]
    exact h.now
  · rw [pushCount, List.countP_append, ← pushCount, ← h.pushes]
    rfl
  · rw [none', List.append_nil]
    exact (List.pairwise_append.mp h.order).1
  · rw [none', List.append_nil]
    exact fun c member => h.bound c (List.mem_append_left _ member)
  · rw [none', exists_push_snoc]
    simp [lasts_snoc, Act.Ends]
  · rw [h.fires, exists_push_snoc]
    simp only [fires_snoc, reduceCtorEq, false_and, exists_false, or_false]

theorem advance (h : Faithful delay acts d made) (span : Time) (forward : 0 ≤ span.seconds) :
    Faithful delay (acts ++ [.advance span])
      { (d.takeAll (d.now.after span).seconds d.waiting.length).2 with now := d.now.after span }
      (made ++ (d.takeAll (d.now.after span).seconds d.waiting.length).1) := by
  have taken : (d.takeAll (d.now.after span).seconds d.waiting.length).1 = _ :=
    takeAll_of_sorted h.orderly h.sorted (Nat.le_refl _)
  obtain ⟨-, left, pushes⟩ :
      _ ∧ (d.takeAll (d.now.after span).seconds d.waiting.length).2.waiting = _ ∧ _ :=
    takeAll_spec h.orderly (Nat.le_refl _)
  have whole : _ ++ d.waiting.filter ((d.now.after span).seconds < ·.due.seconds) = d.waiting :=
    due_append_later h.sorted
  rw [taken]
  generalize (d.takeAll (d.now.after span).seconds d.waiting.length).2 = d' at left pushes
  have clocked : ∀ {c t later}, IsPush delay acts c t later →
      ((clock t later).after span).seconds = (d.now.after span).seconds := fun pushed => by
    rw [pushed.clock, h.now]
  refine ⟨h.orderly.of_sublist (left ▸ List.filter_sublist) pushes, ?_, ?_, ?_, ?_, fun c => ?_,
    fun c => ?_⟩
  · rw [clock_advance, h.now]
  · rw [pushCount, List.countP_append, ← pushCount, ← h.pushes]
    exact pushes
  · dsimp only
    rw [left, List.append_assoc, whole]
    exact h.order
  · dsimp only
    rw [left, List.append_assoc, whole, pushes]
    intro c member
    obtain ⟨due, number⟩ := h.bound c member
    have onward : d.now.seconds + delay.seconds ≤ d.now.seconds + span.seconds + delay.seconds := by
      linarith
    exact ⟨due.trans onward, number⟩
  · dsimp only
    rw [left, List.mem_filter, h.waits, exists_push_snoc]
    simp only [decide_eq_true_eq, reduceCtorEq, false_and, or_false]
    constructor
    · rintro ⟨⟨t, later, pushed, lasts⟩, early⟩
      refine ⟨t, later, pushed, lasts_snoc.mpr ⟨lasts, id, fun span' same => ?_⟩⟩
      cases same
      rwa [clocked pushed]
    · rintro ⟨t, later, pushed, lasts⟩
      obtain ⟨lasts, -, early⟩ := lasts_snoc.mp lasts
      exact ⟨⟨t, later, pushed, lasts⟩, clocked pushed ▸ early span rfl⟩
  · rw [List.mem_append, List.mem_filter, h.fires, h.waits, exists_push_snoc]
    simp only [decide_eq_true_eq, reduceCtorEq, false_and, or_false]
    constructor
    · rintro (⟨t, later, pushed, fired⟩ | ⟨⟨t, later, pushed, free, unfired⟩, due⟩)
      · exact ⟨t, later, pushed, fires_snoc.mpr (.inl fired)⟩
      · exact ⟨t, later, pushed, fires_snoc.mpr
          (.inr ⟨span, rfl, free, (clocked pushed).symm ▸ due⟩)⟩
    · rintro ⟨t, later, pushed, fires⟩
      by_cases fired : Fires c.key c.due t later
      · exact .inl ⟨t, later, pushed, fired⟩
      · obtain fires | ⟨span', same, free, due⟩ := fires_snoc.mp fires
        · exact absurd fires fired
        · cases same
          exact .inr ⟨⟨t, later, pushed, free, fired⟩, clocked pushed ▸ due⟩

end Faithful

theorem course_faithful [BEq κ] [LawfulBEq κ] (delay : Time) (forward : Forward acts) :
    Faithful delay acts (course delay acts).1 (calls delay acts) := by
  induction acts using List.reverseRecOn with
  | nil => exact .start
  | append_singleton acts a ih =>
      have before := ih forward.before
      cases a with
      | push key args =>
          rw [calls_push, course_push]
          exact before.push key args
      | cancel =>
          rw [calls_cancel, course_cancel]
          exact before.cancel
      | advance span =>
          rw [calls_advance, course_advance]
          exact before.advance span (forward span (by simp))

/-- As many calls wait as keys do. -/
theorem Faithful.pending {d : Debouncer κ α} {made : List (WaitingCall κ α)}
    (h : Faithful delay acts d made) :
    d.pending (fun _ => true) = {key | Waits delay acts key}.ncard := by
  classical
  have keys : {key | Waits delay acts key} = ((d.waiting.map (·.key)).toFinset : Set κ) := by
    ext key
    simp only [Set.mem_ofPred_eq, List.coe_toFinset, List.mem_map]
    constructor
    · rintro ⟨c, t, later, pushed, rfl, lasts⟩
      exact ⟨c, (h.waits c).mpr ⟨t, later, pushed, lasts⟩, rfl⟩
    · rintro ⟨c, waiting, rfl⟩
      obtain ⟨t, later, pushed, lasts⟩ := (h.waits c).mp waiting
      exact ⟨c, t, later, pushed, rfl, lasts⟩
  rw [keys, Set.ncard_coe_finset, List.toFinset_card_of_nodup h.orderly.keys, Debouncer.pending,
    List.filter_true, List.length_map]

end Invariants

section Concerning
variable [BEq κ] {delay : Time} {acts : List (Act κ α)} {key : κ}

/-- Whether an act may matter to a key: it is a push of the key, or no push. -/
def Act.concerns (key : κ) : Act κ α → Bool
  | .push other _ => other == key
  | _ => true

/-- What the callback sees of a call, and when. -/
def seen (c : WaitingCall κ α) : α × Time := (c.args, c.due)

theorem clock_concerning (t : Time) (acts : List (Act κ α)) :
    clock t (acts.filter (·.concerns key)) = clock t acts := by
  induction acts generalizing t with
  | nil => rfl
  | cons a acts ih =>
      cases a with
      | push other args =>
          rw [List.filter_cons]
          split
          · exact ih t
          · exact ih t
      | advance span => exact ih (t.after span)
      | cancel => exact ih t

theorem Forward.concerning (forward : Forward acts) (key : κ) :
    Forward (acts.filter (·.concerns key)) :=
  fun span member => forward span (List.mem_of_mem_filter member)

/-- Of two lists of calls that look the same the same part is due. -/
theorem seen_filter {cs cs' : List (WaitingCall κ α)}
    (same : (cs.filter (·.key == key)).map seen = cs'.map seen) (due : Rat → Bool) :
    ((cs.filter (due ·.due.seconds)).filter (·.key == key)).map seen =
      (cs'.filter (due ·.due.seconds)).map seen := by
  have narrowed := congrArg (List.filter fun s : α × Time => due s.2.seconds) same
  rw [List.filter_map, List.filter_map, List.filter_comm] at narrowed
  exact narrowed

variable [LawfulBEq κ]

/-- Where only one key is pushed, only it waits. -/
theorem key_of_waiting (forward : Forward acts) {c : WaitingCall κ α}
    (waiting : c ∈ (course delay (acts.filter (·.concerns key))).1.waiting) : c.key = key := by
  obtain ⟨t, later, ⟨earlier, whole, -⟩, -⟩ :=
    ((course_faithful delay (forward.concerning key)).waits c).mp waiting
  have member : Act.push c.key c.args ∈ acts.filter (·.concerns key) := by
    rw [whole]
    simp
  exact eq_of_beq (List.mem_filter.mp member).2

/-- When time passes, the waiting calls are split into those that are due and those that are not. -/
theorem advance_splits (delay : Time) (forward : Forward acts) (span : Time) :
    (course delay (acts ++ [.advance span])).1.waiting = (course delay acts).1.waiting.filter
      (((clock .zero acts).after span).seconds < ·.due.seconds) ∧
    calls delay (acts ++ [.advance span]) = calls delay acts ++ (course delay acts).1.waiting.filter
      (·.due.seconds ≤ ((clock .zero acts).after span).seconds) := by
  have faithful := course_faithful delay forward
  rw [course_advance, calls_advance, ← faithful.now]
  exact ⟨(takeAll_spec faithful.orderly (Nat.le_refl _)).2.1,
    congrArg _ (takeAll_of_sorted faithful.orderly faithful.sorted (Nat.le_refl _))⟩

/-- The waiting calls of a key, and those that are made, are the same without the other keys. -/
theorem course_concerning (delay : Time) (forward : Forward acts) (key : κ) :
    ((course delay acts).1.waiting.filter (·.key == key)).map seen =
      (course delay (acts.filter (·.concerns key))).1.waiting.map seen ∧
    ((calls delay acts).filter (·.key == key)).map seen =
      (calls delay (acts.filter (·.concerns key))).map seen := by
  induction acts using List.reverseRecOn with
  | nil => exact ⟨rfl, rfl⟩
  | append_singleton acts a ih =>
      have before := forward.before
      obtain ⟨waiting, made⟩ := ih before
      rw [List.filter_append]
      cases a with
      | cancel =>
          rw [List.filter_cons_of_pos rfl, List.filter_nil, course_cancel, course_cancel,
            calls_cancel, calls_cancel]
          refine ⟨?_, made⟩
          simp [Debouncer.cancel]
      | advance span =>
          rw [List.filter_cons_of_pos rfl, List.filter_nil]
          obtain ⟨left, taken⟩ := advance_splits delay before span
          obtain ⟨left', taken'⟩ := advance_splits delay (before.concerning key) span
          rw [clock_concerning] at left' taken'
          rw [left, taken, left', taken', List.filter_append, List.map_append, List.map_append,
            made]
          exact ⟨seen_filter waiting fun due => decide (_ < due),
            congrArg _ (seen_filter waiting fun due => decide (due ≤ _))⟩
      | push other args =>
          by_cases same : other = key
          · subst same
            rw [List.filter_cons_of_pos (by simp [Act.concerns]), List.filter_nil, course_push,
              course_push, calls_push, calls_push]
            refine ⟨?_, made⟩
            have none' : (course delay acts).1.waiting.filter
                (fun c => c.key == other && !(c.key == other)) = [] :=
              List.filter_eq_nil_iff.mpr (by simp)
            have all : (course delay (acts.filter (·.concerns other))).1.waiting.filter
                (fun c => !(c.key == other)) = [] :=
              List.filter_eq_nil_iff.mpr fun c waits => by simp [key_of_waiting before waits]
            have now : (course delay acts).1.now =
                (course delay (acts.filter (·.concerns other))).1.now := by
              rw [(course_faithful delay before).now,
                (course_faithful delay (before.concerning other)).now, clock_concerning]
            rw [Debouncer.push, Debouncer.push, List.filter_append, List.filter_filter, none', all,
              now, List.filter_singleton, beq_self_eq_true other]
            rfl
          · rw [List.filter_cons_of_neg (by simpa [Act.concerns] using same), List.filter_nil,
              List.append_nil, course_push, calls_push]
            refine ⟨?_, made⟩
            have kept : ∀ c : WaitingCall κ α,
                (c.key == key && !(c.key == other)) = (c.key == key) := fun c => by
              by_cases here : c.key = key
              · simp [here, Ne.symm same]
              · simp [here]
            rw [Debouncer.push, List.filter_append, List.filter_filter,
              List.filter_congr fun c _ => kept c, List.filter_cons_of_neg (by simpa using same),
              List.filter_nil, List.append_nil]
            exact waiting

end Concerning

/-- Just the pushes are delivered whose timers fire before they are superseded, each once and at its
due time, in the order of the pushes; the keys whose last push is neither delivered nor cancelled
are pending; and the calls of a key are those that there are without the pushes of other keys. -/
theorem pushes_delivered [BEq κ] [LawfulBEq κ]
    {call : WaitingCall κ α → Debouncer κ α × σ → Debouncer κ α × σ}
    {f : WaitingCall κ α → Time → σ → σ} (keeps : ∀ c d s, call c (d, s) = (d, f c d.now s))
    (delay : Time) {acts : List (Act κ α)} (forward : Forward acts) (s : σ) :
    (run call delay acts s).2 = (calls delay acts).foldl (fun s c => f c c.due s) s ∧
    (∀ c, c ∈ calls delay acts ↔
      ∃ t later, IsPush delay acts c t later ∧ Fires c.key c.due t later) ∧
    (calls delay acts).Pairwise Precedes ∧
    (run call delay acts s).1.pending (fun _ => true) = {key | Waits delay acts key}.ncard ∧
    ∀ key, ((calls delay acts).filter (·.key == key)).map seen =
      (calls delay (acts.filter (·.concerns key))).map seen := by
  have faithful := course_faithful delay forward
  rw [run_calls keeps]
  exact ⟨rfl, faithful.fires, (List.pairwise_append.mp faithful.order).1, faithful.pending,
    fun key => (course_concerning delay forward key).2⟩

/-- A push that is superseded before it is due, one that fires exactly when it is due, and one that
still waits. -/
def superseded : List (Act String Nat) :=
  [.push "a" 0, .advance ⟨1 / 4, true⟩, .push "a" 1, .push "b" 2, .advance .halfSecond, .push "b" 3]

/-- Writes down what a callback is called with, and when. -/
def note (c : WaitingCall String Nat) (now : Time) (log : List (Nat × Time)) :
    List (Nat × Time) := log ++ [(c.args, now)]

def noted (c : WaitingCall String Nat) (s : Debouncer String Nat × List (Nat × Time)) :
    Debouncer String Nat × List (Nat × Time) := (s.1, note c s.1.now s.2)

theorem pushes_delivered_superseded :
    Forward superseded ∧
    (∀ c d s, noted c (d, s) = (d, note c d.now s)) ∧
    (run noted .halfSecond superseded []).2 = [(1, ⟨3 / 4, true⟩), (2, ⟨3 / 4, true⟩)] ∧
    {key | Waits .halfSecond superseded key}.ncard = 1 := by
  have forward : Forward superseded := by
    intro span member
    simp only [superseded, List.mem_cons, reduceCtorEq, Act.advance.injEq, false_or,
      List.not_mem_nil, or_false] at member
    rcases member with rfl | rfl
    · decide +kernel
    · decide +kernel
  have keeps : ∀ c d s, noted c (d, s) = (d, note c d.now s) := fun _ _ _ => rfl
  obtain ⟨made, -, -, pending, -⟩ := pushes_delivered keeps .halfSecond forward []
  exact ⟨forward, keeps, made.trans (by decide +kernel), pending.symm.trans (by decide +kernel)⟩

end DataModel.Debouncer
