import Mathlib
import DataModel.Debounce

/-!
Which delayed calls are made. When time passes, just the waiting calls that fall due are made, each
once, and the others go on waiting; this needs only that the waiting calls come from different
pushes, which every operation of a debouncer keeps.
-/
namespace DataModel.Debouncer
variable {κ α σ : Type} {d d' : Debouncer κ α} {limit : Rat} {c : WaitingCall κ α}

/-- The waiting calls are of different keys, and in the order of the pushes that they wait for. -/
structure Orderly (d : Debouncer κ α) : Prop where
  keys : (d.waiting.map (·.key)).Nodup
  numbers : d.waiting.Pairwise (·.number < ·.number)
  pushed : ∀ c ∈ d.waiting, c.number < d.pushes

namespace Orderly

theorem start : (Debouncer.start : Debouncer κ α).Orderly := ⟨.nil, .nil, nofun⟩

/-- Waiting calls may be dropped, and the clock may be set. -/
theorem of_sublist (h : d.Orderly) (part : d'.waiting.Sublist d.waiting)
    (pushes : d'.pushes = d.pushes) : d'.Orderly :=
  ⟨h.keys.sublist (part.map _), h.numbers.sublist part,
    fun c member => pushes ▸ h.pushed c (part.subset member)⟩

theorem cancel (h : d.Orderly) (keys : κ → Bool) : (d.cancel keys).Orderly :=
  h.of_sublist List.filter_sublist rfl

theorem push [BEq κ] [LawfulBEq κ] (h : d.Orderly) (delay : Time) (key : κ) (args : α) :
    (d.push delay key args).Orderly := by
  have kept : Orderly { d with waiting := d.waiting.filter fun c => !(c.key == key) } :=
    h.of_sublist List.filter_sublist rfl
  refine ⟨?_, ?_, fun c member => ?_⟩
  · rw [Debouncer.push, List.map_append, List.map_singleton, List.nodup_append]
    refine ⟨kept.keys, List.nodup_singleton _, ?_⟩
    rintro _ old _ new rfl
    obtain ⟨c, member, here⟩ := List.mem_map.mp old
    simp [here, List.mem_singleton.mp new] at member
  · refine List.pairwise_append.mpr ⟨kept.numbers, List.pairwise_singleton _ _, ?_⟩
    intro c old new here
    rw [List.mem_singleton.mp here]
    exact kept.pushed c old
  · rcases List.mem_append.mp member with old | new
    · exact Nat.lt_succ_of_lt (kept.pushed c old)
    · rw [List.mem_singleton.mp new]
      exact Nat.lt_succ_self _

/-- A key has one waiting call. -/
theorem eq_of_key (h : d.Orderly) {c' : WaitingCall κ α} (hc : c ∈ d.waiting)
    (hc' : c' ∈ d.waiting) (same : c.key = c'.key) : c = c' :=
  List.inj_on_of_nodup_map h.keys hc hc' same

end Orderly

section Pushing
variable [BEq κ] [LawfulBEq κ] {delay : Time} {key : κ} {args : α}

theorem mem_push : c ∈ (d.push delay key args).waiting ↔
    (c ∈ d.waiting ∧ c.key ≠ key) ∨ c = ⟨key, args, d.now.after delay, d.pushes⟩ := by
  simp [push]

end Pushing

section First
variable {cs : List (WaitingCall κ α)}

theorem first?_eq_none (h : first? cs = none) : cs = [] := by
  cases cs with
  | nil => rfl
  | cons c rest =>
      rw [first?] at h
      split at h
      · cases h
      · split at h
        · cases h
        · cases h

/-- The call that is due first is one of them, and none is due before it. -/
theorem first?_spec (h : first? cs = some c) :
    c ∈ cs ∧ ∀ other ∈ cs, c.due.seconds ≤ other.due.seconds := by
  induction cs generalizing c with
  | nil => cases h
  | cons head rest ih =>
      rw [first?] at h
      cases found : first? rest with
      | none =>
          rw [found] at h
          cases h
          rw [first?_eq_none found]
          simp
      | some other =>
          rw [found] at h
          obtain ⟨member, least⟩ := ih found
          dsimp only at h
          by_cases earlier : other.due.seconds < head.due.seconds
          · rw [if_pos earlier] at h
            cases h
            refine ⟨List.mem_cons_of_mem _ member, fun c' hc' => ?_⟩
            rcases List.mem_cons.mp hc' with rfl | inside
            · exact earlier.le
            · exact least c' inside
          · rw [if_neg earlier] at h
            cases h
            refine ⟨List.mem_cons_self, fun c' hc' => ?_⟩
            rcases List.mem_cons.mp hc' with rfl | inside
            · exact le_refl _
            · exact (not_lt.mp earlier).trans (least c' inside)

theorem takeDue?_none (h : d.takeDue? limit = none) : ∀ c ∈ d.waiting, limit < c.due.seconds := by
  intro c member
  rw [takeDue?] at h
  cases found : first? d.waiting with
  | none =>
      rw [first?_eq_none found] at member
      cases member
  | some first =>
      rw [found] at h
      dsimp only at h
      by_cases due : first.due.seconds ≤ limit
      · rw [if_pos due] at h
        cases h
      · exact (not_le.mp due).trans_le ((first?_spec found).2 c member)

/-- A call that is taken is a waiting one that is due, and the clock is set to its time. -/
theorem takeDue?_some (h : d.takeDue? limit = some (c, d')) :
    c ∈ d.waiting ∧ c.due.seconds ≤ limit ∧
      d' = { d with now := c.due, waiting := d.waiting.filter (·.number != c.number) } := by
  rw [takeDue?] at h
  cases found : first? d.waiting with
  | none =>
      rw [found] at h
      cases h
  | some first =>
      rw [found] at h
      dsimp only at h
      by_cases due : first.due.seconds ≤ limit
      · rw [if_pos due] at h
        cases h
        exact ⟨(first?_spec found).1, due, rfl⟩
      · rw [if_neg due] at h
        cases h

end First

section Making

/-- The calls that are due by a time, in the order in which they are made, if none of them pushes;
and what is left. -/
def takeAll (d : Debouncer κ α) (limit : Rat) : Nat → List (WaitingCall κ α) × Debouncer κ α
  | 0 => ([], d)
  | fuel + 1 =>
    match d.takeDue? limit with
    | none => ([], d)
    | some (c, d) => (c :: (d.takeAll limit fuel).1, (d.takeAll limit fuel).2)

/-- Making the calls that are due is taking them all, if no call changes what waits. -/
theorem callDue_eq {call : WaitingCall κ α → Debouncer κ α × σ → Debouncer κ α × σ}
    {f : WaitingCall κ α → Time → σ → σ} (keeps : ∀ c d s, call c (d, s) = (d, f c d.now s))
    (d : Debouncer κ α) (limit : Rat) (fuel : Nat) (s : σ) :
    callDue call limit fuel (d, s) = ((d.takeAll limit fuel).2,
      (d.takeAll limit fuel).1.foldl (fun s c => f c c.due s) s) := by
  induction fuel generalizing d s with
  | zero => rfl
  | succ fuel ih =>
      rw [callDue, takeAll]
      cases taken : d.takeDue? limit with
      | none => rfl
      | some next =>
          obtain ⟨c, d'⟩ := next
          have now : d'.now = c.due := by rw [(takeDue?_some taken).2.2]
          dsimp only
          rw [keeps, now, ih]
          rfl

/-- What is left after one call is what waited before and after it. -/
theorem Orderly.split (h : d.Orderly) (member : c ∈ d.waiting) :
    ∃ before after, d.waiting = before ++ c :: after ∧
      d.waiting.filter (·.number != c.number) = before ++ after := by
  obtain ⟨before, after, whole⟩ := List.append_of_mem member
  refine ⟨before, after, whole, ?_⟩
  have ordered := h.numbers
  rw [whole, List.pairwise_append, List.pairwise_cons] at ordered
  obtain ⟨-, ⟨later, -⟩, earlier⟩ := ordered
  rw [whole, List.filter_append, List.filter_cons]
  simp only [bne_self_eq_false, Bool.false_eq_true, if_false]
  rw [List.filter_eq_self.mpr, List.filter_eq_self.mpr]
  · exact fun other inside => bne_iff_ne.mpr (later other inside).ne'
  · exact fun other inside =>
      bne_iff_ne.mpr (earlier other inside c List.mem_cons_self).ne

/-- With fuel for every waiting call, just the calls that are due by the time are made, each once,
and the others are left. -/
theorem takeAll_spec (h : d.Orderly) {fuel : Nat} (enough : d.waiting.length ≤ fuel) :
    (d.takeAll limit fuel).1.Perm (d.waiting.filter (·.due.seconds ≤ limit)) ∧
    (d.takeAll limit fuel).2.waiting = d.waiting.filter (limit < ·.due.seconds) ∧
    (d.takeAll limit fuel).2.pushes = d.pushes := by
  induction fuel generalizing d with
  | zero =>
      have none' : d.waiting = [] := List.length_eq_zero_iff.mp (Nat.le_zero.mp enough)
      simp [takeAll, none']
  | succ fuel ih =>
      rw [takeAll]
      cases taken : d.takeDue? limit with
      | none =>
          have later := takeDue?_none taken
          refine ⟨?_, ?_, rfl⟩
          · rw [List.filter_eq_nil_iff.mpr]
            intro c member
            simpa using later c member
          · rw [List.filter_eq_self.mpr]
            intro c member
            simpa using later c member
      | some next =>
          obtain ⟨c, d'⟩ := next
          obtain ⟨member, due, rfl⟩ := takeDue?_some taken
          obtain ⟨before, after, whole, rest⟩ := h.split member
          have orderly : Orderly { d with
              now := c.due, waiting := d.waiting.filter (·.number != c.number) } :=
            h.of_sublist List.filter_sublist rfl
          have fewer : (before ++ after).length ≤ fuel := by
            rw [whole] at enough
            simp only [List.length_append, List.length_cons] at enough ⊢
            omega
          obtain ⟨made, left, pushes⟩ := ih orderly (rest ▸ fewer)
          dsimp only at made left ⊢
          rw [rest] at made left pushes ⊢
          refine ⟨?_, ?_, pushes⟩
          · rw [whole, List.filter_append, List.filter_cons_of_pos (by simpa using due)]
            rw [List.filter_append] at made
            exact (made.cons c).trans List.perm_middle.symm
          · rw [whole, List.filter_append, List.filter_cons_of_neg (by simpa using due),
              ← List.filter_append]
            exact left

end Making
end DataModel.Debouncer
