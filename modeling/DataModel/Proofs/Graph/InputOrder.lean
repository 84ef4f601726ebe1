import Mathlib.Logic.Relation
import DataModel.Proofs.Graph.Sorting

/-!
What sorting keeps of the order it is given. A visit adds nothing but what its element leads to, so
the elements that the first members lead to stand in front of all others. Hence members that no
member depends on keep their order, and a list that is sorted already stays as it is.
-/
namespace DataModel.Graph
variable {α : Type}

/-- Dependencies between members lead from one element to another, over any number of them. -/
def Leads (deps : α → List α) (members : List α) : α → α → Prop :=
  Relation.ReflTransGen fun x d => d ∈ deps x ∧ d ∈ members

/-- An element that no member depends on. -/
def undepended [DecidableEq α] (deps : α → List α) (members : List α) (x : α) : Bool :=
  members.all fun y => !(deps y).contains x

section Lists
variable {deps : α → List α} {members : List α}

/-- A list that is sorted holds all that its elements lead to. -/
theorem Sorted.leads {sorted : List α} (h : Sorted deps members sorted) {x y : α}
    (there : x ∈ sorted) (leads : Leads deps members x y) : y ∈ sorted := by
  induction leads with
  | refl => exact there
  | tail _ step ih =>
      obtain ⟨before, after, split⟩ := List.append_of_mem ih
      have early := h.behind before _ after split _ step.1 step.2
      rw [split]
      exact List.mem_append_left _ early

/-- If only one element of a list without repetition passes a test, filtering leaves just that. -/
theorem filter_eq_singleton {xs : List α} {test : α → Bool} {x : α} (once : xs.Nodup) (there : x ∈ xs)
    (passes : test x = true) (only : ∀ y ∈ xs, test y = true → y = x) : xs.filter test = [x] := by
  apply List.perm_singleton.mp
  rw [List.perm_ext_iff_of_nodup (once.filter test) (List.nodup_singleton x)]
  intro y
  rw [List.mem_filter, List.mem_singleton]
  constructor
  · exact fun h => only y h.1 h.2
  · rintro rfl
    exact ⟨there, passes⟩

end Lists

section Visits
variable [DecidableEq α] {deps : α → List α} {members : List α}

theorem undepended_iff {x : α} :
    undepended deps members x = true ↔ ∀ y ∈ members, x ∉ deps y := by
  simp [undepended]

/-- Nothing but itself leads to what no member depends on. -/
theorem Leads.eq_of_undepended {x y : α} (leads : Leads deps members x y) (member : x ∈ members)
    (free : undepended deps members y = true) : y = x := by
  rcases Relation.ReflTransGen.cases_tail leads with same | ⟨z, way, step⟩
  · exact same
  · have between : z ∈ members := by
      rcases Relation.ReflTransGen.cases_tail way with rfl | ⟨_, -, last⟩
      · exact member
      · exact last.2
    exact absurd step.1 (undepended_iff.mp free z between)

/-- Visiting dependencies of an element adds only what it leads to. -/
theorem visits_extend (fuel : Nat) (path : List α) (x : α) (ds : List α)
    (step : ∀ sorted d out, visit deps members fuel (x :: path) sorted d = .ok out →
      ∃ new, out = sorted ++ new ∧ ∀ y ∈ new, Leads deps members d y)
    (sub : ∀ d ∈ ds, d ∈ deps x) {sorted out : List α}
    (done : ds.foldlM (fun sorted d =>
      if !members.contains d || sorted.contains d then .ok sorted
      else if (x :: path).contains d then .error (closing (x :: path) d)
      else visit deps members fuel (x :: path) sorted d) sorted = .ok out) :
    ∃ new, out = sorted ++ new ∧ ∀ y ∈ new, Leads deps members x y := by
  induction ds generalizing sorted with
  | nil =>
      cases done
      exact ⟨[], by simp⟩
  | cons d ds ih =>
      have below : ∀ e ∈ ds, e ∈ deps x := fun e he => sub e (List.mem_cons_of_mem d he)
      rw [List.foldlM_cons] at done
      by_cases skipped : (!members.contains d || sorted.contains d) = true
      · rw [if_pos skipped] at done
        exact ih below done
      · rw [if_neg skipped] at done
        have member : d ∈ members := by simp at skipped; exact skipped.1
        split at done
        · cases done
        · cases visited : visit deps members fuel (x :: path) sorted d with
          | error circle =>
              rw [visited] at done
              cases done
          | ok between =>
              rw [visited] at done
              obtain ⟨first, rfl, fromFirst⟩ := step sorted d between visited
              obtain ⟨later, rfl, fromLater⟩ := ih below done
              refine ⟨first ++ later, List.append_assoc _ _ _, fun y hy => ?_⟩
              rcases List.mem_append.mp hy with early | late
              · exact .head ⟨sub d List.mem_cons_self, member⟩ (fromFirst y early)
              · exact fromLater y late

theorem visit_extends {fuel : Nat} {path sorted out : List α} {x : α}
    (done : visit deps members fuel path sorted x = .ok out) :
    ∃ new, out = sorted ++ new ∧ ∀ y ∈ new, Leads deps members x y := by
  induction fuel generalizing path sorted x out with
  | zero =>
      cases done
      exact ⟨[], by simp⟩
  | succ fuel ih =>
      rw [visit] at done
      generalize loop : ((deps x).foldlM _ sorted : Except (List α) (List α)) = r at done
      cases r with
      | error circle => cases done
      | ok between =>
          cases done
          obtain ⟨new, rfl, leads⟩ :=
            visits_extend fuel path x (deps x) (fun _ _ _ => ih) (fun _ h => h) loop
          refine ⟨new ++ [x], List.append_assoc _ _ _, fun y hy => ?_⟩
          rcases List.mem_append.mp hy with early | last
          · exact leads y early
          · rw [List.mem_singleton.mp last]
            exact .refl

/-- An element whose dependencies are all there is put behind what is there. -/
theorem visit_ready {fuel : Nat} {path sorted : List α} {x : α}
    (ready : ∀ d ∈ deps x, d ∈ members → d ∈ sorted) :
    visit deps members (fuel + 1) path sorted x = .ok (sorted ++ [x]) := by
  have loop : ∀ ds : List α, (∀ d ∈ ds, d ∈ members → d ∈ sorted) →
      ds.foldlM (fun sorted d =>
        if !members.contains d || sorted.contains d then .ok sorted
        else if (x :: path).contains d then .error (closing (x :: path) d)
        else visit deps members fuel (x :: path) sorted d) sorted = .ok sorted := by
    intro ds
    induction ds with
    | nil => exact fun _ => rfl
    | cons d ds ih =>
        intro all
        obtain ⟨first, rest⟩ := List.forall_mem_cons.mp all
        have skipped : (!members.contains d || sorted.contains d) = true := by
          by_cases member : d ∈ members
          · simp [first member]
          · simp [member]
        rw [List.foldlM_cons, if_pos skipped]
        exact ih rest
  rw [visit, loop (deps x) ready]
  rfl

end Visits

section Turns
variable [DecidableEq α] {deps : α → List α} {members : List α}

theorem turns_append (xs ys sorted : List α) : turns deps members (xs ++ ys) sorted =
    turns deps members xs sorted >>= turns deps members ys := by
  rw [turns, List.foldlM_append]
  rfl

theorem turns_singleton (x : α) (sorted : List α) : turns deps members [x] sorted =
    if sorted.contains x then .ok sorted
    else visit deps members (members.length + 1) [] sorted x := by
  rw [turns, List.foldlM_cons]
  generalize (if sorted.contains x then _ else _ : Except (List α) (List α)) = r
  cases r <;> rfl

/-- Some turns, followed by the turn of one more. -/
theorem turns_concat {xs sorted out : List α} {x : α}
    (done : turns deps members (xs ++ [x]) sorted = .ok out) :
    ∃ between, turns deps members xs sorted = .ok between ∧
      (x ∈ between ∧ out = between ∨ x ∉ between ∧
        visit deps members (members.length + 1) [] between x = .ok out) := by
  rw [turns_append] at done
  cases first : turns deps members xs sorted with
  | error circle =>
      rw [first] at done
      cases done
  | ok between =>
      rw [first] at done
      change turns deps members [x] between = .ok out at done
      rw [turns_singleton] at done
      refine ⟨between, rfl, ?_⟩
      by_cases old : x ∈ between
      · rw [if_pos (by simpa using old)] at done
        cases done
        exact .inl ⟨old, rfl⟩
      · rw [if_neg (by simpa using old)] at done
        exact .inr ⟨old, done⟩

/-- Turns put what their elements lead to behind what is there. -/
theorem turns_extend {xs sorted out : List α} (done : turns deps members xs sorted = .ok out) :
    ∃ new, out = sorted ++ new ∧ ∀ y ∈ new, ∃ x ∈ xs, Leads deps members x y := by
  induction xs using List.reverseRecOn generalizing out with
  | nil =>
      cases done
      exact ⟨[], by simp⟩
  | append_singleton xs x ih =>
      obtain ⟨between, first, ⟨-, rfl⟩ | ⟨-, visited⟩⟩ := turns_concat done
      · obtain ⟨new, rfl, leads⟩ := ih first
        refine ⟨new, rfl, fun y hy => ?_⟩
        obtain ⟨z, hz, way⟩ := leads y hy
        exact ⟨z, List.mem_append_left _ hz, way⟩
      · obtain ⟨new, rfl, leads⟩ := ih first
        obtain ⟨last, rfl, leads'⟩ := visit_extends visited
        refine ⟨new ++ last, List.append_assoc _ _ _, fun y hy => ?_⟩
        rcases List.mem_append.mp hy with early | late
        · obtain ⟨z, hz, way⟩ := leads y early
          exact ⟨z, List.mem_append_left _ hz, way⟩
        · exact ⟨x, by simp, leads' y late⟩

/-- Turns from the beginning give what their elements lead to, sorted. -/
theorem mem_turns {xs out : List α} (known : ∀ x ∈ xs, x ∈ members)
    (done : turns deps members xs [] = .ok out) :
    Sorted deps members out ∧ ∀ y, y ∈ out ↔ ∃ x ∈ xs, Leads deps members x y := by
  have spec := turns_spec xs [] known (.nil deps members)
  rw [done] at spec
  cases spec with
  | done kept sound apart has =>
      obtain ⟨new, rfl, leads⟩ := turns_extend done
      refine ⟨sound, fun y => ⟨leads y, ?_⟩⟩
      rintro ⟨x, hx, way⟩
      exact sound.leads (has x hx) way

/-- What no member depends on comes in the order of its turns. -/
theorem turns_undepended {xs out : List α} (known : ∀ x ∈ xs, x ∈ members) (once : xs.Nodup)
    (done : turns deps members xs [] = .ok out) :
    out.filter (undepended deps members) = xs.filter (undepended deps members) := by
  induction xs using List.reverseRecOn generalizing out with
  | nil =>
      cases done
      rfl
  | append_singleton xs x ih =>
      have inside : ∀ y ∈ xs, y ∈ members := fun y hy => known y (List.mem_append_left _ hy)
      have member : x ∈ members := known x (by simp)
      obtain ⟨onceBefore, -, apart⟩ := List.nodup_append.mp once
      obtain ⟨between, first, rest⟩ := turns_concat done
      have before := ih inside onceBefore first
      rw [List.filter_append, ← before]
      rcases rest with ⟨old, rfl⟩ | ⟨new, visited⟩
      · -- an element that came before its turn is a dependency
        have depended : undepended deps members x = false := by
          apply Bool.eq_false_iff.mpr
          intro free
          obtain ⟨y, hy, way⟩ := ((mem_turns inside first).2 x).mp old
          have same := way.eq_of_undepended (inside y hy) free
          exact apart y hy x (by simp) same.symm
        simp [depended]
      · obtain ⟨last, rfl, leads⟩ := visit_extends visited
        have sound := (mem_turns known done).1
        have there : x ∈ between ++ last := ((mem_turns known done).2 x).mpr ⟨x, by simp, .refl⟩
        have inLast : x ∈ last := (List.mem_append.mp there).resolve_left new
        have onceLast : last.Nodup := (List.nodup_append.mp sound.once).2.1
        rw [List.filter_append]
        congr 1
        cases free : undepended deps members x with
        | true =>
            rw [filter_eq_singleton onceLast inLast free fun y hy free' =>
              (leads y hy).eq_of_undepended member free']
            simp [free]
        | false =>
            simp only [List.filter_cons, free, Bool.false_eq_true, if_false, List.filter_nil,
              List.filter_eq_nil_iff]
            intro y hy free'
            have same := (leads y hy).eq_of_undepended member free'
            rw [same, free] at free'
            cases free'

/-- The turns of a list that is sorted already leave it as it is. -/
theorem turns_sorted (xs ys : List α) (sorted : Sorted deps members (xs ++ ys)) :
    turns deps members ys xs = .ok (xs ++ ys) := by
  induction ys generalizing xs with
  | nil =>
      rw [List.append_nil]
      rfl
  | cons y ys ih =>
      have new : y ∉ xs := fun early => (List.nodup_append.mp sorted.once).2.2 y early y (by simp) rfl
      have ready : visit deps members (members.length + 1) [] xs y = .ok (xs ++ [y]) :=
        visit_ready fun d hd member => sorted.behind xs y ys rfl d hd member
      rw [← List.singleton_append, turns_append, turns_singleton, if_neg (by simpa using new), ready]
      change turns deps members ys (xs ++ [y]) = _
      rw [ih (xs ++ [y]) (by simpa using sorted)]
      simp

/-- Sorting puts what the first members lead to in front of everything else. -/
theorem sort_initial {sorted : List α} (done : sort deps members = .ok sorted) (k : Nat) :
    ∃ before after, sorted = before ++ after ∧
      ∀ x, x ∈ before ↔ ∃ y ∈ members.take k, Leads deps members y x := by
  have split : turns deps members (members.take k ++ members.drop k) [] = .ok sorted := by
    rw [List.take_append_drop]
    exact done
  rw [turns_append] at split
  cases first : turns deps members (members.take k) [] with
  | error circle =>
      rw [first] at split
      cases split
  | ok before =>
      rw [first] at split
      obtain ⟨after, rfl, -⟩ := turns_extend split
      exact ⟨before, after, rfl, (mem_turns (fun _ => List.mem_of_mem_take) first).2⟩

theorem sort_of_sorted (sorted : Sorted deps members members) :
    sort deps members = .ok members := by
  rw [sort_eq_turns]
  exact turns_sorted [] members sorted

/-- The order in which members are listed matters for their turns only. -/
theorem turns_congr {members' : List α} (same : members'.Perm members) (xs sorted : List α) :
    turns deps members' xs sorted = turns deps members xs sorted := by
  have contains : ∀ d, members'.contains d = members.contains d := fun d => by
    rw [Bool.eq_iff_iff, List.contains_iff_mem, List.contains_iff_mem]
    exact same.mem_iff
  have visits : ∀ fuel, visit deps members' fuel = visit deps members fuel := by
    intro fuel
    induction fuel with
    | zero => rfl
    | succ fuel ih =>
        funext path sorted x
        simp only [visit, ih, contains]
  rw [turns, turns, same.length_eq, visits]

end Turns

section Versions
variable {m : Model} {members : List VersionId}

/-- Sorting versions without a circle keeps their order as far as dependencies allow. What the
first of them lead to, however many these are, stands in front of all others; those that none
depends on keep their order; and what is sorted already, as each result is, stays as it is. -/
theorem sortVersions_keeps_order (m : Model) (deps : VersionId → List VersionId)
    (once : members.Nodup) (free : ¬ ∃ circle, IsCircle deps members circle) :
    ∃ sorted, sortVersions m deps members = .ok sorted ∧
      (∀ k, ∃ before after, sorted = before ++ after ∧
        ∀ x, x ∈ before ↔ ∃ y ∈ members.take k, Leads deps members y x) ∧
      sorted.filter (undepended deps members) = members.filter (undepended deps members) ∧
      (Sorted deps members members → sorted = members) ∧
      sortVersions m deps sorted = .ok sorted := by
  cases done : sort deps members with
  | error circle => exact absurd ⟨circle, sort_circle done⟩ free
  | ok sorted =>
      have result : ∀ {members sorted}, sort deps members = .ok sorted →
          sortVersions m deps members = .ok sorted := by
        intro members sorted done
        rw [sortVersions, done]
        rfl
      have same := sort_perm once done
      refine ⟨sorted, result done, sort_initial done, ?_, fun already => ?_, result ?_⟩
      · exact turns_undepended (fun _ h => h) once done
      · rw [sort_of_sorted already] at done
        exact (Except.ok.inj done).symm
      · rw [sort_eq_turns, turns_congr same]
        exact turns_sorted [] sorted (sort_sorted done)

/-- Two files that use a third one, which is listed behind them. -/
theorem sortVersions_keeps_order_looped :
    ([0, 3, 1] : List VersionId).Nodup ∧ ∃ sorted,
      sortVersions looped loopedDeps [0, 3, 1] = .ok sorted ∧ sorted = [1, 0, 3] ∧
      (∃ before after, sorted = before ++ after ∧
        ∀ x, x ∈ before ↔ ∃ y ∈ [0], Leads loopedDeps [0, 3, 1] y x) ∧
      sorted.filter (undepended loopedDeps [0, 3, 1]) = [0, 3] ∧
      sortVersions looped loopedDeps sorted = .ok sorted := by
  have once : ([0, 3, 1] : List VersionId).Nodup := by decide
  have run : sort loopedDeps [0, 3, 1] = .ok [1, 0, 3] := by with_unfolding_all rfl
  have free : ¬ ∃ circle, IsCircle loopedDeps [0, 3, 1] circle := by
    intro round
    obtain ⟨circle, failed⟩ := sort_fails_iff.mpr round
    rw [run] at failed
    cases failed
  obtain ⟨sorted, done, initial, kept, -, again⟩ :=
    sortVersions_keeps_order looped loopedDeps once free
  refine ⟨once, sorted, done, ?_, initial 1, kept.trans (by with_unfolding_all rfl), again⟩
  rw [sortVersions, run] at done
  exact (Except.ok.inj done).symm

end Versions
end DataModel.Graph
