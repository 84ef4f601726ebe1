import DataModel.Proofs.Resolution.MirroredChecks
import DataModel.Proofs.Text.Coding
import Mathlib.Data.List.Sort
import Mathlib.Data.String.Basic

/-!
The order of imports. The names of the used files that are there are compared, place by place, with
the same names in order, which is that of their code points (`Text.le_iff_codes_le`). Nothing differs
where they are in order already; otherwise at least two places do, since a list of the same names
cannot differ in one place alone.
-/
namespace DataModel.Resolution

section Displacing
variable {α β : Type} [DecidableEq β] {key : α → β} {xs : List α} {wanted : List β}

/-- The elements of a list with another key than the one wanted in their place. -/
def displaced (key : α → β) (xs : List α) (wanted : List β) : List α :=
  ((xs.zip wanted).filter fun p => key p.1 ≠ p.2).map Prod.fst

theorem displaced_cons (x : α) (xs : List α) (y : β) (wanted : List β) :
    displaced key (x :: xs) (y :: wanted) =
      if key x = y then displaced key xs wanted else x :: displaced key xs wanted := by
  by_cases same : key x = y <;> simp [displaced, same]

theorem displaced_eq_nil_iff (length : xs.length = wanted.length) :
    displaced key xs wanted = [] ↔ xs.map key = wanted := by
  induction xs generalizing wanted with
  | nil =>
      cases wanted with
      | nil => exact ⟨fun _ => rfl, fun _ => rfl⟩
      | cons y wanted => cases length
  | cons x xs ih =>
      cases wanted with
      | nil => cases length
      | cons y wanted =>
          rw [displaced_cons, List.map_cons, List.cons.injEq]
          split
          · next same =>
            rw [ih (Nat.succ.inj length), and_iff_right same]
          · next other =>
            exact ⟨fun none => (List.cons_ne_nil _ _ none).elim, fun both => absurd both.1 other⟩

/-- A rearrangement of keys leaves all of them in their places, or displaces two at least. -/
theorem displaced_of_perm (perm : wanted.Perm (xs.map key)) :
    displaced key xs wanted = [] ∨ 2 ≤ (displaced key xs wanted).length := by
  induction xs generalizing wanted with
  | nil =>
      left
      rfl
  | cons x xs ih =>
      have length := perm.length_eq
      cases wanted with
      | nil => cases length
      | cons y wanted =>
          rw [displaced_cons]
          split
          · next same =>
            rw [List.map_cons, same] at perm
            exact ih perm.cons_inv
          · next other =>
            right
            -- if all others stood in their places, this one would do so too
            have rest : displaced key xs wanted ≠ [] := by
              intro none
              have behind : xs.length = wanted.length := by simpa using length.symm
              rw [displaced_eq_nil_iff behind] at none
              rw [List.map_cons, none, ← List.singleton_append,
                ← List.singleton_append (l := wanted), List.perm_append_right_iff] at perm
              exact other (List.singleton_perm_singleton.mp perm).symm
            have some := List.length_pos_iff.mpr rest
            rw [List.length_cons]
            omega

end Displacing

section Order

/-- Names in ascending order. -/
theorem pairwise_mergeSort_name (uses : List Reference) :
    ((uses.mergeSort fun a b => a.name ≤ b.name).map (·.name)).Pairwise (· ≤ ·) := by
  rw [List.pairwise_map]
  let le (a b : Reference) : Bool := a.name ≤ b.name
  have trans : ∀ a b c, le a b → le b c → le a c := fun a b c first second =>
    decide_eq_true (le_trans (of_decide_eq_true first) (of_decide_eq_true second))
  have total : ∀ a b, le a b || le b a := by
    intro a b
    rw [Bool.or_eq_true, decide_eq_true_iff, decide_eq_true_iff]
    exact le_total a.name b.name
  exact (List.pairwise_mergeSort trans total uses).imp of_decide_eq_true

theorem orderReports_eq (s : Scope) (missing : List Reference) (m : Model) :
    orderReports s missing m = (displaced Reference.name (existingUses s missing m)
      (((existingUses s missing m).mergeSort fun a b => a.name ≤ b.name).map (·.name))).map
        fun use => Finding.unsortedUse.diagnostic s.self (.file s.self) use := by
  unfold orderReports
  dsimp only
  generalize (existingUses s missing m).mergeSort (fun a b => a.name ≤ b.name) = sorted
  induction existingUses s missing m generalizing sorted with
  | nil => rfl
  | cons use uses ih =>
      cases sorted with
      | nil => rfl
      | cons wanted sorted =>
          rw [List.map_cons, displaced_cons, List.zip_cons_cons, List.flatMap_cons, ih]
          by_cases same : use.name = wanted.name <;> simp [same]

/-- Of the uses of a file, those that name a file that is there are warned of just where they are
out of order, given the ones that are missing: their names are set against the same names in
ascending order, and the uses that do not have the name in their place are reported, each in its
turn. Nothing is reported where the names ascend, and else two uses at least. -/
theorem checkUsesOrder_exact (s : Scope) (m : Model) :
    let existing := (m.uses s.self).filter fun use => s.dependencies.has use.name
    ∃ wanted : List String,
      wanted.Perm (existing.map (·.name)) ∧ wanted.Pairwise (· ≤ ·) ∧
      Adds (checkUsesOrder s (missingUses m s) m) ()
        ⟨(displaced Reference.name existing wanted).map fun use =>
          Finding.unsortedUse.diagnostic s.self (.file s.self) use, []⟩ ∧
      (displaced Reference.name existing wanted = [] ↔
        (existing.map (·.name)).Pairwise (· ≤ ·)) ∧
      (displaced Reference.name existing wanted = [] ∨
        2 ≤ (displaced Reference.name existing wanted).length) := by
  intro existing
  let wanted := (existing.mergeSort fun a b => a.name ≤ b.name).map (·.name)
  have perm : wanted.Perm (existing.map (·.name)) := (List.mergeSort_perm _ _).map _
  have sorted : wanted.Pairwise (· ≤ ·) := pairwise_mergeSort_name _
  refine ⟨wanted, perm, sorted, ?_, ?_, displaced_of_perm perm⟩
  · have reports := orderReports_eq s (missingUses m s) m
    rw [existingUses_missingUses] at reports
    rw [← reports]
    exact checkUsesOrder_adds s _ m
  · have length : existing.length = wanted.length := by
      rw [perm.length_eq, List.length_map]
    rw [displaced_eq_nil_iff length]
    constructor
    · intro same
      rw [same]
      exact sorted
    · intro ascending
      exact perm.symm.eq_of_pairwise (fun _ _ _ _ => le_antisymm) ascending sorted

end Order
end DataModel.Resolution
