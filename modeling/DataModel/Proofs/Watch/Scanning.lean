import Mathlib
import DataModel.Proofs.FileTree.Walking
import DataModel.Watch.FileWatcher

/-!
What two scans differ in. A scan has one stamp for every path, so the paths that a poll tells are
just those that look different from before: new, gone, or with another stamp.
-/
namespace DataModel.FileWatcher
variable {t : FileTree} {root p : Path} {found seen : List (Path × Stamp)} {w : FileWatcher}

section Scans

/-- Each path has the stamp with which it is looked up. -/
def OneEach (found : List (Path × Stamp)) : Prop :=
  ∀ p stamp, (p, stamp) ∈ found → found.lookup p = some stamp

theorem oneEach_of_stamp (stamped : ∀ p stamp, (p, stamp) ∈ found → t.stamp p = .ok stamp) :
    OneEach found := by
  intro p stamp member
  cases here : found.lookup p with
  | none =>
      have absent := List.lookup_eq_none_iff.mp here (p, stamp) member
      simp at absent
  | some other =>
      obtain ⟨before, after, whole, -⟩ := List.lookup_eq_some_iff.mp here
      have also := stamped p other (whole ▸ List.mem_append_right _ List.mem_cons_self)
      rw [stamped p stamp member] at also
      cases also
      rfl

theorem exists_of_mapM {α β ε : Type} {f : α → Except ε β} {xs : List α} {ys : List β}
    (ok : xs.mapM f = .ok ys) {y : β} (member : y ∈ ys) : ∃ x ∈ xs, f x = .ok y := by
  induction xs generalizing ys with
  | nil =>
      cases ok
      cases member
  | cons x rest ih =>
      rw [List.mapM_cons] at ok
      obtain ⟨first, made, ok⟩ := ok_of_bind ok
      obtain ⟨others, rest', ok⟩ := ok_of_bind ok
      cases ok
      rcases List.mem_cons.mp member with rfl | inside
      · exact ⟨x, List.mem_cons_self, made⟩
      · obtain ⟨x', inside', made'⟩ := ih rest' inside
        exact ⟨x', List.mem_cons_of_mem _ inside', made'⟩

/-- What a scan found has the stamp that the tree has for it. -/
theorem scan_stamp (ok : scan t root = .ok found) :
    ∀ p stamp, (p, stamp) ∈ found → t.stamp p = .ok stamp := by
  intro p stamp member
  rw [scan] at ok
  obtain ⟨files, -, ok⟩ := ok_of_bind ok
  obtain ⟨looked, mapped, ok⟩ := ok_of_bind ok
  cases ok
  obtain ⟨_, inside, rfl⟩ := List.mem_filterMap.mp member
  obtain ⟨p', -, made⟩ := exists_of_mapM mapped inside
  cases stamped : t.stamp p' with
  | ok stamp' =>
      rw [stamped] at made
      cases made
      exact stamped
  | error f =>
      rw [stamped] at made
      dsimp only at made
      split at made
      · cases made
      · cases made

theorem scan_oneEach (ok : scan t root = .ok found) : OneEach found :=
  oneEach_of_stamp (scan_stamp ok)

end Scans

/-- A poll tells what is different now, and remembers what is there. -/
theorem poll_eq (w : FileWatcher) (t : FileTree) : w.poll t =
    match scan t w.root with
    | .error f => .error f
    | .ok found => .ok (differences w.seen found, { w with seen := found }) := by
  rw [poll]
  cases scan t w.root with
  | error f => rfl
  | ok found => rfl

/-- The differences are the paths that look different before and after. -/
theorem mem_differences (once : OneEach found) :
    p ∈ differences seen found ↔ seen.lookup p ≠ found.lookup p := by
  rw [differences, List.mem_mergeSort, List.mem_append]
  constructor
  · rintro (changed | gone)
    · obtain ⟨⟨_, stamp⟩, inside, rfl⟩ := List.mem_map.mp changed
      obtain ⟨member, other⟩ := List.mem_filter.mp inside
      rw [once _ _ member]
      exact bne_iff_ne.mp other
    · obtain ⟨before, none'⟩ := List.mem_filter.mp gone
      rw [Option.isNone_iff_eq_none.mp none']
      intro absent
      obtain ⟨⟨_, stamp⟩, inside, rfl⟩ := List.mem_map.mp before
      have nowhere := List.lookup_eq_none_iff.mp absent _ inside
      simp at nowhere
  · intro differ
    cases here : found.lookup p with
    | some stamp =>
        obtain ⟨before, after, whole, -⟩ := List.lookup_eq_some_iff.mp here
        have member : (p, stamp) ∈ found := whole ▸ List.mem_append_right _ List.mem_cons_self
        refine .inl (List.mem_map.mpr ⟨(p, stamp), List.mem_filter.mpr ⟨member, ?_⟩, rfl⟩)
        exact bne_iff_ne.mpr (here ▸ differ)
    | none =>
        obtain ⟨stamp, there⟩ := Option.ne_none_iff_exists'.mp (here ▸ differ)
        obtain ⟨before, after, whole, -⟩ := List.lookup_eq_some_iff.mp there
        have member : (p, stamp) ∈ seen := whole ▸ List.mem_append_right _ List.mem_cons_self
        refine .inr (List.mem_filter.mpr ⟨List.mem_map.mpr ⟨_, member, rfl⟩, ?_⟩)
        rw [here]
        rfl

end DataModel.FileWatcher
