import DataModel.Proofs.Configuration
import DataModel.Proofs.FileTree.Standing

/-!
Paths as texts spell them. The components between the slashes of a text are put together again by
slashes, and components that say something are found again when their text is taken apart.
-/
namespace DataModel
open DataModel.Text

/-- A component as it stands between the slashes of a text. -/
structure IsComponent (name : String) : Prop where
  some' : name ≠ ""
  other : name ≠ "."
  split : '/' ∉ name.toList
  coded : IsCoded name.toList

namespace Path
variable {p : Path} {parts : List (List Char)}

/-- A path as a text can spell it. -/
structure Spelt (p : Path) : Prop where
  root : p.IsSlashed
  parts : ∀ name ∈ p.parts, IsComponent name

section Splitting

theorem splitSlashes_ne_nil (cs : List Char) : splitSlashes cs ≠ [] := by
  cases cs with
  | nil => exact List.cons_ne_nil _ _
  | cons c cs =>
      rw [splitSlashes]
      split
      · exact List.cons_ne_nil _ _
      · split <;> exact List.cons_ne_nil _ _

theorem splitSlashes_whole {part : List Char} (split : '/' ∉ part) : splitSlashes part = [part] := by
  induction part with
  | nil => rfl
  | cons c part ih =>
      rw [List.mem_cons, not_or] at split
      rw [splitSlashes, ih split.2]
      dsimp only
      rw [if_neg (by simpa using Ne.symm split.1)]

theorem splitSlashes_append {part : List Char} (split : '/' ∉ part) (cs : List Char) :
    splitSlashes (part ++ '/' :: cs) = part :: splitSlashes cs := by
  obtain ⟨first, rest, found⟩ := List.exists_cons_of_ne_nil (splitSlashes_ne_nil cs)
  induction part with
  | nil =>
      rw [List.nil_append, splitSlashes, found]
      rfl
  | cons c part ih =>
      rw [List.mem_cons, not_or] at split
      rw [List.cons_append, splitSlashes, ih split.2]
      dsimp only
      rw [if_neg (by simpa using Ne.symm split.1)]

/-- Components that are joined by slashes are found again. -/
theorem splitSlashes_intercalate (some' : parts ≠ []) (split : ∀ part ∈ parts, '/' ∉ part) :
    splitSlashes (['/'].intercalate parts) = parts := by
  induction parts with
  | nil => exact absurd rfl some'
  | cons first rest ih =>
      obtain ⟨here, later⟩ := List.forall_mem_cons.mp split
      cases rest with
      | nil =>
          rw [List.intercalate_singleton]
          exact splitSlashes_whole here
      | cons second rest =>
          rw [List.intercalate_cons_cons, List.append_assoc, List.singleton_append,
            splitSlashes_append here, ih (List.cons_ne_nil _ _) later]

/-- What stands between the slashes of a text holds none, and is coded if the text is. -/
theorem mem_splitSlashes {cs part : List Char} (coded : IsCoded cs)
    (member : part ∈ splitSlashes cs) : '/' ∉ part ∧ IsCoded part := by
  induction length : cs.length using Nat.strong_induction_on generalizing cs with
  | h n shorter =>
      by_cases slash : '/' ∈ cs
      · obtain ⟨before, after, rfl, split⟩ := List.eq_append_cons_of_mem slash
        obtain ⟨first, rest⟩ := coded.split
        rw [splitSlashes_append split, List.mem_cons] at member
        rcases member with rfl | later
        · exact ⟨split, first⟩
        · refine shorter after.length ?_ rest later rfl
          rw [← length, List.length_append, List.length_cons]
          omega
      · rw [splitSlashes_whole slash, List.mem_singleton] at member
        subst member
        exact ⟨slash, coded⟩

end Splitting

theorem spelt_ofString {text : String} (coded : IsCoded text.toList) : (ofString text).Spelt := by
  refine ⟨isSlashed_ofString text, fun name member => ?_⟩
  obtain ⟨piece, kept⟩ := List.mem_filter.mp member
  rw [Bool.and_eq_true, bne_iff_ne, bne_iff_ne] at kept
  obtain ⟨part, inside, rfl⟩ := List.mem_map.mp piece
  obtain ⟨split, coded'⟩ := mem_splitSlashes coded inside
  exact ⟨kept.1, kept.2, by rwa [String.toList_ofList], by rwa [String.toList_ofList]⟩

/-- A relative path is what its text spells. -/
theorem ofString_toString {below : List String} (some' : below ≠ [])
    (named : ∀ name ∈ below, IsComponent name) :
    ofString (⟨"", below⟩ : Path).toString = ⟨"", below⟩ := by
  have text : (⟨"", below⟩ : Path).toString.toList = ['/'].intercalate (below.map String.toList) :=
    toList_toString some'
  have parts : splitSlashes (['/'].intercalate (below.map String.toList)) =
      below.map String.toList := by
    refine splitSlashes_intercalate (by simpa using some') fun part inside => ?_
    obtain ⟨name, member, rfl⟩ := List.mem_map.mp inside
    exact (named name member).split
  have root : rootOf (['/'].intercalate (below.map String.toList)) = "" := by
    obtain ⟨first, rest, rfl⟩ := List.exists_cons_of_ne_nil some'
    have component := named first List.mem_cons_self
    obtain ⟨c, cs, letters⟩ := List.exists_cons_of_ne_nil
      (fun none => component.some' (String.toList_eq_nil_iff.mp none))
    have plain : c ≠ '/' := by
      rintro rfl
      exact component.split (letters ▸ List.mem_cons_self)
    have start : ∃ more, ['/'].intercalate ((first :: rest).map String.toList) = c :: more := by
      rw [List.map_cons, letters]
      cases rest with
      | nil => exact ⟨cs, List.intercalate_singleton⟩
      | cons second rest => exact ⟨_, List.intercalate_cons_cons⟩
    obtain ⟨more, start⟩ := start
    rw [start, rootOf, List.takeWhile_cons_of_neg (by simpa using plain)]
  have kept : (below.filter fun p => p != "" && p != ".") = below := by
    refine List.filter_eq_self.mpr fun name member => ?_
    rw [Bool.and_eq_true, bne_iff_ne, bne_iff_ne]
    exact ⟨(named name member).some', (named name member).other⟩
  unfold ofString
  rw [text, parts, root, List.map_map]
  simp only [Function.comp_def, String.ofList_toList, List.map_id', kept]

end Path
end DataModel
