import DataModel.Path.Fault
import DataModel.Proofs.Text.Coding
import Mathlib.Data.List.Basic
import Mathlib.Data.List.Intervals

/-!
Paths that name something. A path has no fault if its components have none; and if a path has none,
no path on the way to it has.
-/
namespace DataModel
open DataModel.Text

/-- A code that may stand in a name. -/
def IsAllowed (code : Nat) : Prop := (isSurrogate code = true → isByteCode code = true) ∧ code ≠ 0

theorem nameFault?_eq_none {text : String} :
    nameFault? text = none ↔ ∀ code ∈ codes text, IsAllowed code := by
  unfold nameFault? surrogates?
  dsimp only
  cases found : (codes text).findIdx? fun c => isSurrogate c && !isByteCode c with
  | some i =>
      obtain ⟨bound, refused, -⟩ := List.findIdx?_eq_some_iff_getElem.mp found
      rw [Bool.and_eq_true, Bool.not_eq_true'] at refused
      refine ⟨nofun, fun all => ?_⟩
      have allowed := (all _ (List.getElem_mem bound)).1 refused.1
      rw [refused.2] at allowed
      cases allowed
  | none =>
      have surrogates := List.findIdx?_eq_none_iff.mp found
      dsimp only [Option.map_none]
      constructor
      · intro fault code inside
        refine ⟨fun surrogate => ?_, ?_⟩
        · simpa [surrogate] using surrogates code inside
        · rintro rfl
          simp [inside] at fault
      · intro all
        have free : 0 ∉ codes text := fun inside => (all 0 inside).2 rfl
        simp [free]

/-- A name that a disk can hold. -/
structure IsName (name : String) : Prop where
  split : '/' ∉ name.toList
  plain : name ≠ ".."
  paired : isPaired name.toList = true
  allowed : nameFault? name = none
  short : Path.isLongName name = false

namespace Path
variable {p : Path}

/-- A root of slashes. -/
def IsSlashed (p : Path) : Prop := ∀ c ∈ p.root.toList, c = '/'

/-- A path of slashes, double dots and names. -/
structure Proper (p : Path) : Prop where
  root : p.IsSlashed
  parts : ∀ name ∈ p.parts, name = ".." ∨ IsName name

theorem Proper.split (h : p.Proper) : ∀ name ∈ p.parts, '/' ∉ name.toList := by
  intro name inside
  rcases h.parts name inside with rfl | named
  · decide
  · exact named.split

/-- Coded texts whose codes may stand in a name. -/
def IsFine (cs : List Char) : Prop := isPaired cs = true ∧ ∀ code ∈ codesOf cs, IsAllowed code

theorem IsFine.append {cs more : List Char} (h : IsFine cs) (h' : IsFine more) :
    IsFine (cs ++ more) := by
  refine ⟨isPaired_append h.1 h'.1, ?_⟩
  rw [codesOf_append h.1]
  exact List.forall_mem_append.mpr ⟨h.2, h'.2⟩

theorem isFine_slash : IsFine ['/'] := by
  refine ⟨by decide, ?_⟩
  rw [codesOf, List.forall_mem_singleton]
  exact ⟨by decide, by decide⟩

theorem isFine_slashes {cs : List Char} (all : ∀ c ∈ cs, c = '/') : IsFine cs := by
  induction cs with
  | nil => exact ⟨rfl, fun _ inside => absurd inside List.not_mem_nil⟩
  | cons c rest ih =>
      obtain ⟨rfl, later⟩ := List.forall_mem_cons.mp all
      exact isFine_slash.append (ih later)

theorem isFine_name {name : String} (h : IsName name) : IsFine name.toList :=
  ⟨h.paired, nameFault?_eq_none.mp h.allowed⟩

theorem isFine_dots : IsFine "..".toList := by
  refine ⟨by decide, ?_⟩
  rw [show codesOf "..".toList = [46, 46] from by decide]
  intro code inside
  obtain rfl : code = 46 := by simpa using inside
  exact ⟨by decide, by decide⟩

theorem isFine_intercalate {parts : List (List Char)} (all : ∀ part ∈ parts, IsFine part) :
    IsFine (['/'].intercalate parts) := by
  induction parts with
  | nil => exact isFine_slashes (fun _ inside => absurd inside List.not_mem_nil)
  | cons first rest ih =>
      obtain ⟨here, later⟩ := List.forall_mem_cons.mp all
      cases rest with
      | nil => simpa using here
      | cons second rest =>
          rw [List.intercalate_cons_cons]
          exact (here.append isFine_slash).append (ih later)

theorem toList_toString (some' : p.parts ≠ []) :
    p.toString.toList = p.root.toList ++ ['/'].intercalate (p.parts.map String.toList) := by
  have whole : p.toString = p.root ++ "/".intercalate p.parts := by
    rw [toString, List.isEmpty_eq_false_iff.mpr some', Bool.and_false]
    rfl
  rw [whole, String.toList_append, String.toList_intercalate]
  rfl

theorem intercalate_prefix {first : List Char} (parts more : List (List Char)) :
    ['/'].intercalate (first :: parts) <+: ['/'].intercalate (first :: parts ++ more) := by
  induction parts generalizing first with
  | nil =>
      cases more with
      | nil => exact List.prefix_rfl
      | cons second rest =>
          rw [List.cons_append, List.nil_append, List.intercalate_cons_cons,
            List.intercalate_singleton, List.append_assoc]
          exact List.prefix_append _ _
  | cons second parts ih =>
      rw [List.cons_append, List.cons_append, List.intercalate_cons_cons,
        List.intercalate_cons_cons, List.prefix_append_right_inj]
      exact ih

/-- A path of names has no fault. -/
theorem Proper.nameFault? (h : p.Proper) (some' : p.parts ≠ []) : p.nameFault? = none := by
  have fine : IsFine p.toString.toList := by
    rw [toList_toString some']
    refine (isFine_slashes h.root).append (isFine_intercalate ?_)
    intro part inside
    obtain ⟨name, member, rfl⟩ := List.mem_map.mp inside
    rcases h.parts name member with rfl | named
    · exact isFine_dots
    · exact isFine_name named
  exact nameFault?_eq_none.mpr fine.2

/-- On the way to a path without a fault there is none. -/
theorem firstNameFault?_eq_none (h : p.nameFault? = none) : p.firstNameFault? = none := by
  rw [firstNameFault?, List.findSome?_eq_none_iff]
  intro q inside
  obtain ⟨n, bound, rfl⟩ := List.mem_map.mp inside
  rw [List.mem_range] at bound
  obtain ⟨first, rest, parts⟩ := List.exists_cons_of_length_pos (Nat.zero_lt_of_lt bound)
  have some' : p.parts ≠ [] := parts ▸ List.cons_ne_nil first rest
  have taken : p.parts.take (n + 1) = first :: rest.take n := by
    rw [parts, List.take_succ_cons]
  have text : ({ p with parts := p.parts.take (n + 1) } : Path).toString.toList <+:
      p.toString.toList := by
    rw [toList_toString some', toList_toString (by rw [taken]; exact List.cons_ne_nil _ _),
      List.prefix_append_right_inj]
    dsimp only
    rw [taken, parts]
    have joined : ['/'].intercalate (first.toList :: (rest.take n).map String.toList) <+: _ :=
      intercalate_prefix _ ((rest.drop n).map String.toList)
    rwa [List.cons_append, ← List.map_append, List.take_append_drop] at joined
  obtain ⟨more, whole⟩ := text
  refine nameFault?_eq_none.mpr fun code inside => ?_
  rcases mem_codesOf_append inside more with there | rfl
  · rw [whole] at there
    exact nameFault?_eq_none.mp h code there
  · exact ⟨by decide, by decide⟩

end Path
end DataModel
