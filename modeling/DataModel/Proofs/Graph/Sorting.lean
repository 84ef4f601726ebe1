import Mathlib.Data.List.Chain
import Mathlib.Data.List.Nodup
import Mathlib.Data.List.Perm.Subperm
import DataModel.Model.Graph

/-!
Sorting by dependencies. A sort that succeeds lists every member once, behind the members it
depends on; one that fails gives a circle of dependencies, which meets no member twice but the one
that closes it. So a sort succeeds exactly if some rank falls along every dependency, and exactly if
there is no circle.
-/
namespace DataModel.Graph
variable {α : Type}

/-- A list of members without repetition in which each comes after the members it depends on. -/
structure Sorted (deps : α → List α) (members sorted : List α) : Prop where
  once : sorted.Nodup
  known : ∀ x ∈ sorted, x ∈ members
  behind : ∀ before x after, sorted = before ++ x :: after →
    ∀ d ∈ deps x, d ∈ members → d ∈ before

/-- A walk along dependencies between members that comes back to its start. -/
structure IsCircle (deps : α → List α) (members circle : List α) : Prop where
  closed : ∃ x inner, circle = x :: inner ++ [x]
  known : ∀ x ∈ circle, x ∈ members
  steps : circle.IsChain fun a b => b ∈ deps a

/-- A rank falls along the dependencies between members. -/
def Falls (deps : α → List α) (members : List α) (rank : α → Nat) : Prop :=
  ∀ x ∈ members, ∀ d ∈ deps x, d ∈ members → rank d < rank x

theorem Sorted.nil (deps : α → List α) (members : List α) : Sorted deps members [] := by
  refine ⟨List.nodup_nil, fun x h => absurd h List.not_mem_nil, ?_⟩
  intro before x after h
  cases before <;> cases h

theorem Sorted.snoc {deps : α → List α} {members sorted : List α} {x : α}
    (h : Sorted deps members sorted) (new : x ∉ sorted) (known : x ∈ members)
    (done : ∀ d ∈ deps x, d ∈ members → d ∈ sorted) : Sorted deps members (sorted ++ [x]) := by
  refine ⟨?_, ?_, ?_⟩
  · exact List.Nodup.append h.once (List.nodup_singleton x) (by simpa using new)
  · intro y hy
    rcases List.mem_append.mp hy with old | here
    · exact h.known y old
    · exact List.mem_singleton.mp here ▸ known
  · intro before y after split d hd member
    rcases List.eq_nil_or_concat after with rfl | ⟨after', z, rfl⟩
    · obtain ⟨same, last⟩ := List.append_inj' split rfl
      cases last
      exact same ▸ done d hd member
    · rw [List.concat_eq_append, ← List.cons_append, ← List.append_assoc] at split
      obtain ⟨same, -⟩ := List.append_inj' split rfl
      exact h.behind before y after' same d hd member

section Visiting
variable [DecidableEq α] (deps : α → List α) (members : List α)

/-- The path on which an element is visited, innermost first: members, each a dependency of the
next, none twice and none sorted yet. -/
structure OnPath (sorted path : List α) : Prop where
  once : path.Nodup
  known : ∀ x ∈ path, x ∈ members
  steps : path.IsChain fun a b => a ∈ deps b
  apart : ∀ x ∈ path, x ∉ sorted

/-- What a visit gives: a longer sorted list with the wanted elements in it and nothing of the
path, or else a circle. -/
inductive Visited (sorted path : List α) (wanted : α → Prop) :
    Except (List α) (List α) → Prop
  | done {out : List α} (kept : ∀ x ∈ sorted, x ∈ out) (sound : Sorted deps members out)
      (apart : ∀ x ∈ path, x ∉ out) (has : ∀ x, wanted x → x ∈ out) :
      Visited sorted path wanted (.ok out)
  | failed {circle : List α} (h : IsCircle deps members circle) :
      Visited sorted path wanted (.error circle)

variable {deps members}

/-- Closing a path with one of its elements goes back to where that was met last. -/
theorem closing_append {inside outside : List α} {d : α} (new : d ∉ outside) :
    closing (inside ++ d :: outside) d = d :: (inside.reverse ++ [d]) := by
  have away : ∀ a ∈ outside.reverse, (a != d) = true := by
    intro a ha
    rw [bne_iff_ne]
    rintro rfl
    exact new (List.mem_reverse.mp ha)
  rw [closing, List.reverse_append, List.reverse_cons, List.append_assoc,
    List.dropWhile_append_of_pos away]
  simp

/-- Meeting an element of the path closes a circle. -/
theorem isCircle_closing {sorted path : List α} {x d : α}
    (h : OnPath deps members sorted (x :: path)) (hd : d ∈ deps x) (met : d ∈ x :: path) :
    IsCircle deps members (closing (x :: path) d) := by
  obtain ⟨inside, outside, split⟩ := List.append_of_mem met
  have fresh : d ∉ outside := by
    intro twice
    have once := h.once
    rw [split] at once
    exact (List.nodup_cons.mp (List.nodup_append.mp once).2.1).1 twice
  have same : closing (x :: path) d = d :: inside.reverse ++ [d] := by
    rw [split, closing_append fresh, List.cons_append]
  rw [same]
  have steps : (inside ++ d :: outside).IsChain fun a b => a ∈ deps b := split ▸ h.steps
  refine ⟨⟨d, _, rfl⟩, ?_, ?_⟩
  · intro a ha
    have inPath : a ∈ x :: path := by
      rw [split]
      simp only [List.cons_append, List.mem_cons, List.mem_append, List.mem_reverse,
        List.not_mem_nil, or_false] at ha ⊢
      tauto
    exact h.known a inPath
  · have closed : (d :: (inside ++ [d])).IsChain fun a b => a ∈ deps b := by
      refine List.isChain_cons.mpr ⟨?_, ?_⟩
      · intro a ha
        cases inside with
        | nil =>
            cases split
            simp only [List.nil_append, List.head?_cons, Option.mem_some_iff] at ha
            exact ha ▸ hd
        | cons i rest =>
            rw [List.cons_append, List.cons.injEq] at split
            simp only [List.cons_append, List.head?_cons, Option.mem_some_iff] at ha
            rw [← ha, ← split.1]
            exact hd
      · rw [List.append_cons] at steps
        exact steps.left_of_append
    have turned := List.isChain_reverse.mpr closed
    simpa [flip] using turned

omit [DecidableEq α] in
theorem Visited.mono {sorted path : List α} {wanted wanted' : α → Prop}
    {r : Except (List α) (List α)} (h : Visited deps members sorted path wanted r)
    (fewer : ∀ x, wanted' x → wanted x) : Visited deps members sorted path wanted' r := by
  cases h with
  | done kept sound apart has => exact .done kept sound apart fun x hx => has x (fewer x hx)
  | failed circle => exact .failed circle

omit [DecidableEq α] in
theorem Visited.andThen {sorted path : List α} {wanted wanted' : α → Prop}
    {r : Except (List α) (List α)} {next : List α → Except (List α) (List α)}
    (h : Visited deps members sorted path wanted r)
    (after : ∀ out, Sorted deps members out → (∀ x ∈ path, x ∉ out) →
      Visited deps members out path wanted' (next out)) :
    Visited deps members sorted path (fun x => wanted x ∨ wanted' x) (r >>= next) := by
  cases h with
  | failed circle => exact .failed circle
  | done kept sound apart has =>
      rename_i out
      have visited := after out sound apart
      change Visited _ _ _ _ _ (next out)
      generalize next out = r at visited ⊢
      cases visited with
      | failed circle => exact .failed circle
      | done kept' sound' apart' has' =>
          refine .done (fun x hx => kept' x (kept x hx)) sound' apart' ?_
          rintro x (early | late)
          · exact kept' x (has x early)
          · exact has' x late

/-- The elements that a visit goes through: `path` leads to an element whose dependencies `ds`
are visited one after the other. -/
theorem visits_spec (fuel : Nat) (path : List α) (x : α) (ds sorted : List α)
    (step : ∀ sorted d, Sorted deps members sorted → OnPath deps members sorted (d :: x :: path) →
      Visited deps members sorted (x :: path) (· = d)
        (visit deps members fuel (x :: path) sorted d))
    (sub : ∀ d ∈ ds, d ∈ deps x) (sound : Sorted deps members sorted)
    (on : OnPath deps members sorted (x :: path)) :
    Visited deps members sorted (x :: path) (fun d => d ∈ ds ∧ d ∈ members)
      (ds.foldlM (fun sorted d =>
        if !members.contains d || sorted.contains d then .ok sorted
        else if (x :: path).contains d then .error (closing (x :: path) d)
        else visit deps members fuel (x :: path) sorted d) sorted) := by
  induction ds generalizing sorted with
  | nil => exact .done (fun y h => h) sound on.apart (fun y h => absurd h.1 List.not_mem_nil)
  | cons d ds ih =>
      rw [List.foldlM_cons]
      have first : Visited deps members sorted (x :: path) (fun y => y = d ∧ y ∈ members)
          (if !members.contains d || sorted.contains d then .ok sorted
            else if (x :: path).contains d then .error (closing (x :: path) d)
            else visit deps members fuel (x :: path) sorted d) := by
        by_cases skipped : d ∈ members → d ∈ sorted
        · have test : (!members.contains d || sorted.contains d) = true := by
            by_cases member : d ∈ members
            · simp [skipped member]
            · simp [member]
          rw [if_pos test]
          refine .done (fun y h => h) sound on.apart ?_
          rintro y ⟨rfl, member⟩
          exact skipped member
        · obtain ⟨member, new⟩ := Classical.not_imp.mp skipped
          rw [if_neg (by simp [member, new])]
          by_cases met : d ∈ x :: path
          · rw [if_pos (by simpa using met)]
            exact .failed (isCircle_closing on (sub d List.mem_cons_self) met)
          · rw [if_neg (by simpa using met)]
            refine (step sorted d sound ⟨List.nodup_cons.mpr ⟨met, on.once⟩, ?_, ?_, ?_⟩).mono
              fun y h => h.1
            · exact List.forall_mem_cons.mpr ⟨member, on.known⟩
            · exact List.isChain_cons_cons.mpr ⟨sub d List.mem_cons_self, on.steps⟩
            · exact List.forall_mem_cons.mpr ⟨new, on.apart⟩
      refine (first.andThen fun out sound' apart =>
        ih out (fun e he => sub e (List.mem_cons_of_mem d he)) sound'
          ⟨on.once, on.known, on.steps, apart⟩).mono ?_
      rintro y ⟨hy, member⟩
      rcases List.mem_cons.mp hy with rfl | later
      · exact .inl ⟨rfl, member⟩
      · exact .inr ⟨later, member⟩

/-- The fuel of a visit bounds the path, which holds no member twice. -/
theorem visit_spec (fuel : Nat) (path sorted : List α) (x : α)
    (enough : members.length < fuel + path.length) (sound : Sorted deps members sorted)
    (on : OnPath deps members sorted (x :: path)) :
    Visited deps members sorted path (· = x) (visit deps members fuel path sorted x) := by
  induction fuel generalizing path sorted x with
  | zero =>
      have fits := (on.once.subperm on.known).length_le
      rw [List.length_cons] at fits
      omega
  | succ fuel ih =>
      rw [visit]
      have all := visits_spec fuel path x (deps x) sorted
        (fun sorted d sound on => ih (x :: path) sorted d (by rw [List.length_cons]; omega) sound on)
        (fun d h => h) sound on
      generalize ((deps x).foldlM _ sorted : Except (List α) (List α)) = r at all ⊢
      cases all with
      | failed circle => exact .failed circle
      | done kept sound' apart has =>
          have new := apart x List.mem_cons_self
          refine .done (fun y h => List.mem_append_left _ (kept y h)) ?_ ?_ ?_
          · exact sound'.snoc new (on.known x List.mem_cons_self) fun d hd member =>
              has d ⟨hd, member⟩
          · intro y hy later
            rcases List.mem_append.mp later with early | here
            · exact apart y (List.mem_cons_of_mem x hy) early
            · rw [List.mem_singleton] at here
              exact (List.nodup_cons.mp on.once).1 (here ▸ hy)
          · rintro y rfl
            exact List.mem_append_right _ (List.mem_singleton.mpr rfl)

end Visiting

section Sorting
variable [DecidableEq α] {deps : α → List α} {members : List α}

/-- The turns of a sort for some of the members, one after the other. -/
def turns (deps : α → List α) (members xs sorted : List α) : Except (List α) (List α) :=
  xs.foldlM (fun sorted x =>
    if sorted.contains x then .ok sorted
    else visit deps members (members.length + 1) [] sorted x) sorted

theorem sort_eq_turns (deps : α → List α) (members : List α) :
    sort deps members = turns deps members members [] := rfl

theorem turns_spec (xs sorted : List α) (known : ∀ x ∈ xs, x ∈ members)
    (sound : Sorted deps members sorted) :
    Visited deps members sorted [] (· ∈ xs) (turns deps members xs sorted) := by
  induction xs generalizing sorted with
  | nil =>
      exact .done (fun y h => h) sound (fun y h => absurd h List.not_mem_nil)
        (fun y h => absurd h List.not_mem_nil)
  | cons x xs ih =>
      rw [turns, List.foldlM_cons]
      have first : Visited deps members sorted [] (· = x)
          (if sorted.contains x then .ok sorted
            else visit deps members (members.length + 1) [] sorted x) := by
        by_cases old : x ∈ sorted
        · rw [if_pos (by simpa using old)]
          refine .done (fun y h => h) sound (fun y h => absurd h List.not_mem_nil) ?_
          rintro y rfl
          exact old
        · rw [if_neg (by simpa using old)]
          exact visit_spec (members.length + 1) [] sorted x (by simp) sound
            ⟨List.nodup_singleton x, by simpa using known x List.mem_cons_self,
              List.isChain_singleton x, by simpa using old⟩
      refine (first.andThen fun out sound' _ =>
        ih out (fun y hy => known y (List.mem_cons_of_mem x hy)) sound').mono ?_
      intro y hy
      exact List.mem_cons.mp hy

theorem sort_spec (deps : α → List α) (members : List α) :
    Visited deps members [] [] (· ∈ members) (sort deps members) :=
  turns_spec members [] (fun _ h => h) (.nil deps members)

theorem sort_sorted {sorted : List α} (h : sort deps members = .ok sorted) :
    Sorted deps members sorted := by
  have spec := sort_spec deps members
  rw [h] at spec
  cases spec with
  | done kept sound apart has => exact sound

theorem mem_sort {sorted : List α} (h : sort deps members = .ok sorted) {x : α} :
    x ∈ sorted ↔ x ∈ members := by
  have spec := sort_spec deps members
  rw [h] at spec
  cases spec with
  | done kept sound apart has => exact ⟨sound.known x, has x⟩

theorem sort_circle {circle : List α} (h : sort deps members = .error circle) :
    IsCircle deps members circle := by
  have spec := sort_spec deps members
  rw [h] at spec
  cases spec with
  | failed circle => exact circle

/-- The place in a sorted list falls along dependencies. -/
theorem Sorted.falls {sorted : List α} (h : Sorted deps members sorted)
    (all : ∀ x ∈ members, x ∈ sorted) : Falls deps members (sorted.idxOf ·) := by
  intro x hx d hd member
  obtain ⟨before, after, split⟩ := List.append_of_mem (all x hx)
  have early := h.behind before x after split d hd member
  have new : x ∉ before := by
    have once := h.once
    rw [split] at once
    intro twice
    exact (List.nodup_append.mp once).2.2 x twice x List.mem_cons_self rfl
  have place : sorted.idxOf x = before.length := by
    rw [split, List.idxOf_append_of_notMem new, List.idxOf_cons_self, Nat.add_zero]
  have earlier : sorted.idxOf d < before.length := by
    rw [split, List.idxOf_append_of_mem early]
    exact List.idxOf_lt_length_of_mem early
  show sorted.idxOf d < sorted.idxOf x
  rw [place]
  exact earlier

omit [DecidableEq α] in
/-- Along a circle no rank falls. -/
theorem IsCircle.not_falls {circle : List α} (h : IsCircle deps members circle)
    {rank : α → Nat} (falls : Falls deps members rank) : False := by
  obtain ⟨x, inner, rfl⟩ := h.closed
  have down : ∀ (ys : List α) (y : α), (∀ z ∈ y :: ys, z ∈ members) →
      (y :: ys).IsChain (fun a b => b ∈ deps a) → ∀ z ∈ ys, rank z < rank y := by
    intro ys
    induction ys with
    | nil => exact fun _ _ _ z hz => absurd hz List.not_mem_nil
    | cons w ys ih =>
        intro y known chain z hz
        obtain ⟨step, rest⟩ := List.isChain_cons_cons.mp chain
        have first : rank w < rank y :=
          falls y (known y List.mem_cons_self) w step
            (known w (List.mem_cons_of_mem _ List.mem_cons_self))
        rcases List.mem_cons.mp hz with rfl | later
        · exact first
        · exact Nat.lt_trans (ih w (fun v hv => known v (List.mem_cons_of_mem _ hv)) rest z later) first
  exact Nat.lt_irrefl _ (down (inner ++ [x]) x h.known h.steps x (by simp))

theorem sort_of_falls {rank : α → Nat} (falls : Falls deps members rank) :
    ∃ sorted, sort deps members = .ok sorted := by
  cases h : sort deps members with
  | ok sorted => exact ⟨sorted, rfl⟩
  | error circle => exact ((sort_circle h).not_falls falls).elim

/-- Sorting fails if and only if there is a circle. -/
theorem sort_fails_iff : (∃ circle, sort deps members = .error circle) ↔
    ∃ circle, IsCircle deps members circle := by
  constructor
  · rintro ⟨circle, h⟩
    exact ⟨circle, sort_circle h⟩
  · rintro ⟨circle, round⟩
    cases h : sort deps members with
    | error circle => exact ⟨circle, rfl⟩
    | ok sorted =>
        exact (round.not_falls ((sort_sorted h).falls fun x hx => (mem_sort h).mpr hx)).elim

end Sorting

section Circles
variable [DecidableEq α] {deps : α → List α} {members : List α}

/-- A path without repetition is closed without one. -/
theorem nodup_closing {path : List α} (once : path.Nodup) {d : α} (met : d ∈ path) :
    (closing path d).tail.Nodup := by
  obtain ⟨inside, outside, rfl⟩ := List.append_of_mem met
  obtain ⟨onceInside, onceRest, apart⟩ := List.nodup_append.mp once
  have new : d ∉ outside := (List.nodup_cons.mp onceRest).1
  rw [closing_append new, List.tail_cons]
  refine List.nodup_append.mpr ⟨List.nodup_reverse.mpr onceInside, List.nodup_singleton d, ?_⟩
  intro a ha b hb
  rw [List.mem_singleton.mp hb]
  exact apart a (List.mem_reverse.mp ha) d List.mem_cons_self

omit [DecidableEq α] in
/-- A loop that fails does so at one of its turns. -/
theorem foldlM_error {β ε : Type} {f : β → α → Except ε β} {xs : List α} {b : β} {e : ε}
    (failed : xs.foldlM f b = .error e) : ∃ x ∈ xs, ∃ b, f b x = .error e := by
  induction xs generalizing b with
  | nil => cases failed
  | cons x xs ih =>
      rw [List.foldlM_cons] at failed
      cases first : f b x with
      | error e' =>
          rw [first] at failed
          cases failed
          exact ⟨x, List.mem_cons_self, b, first⟩
      | ok b' =>
          rw [first] at failed
          obtain ⟨y, hy, b'', at'⟩ := ih failed
          exact ⟨y, List.mem_cons_of_mem x hy, b'', at'⟩

/-- A visit along a path without repetition fails with a circle without one. -/
theorem visit_once {fuel : Nat} {path sorted circle : List α} {x : α} (once : (x :: path).Nodup)
    (failed : visit deps members fuel path sorted x = .error circle) : circle.tail.Nodup := by
  induction fuel generalizing path sorted x with
  | zero => cases failed
  | succ fuel ih =>
      rw [visit] at failed
      generalize loop : ((deps x).foldlM _ sorted : Except (List α) (List α)) = r at failed
      cases r with
      | ok out => cases failed
      | error c =>
          cases failed
          obtain ⟨d, -, sorted', turn⟩ := foldlM_error loop
          split at turn
          · cases turn
          · split at turn
            · next met =>
              cases turn
              exact nodup_closing once (by simpa using met)
            · next new => exact ih (List.nodup_cons.mpr ⟨by simpa using new, once⟩) turn

theorem sort_once {circle : List α} (failed : sort deps members = .error circle) :
    circle.tail.Nodup := by
  obtain ⟨x, -, sorted, turn⟩ := foldlM_error failed
  split at turn
  · cases turn
  · exact visit_once (List.nodup_singleton x) turn

theorem sort_perm {sorted : List α} (once : members.Nodup) (h : sort deps members = .ok sorted) :
    sorted.Perm members :=
  (List.perm_ext_iff_of_nodup (sort_sorted h).once once).mpr fun _ => mem_sort h

end Circles

section Versions
variable {m : Model} {deps : VersionId → List VersionId} {members : List VersionId}

/-- Every dependency between members is the file that some use names. -/
def ByUses (m : Model) (deps : VersionId → List VersionId) (members : List VersionId) : Prop :=
  ∀ x ∈ members, ∀ d ∈ deps x, d ∈ members → ∃ use ∈ m.uses x, use.name = m.fileName d

/-- What is told of a circle: its files in the order of their dependencies, none twice but the
first one, which comes again at the end, and at that one its first use of the second. -/
structure TellsCircle (m : Model) (deps : VersionId → List VersionId) (members : List VersionId)
    (c : Circle) : Prop where
  circle : IsCircle deps members c.versions
  once : c.versions.tail.Nodup
  names : c.names = c.versions.map m.fileName
  distinct : (members.map m.fileName).Nodup → c.names.tail.Nodup
  diagnostic : ∃ first second rest use, c.versions = first :: second :: rest ∧
    c.diagnostic =
      some ((Finding.circularDependency c.names).diagnostic first (.file first) use) ∧
    (ByUses m deps members → (members.map m.fileName).Nodup →
      ∃ before named after, use = some named ∧ m.uses first = before ++ named :: after ∧
        (∀ u ∈ before, u.name ≠ m.fileName second) ∧
        ∀ w ∈ members, m.fileName w = named.name ↔ w = second)

/-- The first entry that passes a test stands behind entries that do not. -/
theorem find?_split {β : Type} (test : β → Bool) {xs : List β} {x : β} (member : x ∈ xs)
    (passes : test x = true) : ∃ before y after, xs.find? test = some y ∧
      xs = before ++ y :: after ∧ test y = true ∧ ∀ z ∈ before, test z = false := by
  cases found : xs.find? test with
  | none => exact absurd passes (List.find?_eq_none.mp found x member)
  | some y =>
      obtain ⟨test', before, after, split, early⟩ := List.find?_eq_some_iff_append.mp found
      exact ⟨before, y, after, rfl, split, test', fun z hz => by simpa using early z hz⟩

theorem IsCircle.tells {circle : List VersionId} (h : IsCircle deps members circle)
    (once : circle.tail.Nodup) :
    TellsCircle m deps members ⟨circle, circle.map m.fileName, circleDiagnostic m circle⟩ := by
  refine ⟨h, once, rfl, fun distinct => ?_, ?_⟩
  · rw [← List.map_tail]
    refine List.Nodup.map_on (fun a ha b hb same => ?_) once
    exact List.inj_on_of_nodup_map distinct (h.known a (List.mem_of_mem_tail ha))
      (h.known b (List.mem_of_mem_tail hb)) same
  · obtain ⟨first, inner, rfl⟩ := h.closed
    -- a circle of one file goes back to it at once
    obtain ⟨second, rest, split⟩ : ∃ second rest, inner ++ [first] = second :: rest := by
      cases inner with
      | nil => exact ⟨first, [], rfl⟩
      | cons i inner => exact ⟨i, inner ++ [first], rfl⟩
    have whole : first :: inner ++ [first] = first :: second :: rest :=
      congrArg (first :: ·) split
    have known := h.known
    have steps := h.steps
    rw [whole] at known steps ⊢
    refine ⟨first, second, rest, _, rfl, rfl, fun byUses distinct => ?_⟩
    have step : second ∈ deps first := (List.isChain_cons_cons.mp steps).1
    have inside : second ∈ members := known second (List.mem_cons_of_mem _ List.mem_cons_self)
    obtain ⟨use, member, named⟩ :=
      byUses first (known first List.mem_cons_self) second step inside
    obtain ⟨before, y, after, found, split', passes, early⟩ :=
      find?_split (fun u => some (m.fileName second) == some u.name) member
        (by simp [named])
    have same : m.fileName second = y.name := by simpa using passes
    refine ⟨before, y, after, found, split', fun u hu => ?_, fun w hw => ?_⟩
    · have other := early u hu
      exact fun same => by simp [same] at other
    · rw [← same]
      exact ⟨fun named => List.inj_on_of_nodup_map distinct hw inside named, congrArg m.fileName⟩

/-- Sorting versions puts each behind its dependencies if they form no circle, and else tells one
that they form. -/
theorem sortVersions_decides (deps : VersionId → List VersionId) (once : members.Nodup) :
    ((¬ ∃ circle, IsCircle deps members circle) → ∃ sorted,
        sortVersions m deps members = .ok sorted ∧ sorted.Perm members ∧
          Sorted deps members sorted) ∧
      ((∃ circle, IsCircle deps members circle) → ∃ c,
        sortVersions m deps members = .error c ∧ TellsCircle m deps members c) := by
  refine ⟨fun free => ?_, fun round => ?_⟩
  · cases h : sort deps members with
    | error circle => exact absurd ⟨circle, sort_circle h⟩ free
    | ok sorted =>
        refine ⟨sorted, ?_, sort_perm once h, sort_sorted h⟩
        rw [sortVersions, h]
        rfl
  · obtain ⟨circle, h⟩ := sort_fails_iff.mpr round
    refine ⟨_, ?_, (sort_circle h).tells (sort_once h)⟩
    rw [sortVersions, h]
    rfl

/-- A file that only uses others. -/
def importer (name : String) (uses : List Reference) : ModelFile :=
  { name, path := "/model/" ++ name ++ ".tmd", module := "M", source := "", tags := [], uses,
    domains := [], decorators := [], classes := [], endpoints := [], aliases := [] }

/-- Four files, the last three of which use each other in a circle. -/
def looped : Model :=
  ⟨#[.fresh 0 (importer "A" [⟨"B", 2, 7⟩]), .fresh 1 (importer "B" [⟨"X", 2, 7⟩, ⟨"C", 2, 10⟩]),
    .fresh 2 (importer "C" [⟨"D", 2, 7⟩]), .fresh 3 (importer "D" [⟨"B", 2, 7⟩])]⟩

/-- The files that the uses of a file name. -/
def loopedDeps (v : VersionId) : List VersionId :=
  (looped.uses v).filterMap fun u => [0, 1, 2, 3].find? (looped.fileName · == u.name)

theorem byUses_looped (members : List VersionId) : ByUses looped loopedDeps members := by
  intro x _ d hd _
  obtain ⟨use, member, found⟩ := List.mem_filterMap.mp hd
  have named : (looped.fileName d == use.name) = true := by simpa using List.find?_some found
  exact ⟨use, member, (beq_iff_eq.mp named).symm⟩

theorem sortVersions_decides_looped :
    ([0, 1, 2, 3] : List VersionId).Nodup ∧
      (∃ c, sortVersions looped loopedDeps [0, 1, 2, 3] = .error c ∧
        c.names = ["B", "C", "D", "B"] ∧ (c.diagnostic.bind (·.reference)) = some ⟨"C", 2, 10⟩ ∧
        ByUses looped loopedDeps [0, 1, 2, 3] ∧
        TellsCircle looped loopedDeps [0, 1, 2, 3] c) ∧
      ∃ sorted, sortVersions looped loopedDeps [0, 3, 1] = .ok sorted ∧
        sorted.Perm [0, 3, 1] ∧ Sorted loopedDeps [0, 3, 1] sorted := by
  have once : ([0, 1, 2, 3] : List VersionId).Nodup := by decide
  have run : sort loopedDeps [0, 1, 2, 3] = .error [1, 2, 3, 1] := by with_unfolding_all rfl
  have part : sort loopedDeps [0, 3, 1] = .ok [1, 0, 3] := by with_unfolding_all rfl
  refine ⟨once, ?_, ?_⟩
  · obtain ⟨c, failed, tells⟩ := (sortVersions_decides (m := looped) loopedDeps once).2
      (sort_fails_iff.mp ⟨_, run⟩)
    refine ⟨c, failed, ?_, ?_, byUses_looped _, tells⟩
    · rw [sortVersions, run] at failed
      cases failed
      rfl
    · rw [sortVersions, run] at failed
      cases failed
      with_unfolding_all rfl
  · refine (sortVersions_decides (m := looped) loopedDeps (by decide)).1 fun round => ?_
    obtain ⟨circle, failed⟩ := sort_fails_iff.mpr round
    rw [part] at failed
    cases failed

end Versions
end DataModel.Graph
