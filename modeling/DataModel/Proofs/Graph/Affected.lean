import Mathlib.Algebra.GroupWithZero.Nat
import Mathlib.Data.List.Basic
import Mathlib.Data.List.Nodup
import Mathlib.Logic.Relation
import DataModel.Model.Graph

/-!
The files that a change affects are closed under use: a file that uses an affected name is
affected too. The fuel of the walk is never used up, since a name is expanded once and so puts
each of its users on the stack once. Nor does the walk come to anything else, so the affected files
are those from which uses lead to a pending name.
-/
namespace DataModel.Graph

/-- The uses whose target was not visited yet. They bound what a walk can still push. -/
def openUses (uses : List (String × List String)) (seen : List String) : Nat :=
  (uses.map fun p => p.2.countP (!seen.contains ·)).sum

theorem countP_visit (used seen : List String) (name : String) (new : name ∉ seen) :
    used.countP (!seen.contains ·) =
      used.countP (!(name :: seen).contains ·) + (used.filter (· == name)).length := by
  induction used with
  | nil => rfl
  | cons u rest ih =>
      rw [List.countP_cons, List.countP_cons, List.filter_cons, ih]
      by_cases same : u = name
      · subst same
        have fresh : (!seen.contains u) = true := by simpa using new
        have visited : (!(u :: seen).contains u) = false := by simp
        rw [if_pos fresh, visited, if_pos (beq_self_eq_true u), List.length_cons]
        simp only [Bool.false_eq_true, ↓reduceIte]
        omega
      · have other : (u == name) = false := beq_false_of_ne same
        have unmoved : (name :: seen).contains u = seen.contains u := by
          rw [List.contains_cons, other, Bool.false_or]
        rw [unmoved, other]
        simp only [Bool.false_eq_true, ↓reduceIte]
        omega

theorem length_dependents (uses : List (String × List String)) (name : String) :
    (dependents uses name).length =
      (uses.map fun p => (p.2.filter (· == name)).length).sum := by
  rw [dependents, List.length_flatMap]
  simp

/-- Visiting a new name closes as many uses as the name has users. -/
theorem openUses_visit (uses : List (String × List String)) (seen : List String) (name : String)
    (new : name ∉ seen) :
    openUses uses seen = openUses uses (name :: seen) + (dependents uses name).length := by
  rw [length_dependents]
  unfold openUses
  induction uses with
  | nil => rfl
  | cons p rest ih =>
      have here := countP_visit p.2 seen name new
      simp only [List.map_cons, List.sum_cons]
      omega

theorem mem_dependents {uses : List (String × List String)} {name file : String} :
    file ∈ dependents uses name ↔ ∃ used, (file, used) ∈ uses ∧ name ∈ used := by
  simp only [dependents, List.mem_flatMap, List.mem_map, List.mem_filter, beq_iff_eq, Prod.exists]
  constructor
  · rintro ⟨file', used, member, name', ⟨uses, rfl⟩, rfl⟩
    exact ⟨used, member, uses⟩
  · rintro ⟨used, member, uses⟩
    exact ⟨file, used, member, name, ⟨uses, rfl⟩, rfl⟩

/-- A walk with enough fuel keeps what it has seen, visits its whole stack, and leaves no user of
a name it visits outside. -/
theorem reach_closed (uses : List (String × List String)) (fuel : Nat) (stack seen : List String)
    (enough : stack.length + openUses uses seen < fuel) :
    (∀ n ∈ seen, n ∈ reach (dependents uses) fuel stack seen) ∧
    (∀ n ∈ stack, n ∈ reach (dependents uses) fuel stack seen) ∧
    ∀ n ∈ reach (dependents uses) fuel stack seen,
      n ∈ seen ∨ ∀ m ∈ dependents uses n, m ∈ reach (dependents uses) fuel stack seen := by
  induction fuel generalizing stack seen with
  | zero => exact absurd enough (Nat.not_lt_zero _)
  | succ fuel ih =>
      cases stack with
      | nil => exact ⟨fun n h => h, fun n h => absurd h List.not_mem_nil, fun n h => .inl h⟩
      | cons name stack =>
          rw [reach]
          by_cases old : name ∈ seen
          · rw [if_pos (by simpa using old)]
            rw [List.length_cons] at enough
            obtain ⟨keeps, visits, closed⟩ := ih stack seen (by omega)
            refine ⟨keeps, ?_, closed⟩
            intro n h
            rcases List.mem_cons.mp h with rfl | h
            · exact keeps n old
            · exact visits n h
          · rw [if_neg (by simpa using old)]
            have closes := openUses_visit uses seen name old
            rw [List.length_cons] at enough
            obtain ⟨keeps, visits, closed⟩ := ih (dependents uses name ++ stack) (name :: seen)
              (by rw [List.length_append]; omega)
            refine ⟨fun n h => keeps n (List.mem_cons_of_mem _ h), ?_, ?_⟩
            · intro n h
              rcases List.mem_cons.mp h with rfl | h
              · exact keeps n List.mem_cons_self
              · exact visits n (List.mem_append_right _ h)
            · intro n h
              rcases closed n h with visited | users
              · rcases List.mem_cons.mp visited with rfl | visited
                · exact .inr fun m hm => visits m (List.mem_append_left _ hm)
                · exact .inl visited
              · exact .inr users

theorem foldl_add_eq (ns : List Nat) (n : Nat) : ns.foldl (· + ·) n = n + ns.sum := by
  induction ns generalizing n with
  | nil => rfl
  | cons m rest ih => rw [List.foldl_cons, ih, List.sum_cons, Nat.add_assoc]

theorem openUses_nil (uses : List (String × List String)) :
    openUses uses [] = (uses.map (·.2.length)).sum := by
  simp [openUses]

theorem affectedNames_fuel (uses : List (String × List String)) (pending : List String) :
    pending.length + openUses uses [] <
      (uses.map (·.2.length)).foldl (· + ·) pending.length + 1 := by
  rw [foldl_add_eq, openUses_nil]
  omega

theorem pending_affected (uses : List (String × List String)) {pending : List String}
    {n : String} (h : n ∈ pending) : n ∈ affectedNames uses pending :=
  (reach_closed uses _ pending [] (affectedNames_fuel uses pending)).2.1 n h

/-- Whoever uses an affected name is affected. -/
theorem user_affected {uses : List (String × List String)} {pending : List String}
    {file name : String} {used : List String} (known : (file, used) ∈ uses) (target : name ∈ used)
    (h : name ∈ affectedNames uses pending) : file ∈ affectedNames uses pending := by
  have closed := (reach_closed uses _ pending [] (affectedNames_fuel uses pending)).2.2 name h
  exact closed.resolve_left List.not_mem_nil file (mem_dependents.mpr ⟨used, known, target⟩)

theorem mem_affected {uses : List (String × List String)} {pending : List String} {n : String} :
    n ∈ affected uses pending ↔ n ∈ uses.map (·.1) ∧ n ∈ affectedNames uses pending := by
  simp [affected, List.mem_filter]

/-- A file of a registry has a use of a name, which may be that of another file or of none. -/
def Uses (uses : List (String × List String)) (file name : String) : Prop :=
  ∃ used, (file, used) ∈ uses ∧ name ∈ used

/-- A walk comes only to names that lead over uses to its stack, besides those it began with. -/
theorem reach_sound (uses : List (String × List String)) (fuel : Nat) (stack seen : List String) :
    ∀ n ∈ reach (dependents uses) fuel stack seen,
      n ∈ seen ∨ ∃ p ∈ stack, Relation.ReflTransGen (Uses uses) n p := by
  induction fuel generalizing stack seen with
  | zero => exact fun n old => .inl old
  | succ fuel ih =>
      cases stack with
      | nil => exact fun n old => .inl old
      | cons name stack =>
          intro n member
          rw [reach] at member
          split at member
          · refine (ih stack seen n member).imp_right ?_
            rintro ⟨p, waiting, way⟩
            exact ⟨p, List.mem_cons_of_mem name waiting, way⟩
          · rcases ih _ _ n member with visited | ⟨p, waiting, way⟩
            · rcases List.mem_cons.mp visited with rfl | old
              · exact .inr ⟨n, List.mem_cons_self, .refl⟩
              · exact .inl old
            · rcases List.mem_append.mp waiting with user | later
              · exact .inr ⟨name, List.mem_cons_self, way.tail (mem_dependents.mp user)⟩
              · exact .inr ⟨p, List.mem_cons_of_mem name later, way⟩

/-- A name is affected exactly if uses lead from it to a pending one. -/
theorem mem_affectedNames {uses : List (String × List String)} {pending : List String}
    {n : String} :
    n ∈ affectedNames uses pending ↔ ∃ p ∈ pending, Relation.ReflTransGen (Uses uses) n p := by
  constructor
  · intro affected
    exact (reach_sound uses _ pending [] n affected).resolve_left List.not_mem_nil
  · rintro ⟨p, waits, way⟩
    induction way using Relation.ReflTransGen.head_induction_on with
    | refl => exact pending_affected uses waits
    | head step _ ih =>
        obtain ⟨used, known, target⟩ := step
        exact user_affected known target ih

/-- The affected files stand in the order of the registry, each once, and are those from which a
chain of uses leads to a pending name, whatever circles there are and whatever names nobody has. -/
theorem affected_closure {uses : List (String × List String)} (once : (uses.map (·.1)).Nodup)
    (pending : List String) :
    (affected uses pending).Sublist (uses.map (·.1)) ∧ (affected uses pending).Nodup ∧
      ∀ file, file ∈ affected uses pending ↔ file ∈ uses.map (·.1) ∧
        ∃ name ∈ pending, Relation.ReflTransGen (Uses uses) file name := by
  refine ⟨List.filter_sublist, once.filter _, fun file => ?_⟩
  rw [mem_affected, mem_affectedNames]

/-- A registry with a circle, a file that uses itself, a use given twice and names of no file. -/
def circling : List (String × List String) :=
  [("A", ["B", "B", "X"]), ("B", ["A"]), ("C", ["C", "Y"]), ("D", ["Z", "B"]), ("E", [])]

theorem affected_closure_circling :
    (circling.map (·.1)).Nodup ∧ affected circling ["X", "Q", "X", "E"] = ["A", "B", "D", "E"] ∧
      (affected circling ["X", "Q", "X", "E"]).Nodup ∧
      ∀ file, file ∈ affected circling ["X", "Q", "X", "E"] ↔ file ∈ circling.map (·.1) ∧
        ∃ name ∈ ["X", "Q", "X", "E"], Relation.ReflTransGen (Uses circling) file name := by
  have once : (circling.map (·.1)).Nodup := by decide
  exact ⟨once, by decide, (affected_closure once _).2⟩

end DataModel.Graph
