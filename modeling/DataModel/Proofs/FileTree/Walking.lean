import DataModel.FileTree
import Mathlib.Data.List.Induction
import Mathlib.Data.List.Nodup
import Mathlib.Data.Nat.Find

/-!
Walks along paths. A walk leads through directories, and over links, to a directory or to a file. It
depends on nothing but the entries on its way, and its end is the place without links that the path
stands for.
-/
namespace DataModel

section Results
variable {α β ε ε' : Type}

theorem ok_of_bind {x : Except ε α} {f : α → Except ε β} {b : β} (ok : x >>= f = .ok b) :
    ∃ a, x = .ok a ∧ f a = .ok b := by
  cases x with
  | error e => cases ok
  | ok a => exact ⟨a, rfl, ok⟩

theorem ok_of_mapError {x : Except ε α} {f : ε → ε'} {a : α} (ok : x.mapError f = .ok a) :
    x = .ok a := by
  cases x with
  | error e => cases ok
  | ok b =>
      cases ok
      rfl

/-- A loop in which every step keeps what holds of the part that was gone through. -/
theorem foldlM_ok {f : β → α → Except ε β} {xs : List α} {b c : β}
    {I : List α → β → Prop} (start : I [] b)
    (each : ∀ before x after b b', xs = before ++ x :: after → I before b → f b x = .ok b' →
      I (before ++ [x]) b') (done : xs.foldlM f b = .ok c) : I xs c := by
  suffices all : ∀ rest before b, xs = before ++ rest → I before b → rest.foldlM f b = .ok c →
      I xs c from all xs [] b rfl start done
  intro rest
  induction rest with
  | nil =>
      intro before b whole holds done
      rw [List.append_nil] at whole
      cases done
      rwa [whole]
  | cons x rest ih =>
      intro before b whole holds done
      rw [List.foldlM_cons] at done
      cases step : f b x with
      | error e =>
          rw [step] at done
          cases done
      | ok b' =>
          rw [step] at done
          have shifted : xs = before ++ [x] ++ rest := by rw [whole, List.append_assoc]; rfl
          exact ih (before ++ [x]) b' shifted (each before x rest b b' whole holds step) done

/-- A loop whose every step succeeds and keeps what holds of the part that was gone through. -/
theorem foldlM_total {f : β → α → Except ε β} {xs : List α} {b : β}
    {I : List α → β → Prop} (start : I [] b)
    (each : ∀ before x after b, xs = before ++ x :: after → I before b →
      ∃ b', f b x = .ok b' ∧ I (before ++ [x]) b') : ∃ c, xs.foldlM f b = .ok c ∧ I xs c := by
  suffices all : ∀ rest before b, xs = before ++ rest → I before b →
      ∃ c, rest.foldlM f b = .ok c ∧ I xs c from all xs [] b rfl start
  intro rest
  induction rest with
  | nil =>
      intro before b whole holds
      rw [List.append_nil] at whole
      exact ⟨b, rfl, whole ▸ holds⟩
  | cons x rest ih =>
      intro before b whole holds
      obtain ⟨b', step, holds'⟩ := each before x rest b whole holds
      have shifted : xs = before ++ [x] ++ rest := by rw [whole, List.append_assoc]; rfl
      obtain ⟨c, done, holds''⟩ := ih (before ++ [x]) b' shifted holds'
      refine ⟨c, ?_, holds''⟩
      rw [List.foldlM_cons, step]
      exact done

end Results

namespace FileTree
variable {t : FileTree} {n m : Nat} {here q : Place} {parts : List String} {name : String}

/-- A walk that follows at most so many links, from a place along some components to a place. -/
inductive Walk (t : FileTree) : Nat → Place → List String → Place → Prop
  | done (n : Nat) (here : Place) : Walk t n here [] here
  | up {n : Nat} {here q : Place} {rest : List String} (more : Walk t n here.dropLast rest q) :
    Walk t n here (".." :: rest) q
  | enter {n : Nat} {here q : Place} {name : String} {rest : List String} {stamp : Stamp}
    (plain : name ≠ "..") (short : Path.isLongName name = false)
    (node : t.node? (here ++ [name]) = some (.directory stamp))
    (more : Walk t n (here ++ [name]) rest q) : Walk t n here (name :: rest) q
  | file {n : Nat} {here : Place} {name : String} {bytes : List UInt8} {stamp : Stamp}
    (plain : name ≠ "..") (short : Path.isLongName name = false)
    (node : t.node? (here ++ [name]) = some (.file bytes stamp)) :
    Walk t n here [name] (here ++ [name])
  | follow {n : Nat} {here q : Place} {name target : String} {rest : List String}
    (plain : name ≠ "..") (short : Path.isLongName name = false)
    (node : t.node? (here ++ [name]) = some (.link target))
    (more : Walk t n (if (Path.ofString target).isAbsolute then [] else here)
      ((Path.ofString target).parts ++ rest) q) : Walk t (n + 1) here (name :: rest) q

section Locating

theorem walk_of_locate (h : t.locate true n here parts = .ok q) : t.Walk n here parts q := by
  induction n, here, parts using locate.induct t true with
  | case1 links here =>
      rw [locate] at h
      cases h
      exact .done links _
  | case2 links here rest ih =>
      rw [locate, if_pos rfl] at h
      exact .up (ih h)
  | case3 links here name rest plain long =>
      rw [locate, if_neg plain, if_pos long] at h
      cases h
  | case4 links here name rest plain short next node =>
      rw [locate, if_neg plain, if_neg short] at h
      simp only [next] at node
      simp only [node] at h
      cases h
  | case5 links here name rest plain short next stamp node ih =>
      rw [locate, if_neg plain, if_neg short] at h
      simp only [next] at node ih
      simp only [node] at h
      exact .enter plain (Bool.eq_false_iff.mpr short) node (ih h)
  | case6 links here name rest plain short next bytes stamp node last =>
      rw [locate, if_neg plain, if_neg short] at h
      simp only [next] at node
      simp only [node, last] at h
      cases h
      rw [List.isEmpty_iff.mp last]
      exact .file plain (Bool.eq_false_iff.mpr short) node
  | case7 links here name rest plain short next bytes stamp node more =>
      rw [locate, if_neg plain, if_neg short] at h
      simp only [next] at node
      simp only [node, more] at h
      cases h
  | case8 links here name rest plain short next target node last =>
      rw [Bool.not_true, Bool.and_false] at last
      cases last
  | case9 here name rest plain short next target node more =>
      rw [locate, if_neg plain, if_neg short] at h
      simp only [next] at node
      simp only [node, more] at h
      cases h
  | case10 here name rest plain short next target node more links p ih =>
      rw [locate, if_neg plain, if_neg short] at h
      simp only [next] at node
      simp only [node, more] at h
      exact .follow plain (Bool.eq_false_iff.mpr short) node (ih h)

theorem Walk.locate (h : t.Walk n here parts q) : t.locate true n here parts = .ok q := by
  induction h with
  | done n here => rw [FileTree.locate]
  | up more ih =>
      rw [FileTree.locate, if_pos rfl]
      exact ih
  | enter plain short node more ih =>
      rw [FileTree.locate, if_neg plain, short]
      simp only [node]
      exact ih
  | file plain short node =>
      rw [FileTree.locate, if_neg plain, short]
      simp only [node]
      rfl
  | follow plain short node more ih =>
      rw [FileTree.locate, if_neg plain, short]
      simp only [node, Bool.not_true, Bool.and_false]
      exact ih

theorem walk_iff : t.Walk n here parts q ↔ t.locate true n here parts = .ok q :=
  ⟨Walk.locate, walk_of_locate⟩

end Locating

section Rooting

/-- Every directory on the way to a place is one, and has a name that can be walked to. -/
def Rooted (t : FileTree) (here : Place) : Prop :=
  ∀ before name, before ++ [name] <+: here →
    name ≠ ".." ∧ Path.isLongName name = false ∧ ∃ st, t.node? (before ++ [name]) = some (.directory st)

theorem rooted_nil : t.Rooted [] := by
  intro before name inside
  simp at inside

theorem Rooted.dropLast (h : t.Rooted here) : t.Rooted here.dropLast :=
  fun before name inside => h before name (inside.trans here.dropLast_prefix)

theorem Rooted.snoc {st : Stamp} (h : t.Rooted here) (plain : name ≠ "..")
    (short : Path.isLongName name = false)
    (node : t.node? (here ++ [name]) = some (.directory st)) : t.Rooted (here ++ [name]) := by
  intro before name' inside
  rcases List.prefix_concat_iff.mp inside with same | inside
  · obtain ⟨rfl, last⟩ := List.append_inj' same rfl
    obtain rfl := List.singleton_inj.mp last
    exact ⟨plain, short, st, node⟩
  · exact h before name' inside

theorem Rooted.directory (h : t.Rooted here) : ∃ st, t.node? here = some (.directory st) := by
  induction here using List.reverseRecOn with
  | nil => exact ⟨_, rfl⟩
  | append_singleton before name _ => exact (h before name List.prefix_rfl).2.2

/-- A file in a directory that can be walked to. -/
def HasFile (t : FileTree) (q : Place) : Prop :=
  ∃ before name bytes st, q = before ++ [name] ∧ t.Rooted before ∧ name ≠ ".." ∧
    Path.isLongName name = false ∧ t.node? q = some (.file bytes st)

theorem HasFile.not_rooted (h : t.HasFile q) : ¬ t.Rooted q := by
  intro rooted
  obtain ⟨st, node⟩ := rooted.directory
  obtain ⟨_, _, bytes, st', -, -, -, -, node'⟩ := h
  rw [node] at node'
  cases node'

/-- The place that a link starts from. -/
theorem Rooted.base (h : t.Rooted here) (target : String) :
    t.Rooted (if (Path.ofString target).isAbsolute then [] else here) := by
  split
  · exact rooted_nil
  · exact h

namespace Walk

/-- A walk ends at a directory or at a file. -/
theorem ends (h : t.Walk n here parts q) (rooted : t.Rooted here) : t.Rooted q ∨ t.HasFile q := by
  induction h with
  | done n here => exact .inl rooted
  | up more ih => exact ih rooted.dropLast
  | enter plain short node more ih => exact ih (rooted.snoc plain short node)
  | file plain short node => exact .inr ⟨_, _, _, _, rfl, rooted, plain, short, node⟩
  | follow plain short node more ih => exact ih (rooted.base _)

theorem mono (h : t.Walk n here parts q) (more : n ≤ m) : t.Walk m here parts q := by
  induction h generalizing m with
  | done n here => exact .done m here
  | up _ ih => exact .up (ih more)
  | enter plain short node _ ih => exact .enter plain short node (ih more)
  | file plain short node => exact .file plain short node
  | follow plain short node _ ih =>
      obtain ⟨m, rfl⟩ := Nat.exists_eq_add_of_le' (Nat.one_le_of_lt more)
      exact .follow plain short node (ih (Nat.le_of_succ_le_succ more))

theorem unique {q' : Place} (h : t.Walk n here parts q) (h' : t.Walk m here parts q') : q = q' := by
  have far := (h.mono (Nat.le_max_left n m)).locate
  rw [(h'.mono (Nat.le_max_right n m)).locate] at far
  exact (Except.ok.inj far).symm

theorem split_nil {ys : List String} (h : t.Walk n here ys q) (rooted : t.Rooted here) :
    ∃ between k, k ≤ n ∧ t.Walk n here [] between ∧ t.Walk k between ys q ∧
      (ys = [] ∨ t.Rooted between) :=
  ⟨here, n, Nat.le_refl n, .done n here, h, .inr rooted⟩

/-- A walk over more components goes on from where the first ones lead. -/
theorem split {xs ys : List String} (h : t.Walk n here (xs ++ ys) q) (rooted : t.Rooted here) :
    ∃ between k, k ≤ n ∧ t.Walk n here xs between ∧ t.Walk k between ys q ∧
      (ys = [] ∨ t.Rooted between) := by
  generalize whole : xs ++ ys = parts at h
  induction h generalizing xs with
  | done n here =>
      obtain ⟨rfl, rfl⟩ := List.append_eq_nil_iff.mp whole
      exact ⟨here, n, Nat.le_refl n, .done n here, .done n here, .inl rfl⟩
  | @up n here q rest more ih =>
      cases xs with
      | nil =>
          obtain rfl : ys = _ := whole
          exact split_nil (.up more) rooted
      | cons x xs =>
          cases whole
          obtain ⟨between, k, fewer, first, second, end'⟩ := ih rooted.dropLast rfl
          exact ⟨between, k, fewer, .up first, second, end'⟩
  | @enter n here q name rest st plain short node more ih =>
      cases xs with
      | nil =>
          obtain rfl : ys = _ := whole
          exact split_nil (.enter plain short node more) rooted
      | cons x xs =>
          cases whole
          obtain ⟨between, k, fewer, first, second, end'⟩ := ih (rooted.snoc plain short node) rfl
          exact ⟨between, k, fewer, .enter plain short node first, second, end'⟩
  | @file n here name bytes st plain short node =>
      cases xs with
      | nil =>
          obtain rfl : ys = _ := whole
          exact split_nil (.file plain short node) rooted
      | cons x xs =>
          obtain ⟨rfl, nothing⟩ := List.cons.inj whole
          obtain ⟨rfl, rfl⟩ := List.append_eq_nil_iff.mp nothing
          exact ⟨_, n, Nat.le_refl n, .file plain short node, .done n _, .inl rfl⟩
  | @follow n here q name target rest plain short node more ih =>
      cases xs with
      | nil =>
          obtain rfl : ys = _ := whole
          exact split_nil (.follow plain short node more) rooted
      | cons x xs =>
          cases whole
          obtain ⟨between, k, fewer, first, second, end'⟩ :=
            ih (rooted.base target) (List.append_assoc (Path.ofString target).parts xs ys)
          exact ⟨between, k, Nat.le_succ_of_le fewer, .follow plain short node first, second, end'⟩

end Walk

end Rooting
end FileTree
end DataModel
