import DataModel.Proofs.FileTree.Walking
import Mathlib.Data.List.Perm.Subperm

/-!
The place without links of a path that leads somewhere. It is where the walk along the path ends, so
it does not depend on what lies beside the way.
-/
namespace DataModel.FileTree
variable {t : FileTree} {n m depth : Nat} {here q : Place} {opened : List Place}
  {parts : List String} {name : String}

section Opening

/-- Links that are being replaced: none of them can be followed with fewer links, and there are not
more of them than entries. -/
structure Opens (t : FileTree) (n depth : Nat) (opened : List Place) : Prop where
  once : opened.Nodup
  links : ∀ o ∈ opened, ∃ target, t.node? o = some (.link target)
  far : ∀ before name, before ++ [name] ∈ opened → ∀ q, ¬ t.Walk n before [name] q
  deep : t.entries.length < depth + opened.length

theorem mem_entries_of_link {place : Place} {target : String}
    (node : t.node? place = some (.link target)) : place ∈ t.entries.map Prod.fst := by
  unfold node? at node
  split at node
  · cases node
  · obtain ⟨before, after, whole, -⟩ := List.lookup_eq_some_iff.mp node
    rw [whole]
    simp

theorem opens_nil (t : FileTree) (n : Nat) : t.Opens n (t.entries.length + 1) [] where
  once := List.nodup_nil
  links _ none := absurd none List.not_mem_nil
  far _ _ none := absurd none List.not_mem_nil
  deep := Nat.lt_succ_self _

theorem Opens.mono (h : t.Opens n depth opened) (fewer : m ≤ n) : t.Opens m depth opened :=
  { h with far := fun before name inside q walk => h.far before name inside q (walk.mono fewer) }

/-- One more link is opened; there is always room for it. -/
theorem Opens.more (h : t.Opens n depth opened) {target : String} {k : Nat} (fewer : k ≤ n)
    (node : t.node? (here ++ [name]) = some (.link target)) (new : here ++ [name] ∉ opened)
    (far : ∀ q, ¬ t.Walk k here [name] q) :
    ∃ depth', depth = depth' + 1 ∧ t.Opens k depth' ((here ++ [name]) :: opened) := by
  have links : ∀ o ∈ (here ++ [name]) :: opened, ∃ target, t.node? o = some (.link target) :=
    List.forall_mem_cons.mpr ⟨⟨target, node⟩, h.links⟩
  have once : ((here ++ [name]) :: opened).Nodup := List.nodup_cons.mpr ⟨new, h.once⟩
  have room : opened.length + 1 ≤ t.entries.length := by
    have inside : (here ++ [name]) :: opened ⊆ t.entries.map Prod.fst := by
      intro o member
      obtain ⟨target', node'⟩ := links o member
      exact mem_entries_of_link node'
    simpa using (once.subperm inside).length_le
  have deep := h.deep
  obtain ⟨depth', rfl⟩ : ∃ depth', depth = depth' + 1 := ⟨depth - 1, by omega⟩
  refine ⟨depth', rfl, once, links, ?_, ?_⟩
  · intro before name' inside q walk
    rcases List.mem_cons.mp inside with same | inside
    · obtain ⟨rfl, last⟩ := List.append_inj' same rfl
      obtain rfl := List.singleton_inj.mp last
      exact far q walk
    · exact h.far before name' inside q (walk.mono fewer)
  · rw [List.length_cons]
    omega

end Opening

section Replacing

/-- A link can be followed with so few links that it is not among them. -/
theorem Walk.least {target : String} (plain : name ≠ "..") (short : Path.isLongName name = false)
    (node : t.node? (here ++ [name]) = some (.link target))
    (more : t.Walk n (if (Path.ofString target).isAbsolute then [] else here)
      (Path.ofString target).parts q) :
    ∃ k, k ≤ n ∧ t.Walk k (if (Path.ofString target).isAbsolute then [] else here)
      (Path.ofString target).parts q ∧ ∀ q', ¬ t.Walk k here [name] q' := by
  induction n with
  | zero =>
      refine ⟨0, Nat.le_refl 0, more, fun q' walk => ?_⟩
      cases walk with
      | up _ => exact plain rfl
      | enter _ _ node' _ =>
          rw [node] at node'
          cases node'
      | file _ _ node' =>
          rw [node] at node'
          cases node'
  | succ n ih =>
      by_cases sooner : ∃ q', t.Walk (n + 1) here [name] q'
      · obtain ⟨q', walk⟩ := sooner
        have same : q' = q := by
          have whole : t.Walk (n + 2) here [name] q :=
            .follow plain short node (by rwa [List.append_nil])
          exact walk.unique whole
        subst same
        obtain ⟨k, fewer, walk', far⟩ : ∃ k, k ≤ n ∧ t.Walk k _ _ q' ∧ _ := by
          refine ih ?_
          cases walk with
          | up _ => exact absurd rfl plain
          | enter _ _ node' _ =>
              rw [node] at node'
              cases node'
          | file _ _ node' =>
              rw [node] at node'
              cases node'
          | follow _ _ node' more' =>
              rw [node] at node'
              cases node'
              rwa [List.append_nil] at more'
        exact ⟨k, Nat.le_succ_of_le fewer, walk', far⟩
      · exact ⟨n + 1, Nat.le_refl _, more, fun q' walk => sooner ⟨q', walk⟩⟩

/-- Replacing the links on a way that leads somewhere gives the end of the walk. -/
theorem Walk.withoutLinks (h : t.Walk n here parts q) (rooted : t.Rooted here)
    (opens : t.Opens n depth opened) : t.withoutLinks depth opened here parts = (q, true) := by
  induction n using Nat.strong_induction_on generalizing depth opened here parts q with
  | h n fewer =>
      induction parts generalizing here with
      | nil =>
          cases h
          rw [FileTree.withoutLinks]
      | cons name rest shorter =>
          cases h with
          | up more =>
              rw [FileTree.withoutLinks, if_pos rfl]
              exact shorter more rooted.dropLast
          | enter plain short node more =>
              rw [FileTree.withoutLinks, if_neg plain]
              simp only [node]
              exact shorter more (rooted.snoc plain short node)
          | file plain short node =>
              rw [FileTree.withoutLinks, if_neg plain]
              simp only [node]
              rw [FileTree.withoutLinks]
          | @follow n _ _ _ target _ plain short node more =>
              obtain ⟨between, k, left, first, second, ended⟩ := more.split (rooted.base target)
              obtain ⟨j, few, first', far⟩ := first.least plain short node
              have new : here ++ [name] ∉ opened := fun inside =>
                opens.far here name inside between
                  (.follow plain short node (by rwa [List.append_nil]))
              obtain ⟨depth, rfl, opens'⟩ := opens.more (Nat.le_succ_of_le few) node new far
              have real := fewer j (Nat.lt_succ_of_le few) first' (rooted.base target) opens'
              have onward : t.withoutLinks (depth + 1) opened between rest = (q, true) := by
                rcases ended with rfl | rooted'
                · cases second
                  rw [FileTree.withoutLinks]
                · exact fewer k (Nat.lt_succ_of_le left) second rooted'
                    (opens.mono (Nat.le_succ_of_le left))
              have closed : opened.contains (here ++ [name]) = false := by
                rw [List.contains_eq_mem]
                exact decide_eq_false new
              rw [FileTree.withoutLinks, if_neg plain]
              simp only [node, closed, real, onward]
              rfl

end Replacing

section Resolving

/-- A directory that can be walked to is walked to by its own components. -/
theorem Rooted.walk {more rest : List String} (rooted : t.Rooted (here ++ more))
    (h : t.Walk n (here ++ more) rest q) : t.Walk n here (more ++ rest) q := by
  induction more generalizing here with
  | nil =>
      rw [List.append_nil] at h
      exact h
  | cons name more ih =>
      have whole : here ++ name :: more = here ++ [name] ++ more := by simp
      rw [whole] at rooted h
      obtain ⟨plain, short, st, node⟩ := rooted here name (List.prefix_append _ _)
      exact .enter plain short node (ih rooted h)

/-- A walk through a directory goes on from there. -/
theorem Walk.onward {more rest : List String} (h : t.Walk n here (more ++ rest) q)
    (rooted : t.Rooted (here ++ more)) : ∃ k, t.Walk k (here ++ more) rest q := by
  have start : t.Rooted here := fun before name inside =>
    rooted before name (inside.trans (List.prefix_append here more))
  obtain ⟨between, k, -, first, onward, -⟩ := h.split start
  have whole := rooted.walk (.done n _)
  rw [List.append_nil] at whole
  obtain rfl := first.unique whole
  exact ⟨k, onward⟩

theorem HasFile.walk (h : t.HasFile q) : t.Walk n [] q q := by
  obtain ⟨before, name, bytes, st, rfl, rooted, plain, short, node⟩ := h
  have start : t.Rooted ([] ++ before) := rooted
  exact start.walk (.file plain short node)

theorem Rooted.walk_self (rooted : t.Rooted q) : t.Walk n [] q q := by
  have start : t.Rooted ([] ++ q) := rooted
  have walk := start.walk (.done n q)
  rwa [List.append_nil] at walk

theorem Rooted.plain (rooted : t.Rooted here) : ∀ name ∈ here, name ≠ ".." := by
  intro name inside
  obtain ⟨before, after, whole⟩ := List.append_of_mem inside
  refine (rooted before name ⟨after, ?_⟩).1
  rw [whole]
  simp

theorem collapseDots_plain (plain : ∀ name ∈ parts, name ≠ "..") : Path.collapseDots parts = parts := by
  have back : ∀ before, parts.foldl (fun (back : List String) p =>
      if p == ".." then back.tail else p :: back) before = parts.reverse ++ before := by
    induction parts with
    | nil => exact fun _ => rfl
    | cons name rest ih =>
        intro before
        obtain ⟨first, others⟩ := List.forall_mem_cons.mp plain
        rw [List.foldl_cons, if_neg (by simpa using first), ih others]
        simp
  rw [Path.collapseDots, back, List.append_nil, List.reverse_reverse]

/-- What a path that leads somewhere stands for, unless its text names nothing in any tree. -/
def named (p : Path) (q : Place) : Except PathFault Path :=
  match p.firstNameFault? with
  | some f => .error (.name f)
  | none => .ok ⟨"/", q⟩

theorem Walk.resolve {current p : Path} (h : t.Walk n [] (p.under current).parts q) :
    t.resolve current p = named p q := by
  have here : Path.collapseDots q = q ∧ t.Walk maxLinks [] q q := by
    rcases h.ends rooted_nil with rooted | file
    · exact ⟨collapseDots_plain rooted.plain, rooted.walk_self⟩
    · refine ⟨collapseDots_plain ?_, file.walk⟩
      obtain ⟨before, name, -, -, rfl, rooted, plain, -, -⟩ := file
      exact List.forall_mem_append.mpr ⟨rooted.plain, List.forall_mem_singleton.mpr plain⟩
  have places := h.withoutLinks rooted_nil (t.opens_nil n)
  unfold FileTree.resolve named
  cases p.firstNameFault? with
  | some f => rfl
  | none => simp only [places, here.1, here.2.locate]

end Resolving
end DataModel.FileTree
