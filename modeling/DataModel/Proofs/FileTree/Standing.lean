import DataModel.Proofs.FileTree.Editing
import DataModel.Proofs.FileTree.Faults

/-!
A disk as it can be, with a directory that no links lie in. Every entry there is where its place
says, so that each model file listed below the directory is found, unless its path is too long, and
has a name of its own.
-/
namespace DataModel

namespace Path

theorem intercalate_suffix (parts : List (List Char)) (last : List Char) :
    last <:+ ['/'].intercalate (parts ++ [last]) := by
  induction parts with
  | nil => simp
  | cons first parts ih =>
      cases parts with
      | nil =>
          rw [List.cons_append, List.nil_append, List.intercalate_cons_cons]
          exact ih.trans (List.suffix_append _ _)
      | cons second parts =>
          rw [List.cons_append, List.cons_append, List.intercalate_cons_cons]
          exact ih.trans (List.suffix_append _ _)

/-- A text that ends with a suffix is given back by what is left without it. -/
theorem withoutSuffix_append {suffix text : String}
    (ends : suffix.toList <:+ text.toList) : (withoutSuffix suffix text) ++ suffix = text := by
  obtain ⟨front, whole⟩ := ends
  have long : text.length - suffix.length = front.length := by
    rw [← String.length_toList, ← String.length_toList, ← whole, List.length_append]
    omega
  apply String.toList_inj.mp
  rw [withoutSuffix, if_pos (List.isSuffixOf_iff_suffix.mpr ⟨front, whole⟩), String.toList_append,
    String.toList_ofList, long, ← whole, List.take_left]

end Path

namespace FileTree
variable {t : FileTree} {n : Nat} {here top q : Place} {parts xs ys : List String} {p root : Path}
  {st : Stamp} {node : Node}

/-- A disk as it can be: each place comes once, its components are names, and its parent is a
directory. -/
structure WellFormed (t : FileTree) : Prop where
  once : (t.entries.map Prod.fst).Nodup
  named : ∀ e ∈ t.entries, ∀ name ∈ e.1, IsName name
  above : ∀ e ∈ t.entries, ∃ st, t.node? e.1.dropLast = some (.directory st)

/-- No links lie at a place or below it. -/
def Unlinked (t : FileTree) (top : Place) : Prop :=
  ∀ e ∈ t.entries, top <+: e.1 → ∀ target, e.2 ≠ .link target

section Nodes

theorem mem_entries_of_node? (some' : q ≠ []) (found : t.node? q = some node) :
    (q, node) ∈ t.entries := by
  rw [node?, List.isEmpty_eq_false_iff.mpr some'] at found
  obtain ⟨before, after, whole, -⟩ := List.lookup_eq_some_iff.mp found
  rw [whole]
  exact List.mem_append_right _ List.mem_cons_self

theorem WellFormed.node?_of_mem (formed : t.WellFormed) (some' : q ≠ [])
    (member : (q, node) ∈ t.entries) : t.node? q = some node := by
  obtain ⟨before, after, whole⟩ := List.append_of_mem member
  have once := formed.once
  rw [whole, List.map_append, List.map_cons, List.nodup_append'] at once
  rw [node?, List.isEmpty_eq_false_iff.mpr some']
  refine List.lookup_eq_some_iff.mpr ⟨before, after, whole, fun e inside => ?_⟩
  refine bne_iff_ne.mpr fun same => ?_
  exact once.2.2 (List.mem_map_of_mem inside) (same ▸ List.mem_cons_self)

/-- A directory can be walked to by its own components. -/
theorem WellFormed.rooted (formed : t.WellFormed) (directory : t.node? q = some (.directory st)) :
    t.Rooted q := by
  induction q using List.reverseRecOn generalizing st with
  | nil => exact rooted_nil
  | append_singleton before name ih =>
      have member := mem_entries_of_node? (by simp) directory
      obtain ⟨st', parent⟩ := formed.above _ member
      rw [List.dropLast_concat] at parent
      have isName := formed.named _ member name (by simp)
      exact (ih parent).snoc isName.plain isName.short directory

/-- Whatever is no link is walked to by its own components. -/
theorem WellFormed.walk (formed : t.WellFormed) (found : t.node? q = some node)
    (unlinked : ∀ target, node ≠ .link target) : t.Walk n [] q q := by
  cases node with
  | directory st => exact (formed.rooted found).walk_self
  | file bytes st =>
      rcases List.eq_nil_or_concat q with rfl | ⟨before, name, rfl⟩
      · cases found
      · rw [List.concat_eq_append] at found ⊢
        have member := mem_entries_of_node? (by simp) found
        obtain ⟨st', parent⟩ := formed.above _ member
        rw [List.dropLast_concat] at parent
        have isName := formed.named _ member name (by simp)
        exact HasFile.walk ⟨before, name, bytes, st, rfl, formed.rooted parent, isName.plain,
          isName.short, found⟩
  | link target => exact absurd rfl (unlinked target)

end Nodes

section Walks

/-- Whatever a walk meets on its way is on the disk, but the steps back. -/
theorem Walk.met (h : t.Walk n here parts q) :
    ∀ name ∈ parts, name = ".." ∨ ∃ place node, t.node? (place ++ [name]) = some node := by
  induction h with
  | done n here => exact fun _ none => absurd none List.not_mem_nil
  | up more ih => exact List.forall_mem_cons.mpr ⟨.inl rfl, ih⟩
  | enter plain short node more ih => exact List.forall_mem_cons.mpr ⟨.inr ⟨_, _, node⟩, ih⟩
  | file plain short node => exact List.forall_mem_singleton.mpr (.inr ⟨_, _, node⟩)
  | follow plain short node more ih =>
      exact List.forall_mem_cons.mpr ⟨.inr ⟨_, _, node⟩, (List.forall_mem_append.mp ih).2⟩

/-- A walk to a directory, and on from there. -/
theorem Walk.append (h : t.Walk n here xs top) (rooted : t.Rooted here) (directory : t.Rooted top)
    (onward : t.Walk 0 top ys q) : t.Walk n here (xs ++ ys) q := by
  induction h with
  | done n here => exact onward.mono (Nat.zero_le n)
  | up more ih => exact .up (ih rooted.dropLast directory onward)
  | enter plain short node more ih =>
      exact .enter plain short node (ih (rooted.snoc plain short node) directory onward)
  | file plain short node =>
      exact absurd directory (HasFile.not_rooted ⟨_, _, _, _, rfl, rooted, plain, short, node⟩)
  | follow plain short node more ih =>
      refine .follow plain short node ?_
      have joined := ih (rooted.base _) directory onward
      rwa [List.append_assoc] at joined

end Walks

theorem find_of_isDirectory (directory : t.isDirectory p = .ok true) :
    ∃ top st, t.find p = .ok (top, .directory st) := by
  unfold isDirectory find? at directory
  cases found : t.find p with
  | error f =>
      rw [found] at directory
      dsimp only at directory
      split at directory <;> cases directory
  | ok here =>
      obtain ⟨top, node⟩ := here
      rw [found] at directory
      cases node with
      | directory st => exact ⟨top, st, rfl⟩
      | file bytes st => cases directory
      | link target => cases directory

section Listing
variable {below : List String} {files : List Path}

/-- A path that the listing gives, by its components below the root. -/
structure Stands (t : FileTree) (root : Path) (top : Place) (below : List String) (p : Path) :
    Prop where
  some' : below ≠ []
  path : p = { root with parts := root.parts ++ below }
  there : ∃ node, (top ++ below, node) ∈ t.entries
  suffix : modelSuffix.toList <:+ (below.getLast?.getD "").toList

theorem stands_of_modelPath? (found : t.find root = .ok (top, .directory st)) {e : Place × Node}
    (member : e ∈ t.entries) (h : t.modelPath? root e.1 = some p) :
    ∃ below, e.1 = top ++ below ∧ t.Stands root top below p := by
  obtain ⟨top', st', below, found', some', place, path⟩ := modelPath?_below h
  rw [found] at found'
  cases found'
  refine ⟨below, place, some', path, ⟨e.2, place ▸ member⟩, ?_⟩
  rw [modelPath?_of_directory found, Option.map_eq_some_iff] at h
  obtain ⟨below', kept, path'⟩ := h
  rw [path] at path'
  obtain rfl : below' = below := List.append_cancel_left (congrArg Path.parts path')
  exact List.isSuffixOf_iff_suffix.mp (Option.filter_eq_some_iff.mp kept).2

theorem stands_of_listed (found : t.find root = .ok (top, .directory st))
    (listed : t.modelFiles root = .ok files) (member : p ∈ files) :
    ∃ below, t.Stands root top below p := by
  rw [modelFiles_of_directory found] at listed
  cases listed
  obtain ⟨e, inside, path⟩ := List.mem_filterMap.mp (List.mem_mergeSort.mp member)
  obtain ⟨below, -, stands⟩ := stands_of_modelPath? found inside path
  exact ⟨below, stands⟩

theorem Stands.named (formed : t.WellFormed) (h : t.Stands root top below p) :
    ∀ name ∈ below, IsName name := by
  obtain ⟨node, member⟩ := h.there
  exact fun name inside => formed.named _ member name (List.mem_append_right _ inside)

theorem Stands.split (formed : t.WellFormed) (h : t.Stands root top below p) :
    ∀ name ∈ below, '/' ∉ name.toList := fun name inside => (h.named formed name inside).split

/-- The components of a path that leads somewhere are names and steps back. -/
theorem WellFormed.proper (formed : t.WellFormed) (found : t.find root = .ok (q, node))
    (slashes : root.IsSlashed) : root.Proper := by
  refine ⟨slashes, fun name inside => (((find_iff.mp found).2.1).met name inside).imp_right ?_⟩
  rintro ⟨place, node, there⟩
  exact formed.named _ (mem_entries_of_node? (by simp) there) name (by simp)

theorem Stands.proper (formed : t.WellFormed) (proper : root.Proper)
    (h : t.Stands root top below p) : p.Proper := by
  rw [h.path]
  refine ⟨proper.root, List.forall_mem_append.mpr ⟨proper.parts, ?_⟩⟩
  exact fun name inside => .inr (h.named formed name inside)

/-- A listed path leads to its own entry, if it is not too long. -/
theorem Stands.find (formed : t.WellFormed) (unlinked : t.Unlinked top)
    (found : t.find root = .ok (top, .directory st))
    (h : t.Stands root top below p) (fits : checkPath p = .ok ()) :
    ∃ node, t.find p = .ok (top ++ below, node) := by
  obtain ⟨node, member⟩ := h.there
  have there := formed.node?_of_mem (List.append_ne_nil_of_right_ne_nil _ h.some') member
  obtain ⟨-, walk, directory⟩ := find_iff.mp found
  have rooted := formed.rooted directory
  have straight := formed.walk (n := 0) there (unlinked _ member (List.prefix_append _ _))
  obtain ⟨between, k, none', first, onward, -⟩ := straight.split rooted_nil
  obtain rfl := first.unique (rooted.walk_self (n := 0))
  refine ⟨node, find_iff.mpr ⟨fits, ?_, there⟩⟩
  rw [h.path]
  exact walk.append rooted_nil rooted (onward.mono none')

/-- Of a listed path it is known that it is there, or nothing is known. -/
theorem Stands.exists? (formed : t.WellFormed) (unlinked : t.Unlinked top)
    (found : t.find root = .ok (top, .directory st))
    (slashes : root.IsSlashed) (h : t.Stands root top below p) :
    t.exists? p = .ok true ∨ ∃ f, t.exists? p = .error f := by
  have some' : p.parts ≠ [] := by
    rw [h.path]
    exact List.append_ne_nil_of_right_ne_nil _ h.some'
  have faultless := (h.proper formed (formed.proper found slashes)).nameFault? some'
  cases fits : checkPath p with
  | ok u =>
      obtain ⟨node, there⟩ := h.find formed unlinked found fits
      exact .inl (exists_iff.mpr ⟨_, _, there⟩)
  | error f =>
      right
      have missed : t.find p = .error f := by rw [FileTree.find, fits]; rfl
      rw [checkPath, faultless] at fits
      dsimp only at fits
      split at fits
      · cases fits
        refine ⟨.system .nameTooLong p.toString, ?_⟩
        rw [FileTree.exists?, find?, missed]
        rfl
      · cases fits

/-- The text of the components of a listed path below the root. -/
theorem Stands.text (h : t.Stands root top below p) :
    (⟨"", below⟩ : Path).toString = "/".intercalate below := by
  rw [Path.toString, List.isEmpty_eq_false_iff.mpr h.some', Bool.and_false]
  exact String.empty_append

/-- The text of a listed path ends as that of its last component. -/
theorem Stands.ends (h : t.Stands root top below p) :
    modelSuffix.toList <:+ ("/".intercalate below).toList := by
  obtain ⟨before, last, rfl⟩ := List.eq_nil_or_concat below |>.resolve_left h.some'
  have suffix := h.suffix
  simp only [List.concat_eq_append, List.getLast?_append, List.getLast?_singleton, Option.some_or,
    Option.getD_some] at suffix
  refine suffix.trans ?_
  rw [String.toList_intercalate, List.concat_eq_append, List.map_append, List.map_singleton]
  exact Path.intercalate_suffix _ _

/-- Listed paths have different names. -/
theorem Stands.eq_of_name (formed : t.WellFormed) {below' : List String} {p' : Path}
    (h : t.Stands root top below p) (h' : t.Stands root top below' p')
    (same : Path.withoutSuffix modelSuffix (⟨"", below⟩ : Path).toString =
      Path.withoutSuffix modelSuffix (⟨"", below'⟩ : Path).toString) : p = p' := by
  have texts : (⟨"", below⟩ : Path).toString = (⟨"", below'⟩ : Path).toString := by
    rw [h.text, h'.text] at same ⊢
    rw [← Path.withoutSuffix_append h.ends, same, Path.withoutSuffix_append h'.ends]
  have same : (⟨"", below⟩ : Path) = ⟨"", below'⟩ :=
    Path.eq_of_toString rfl ⟨h.some', h'.some'⟩ ⟨h.split formed, h'.split formed⟩ texts
  cases same
  rw [h.path, h'.path]

end Listing
end FileTree
end DataModel
