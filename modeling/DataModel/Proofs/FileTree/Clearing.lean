import DataModel.Proofs.FileTree.Resolving
import Mathlib.Data.List.Sort
import Mathlib.Data.String.Basic

/-!
A tree without the model files whose bytes are bad. It has the other model files, and a path that
leads to anything but bad bytes leads there still.
-/
namespace DataModel

namespace Path

theorem le_iff {p q : Path} : p.le q = true ↔
    (if p.root == "" then p.parts else p.root :: p.parts) ≤
      (if q.root == "" then q.parts else q.root :: q.parts) := by
  simp only [le, Bool.not_eq_true', decide_eq_false_iff_not, not_lt]

theorem le_trans {p q r : Path} (h : p.le q = true) (h' : q.le r = true) : p.le r = true :=
  le_iff.mpr ((le_iff.mp h).trans (le_iff.mp h'))

theorem le_total (p q : Path) : (p.le q || q.le p) = true := by
  rw [Bool.or_eq_true, le_iff, le_iff]
  exact Std.Total.total _ _

theorem le_antisymm {p q : Path} (same : p.root = q.root) (h : p.le q = true) (h' : q.le p = true) :
    p = q := by
  have keys := (le_iff.mp h).antisymm (le_iff.mp h')
  obtain ⟨root, parts⟩ := p
  obtain ⟨root', parts'⟩ := q
  cases same
  split at keys
  · exact congrArg _ keys
  · exact congrArg _ (List.cons.inj keys).2

/-- Paths of one root are sorted in only one way. -/
theorem filter_mergeSort {paths : List Path} {root : String} (rooted : ∀ p ∈ paths, p.root = root)
    (keep : Path → Bool) : (paths.mergeSort le).filter keep = (paths.filter keep).mergeSort le := by
  have sorted (l : List Path) : (l.mergeSort le).Pairwise fun p q => p.le q = true :=
    @List.pairwise_mergeSort _ le (fun _ _ _ => le_trans) le_total l
  refine @List.Perm.eq_of_pairwise _ (fun p q => p.le q = true) _ _ ?_
    ((sorted paths).sublist List.filter_sublist) (sorted _) ?_
  · intro p q inside inside'
    have known : p ∈ paths := List.mem_mergeSort.mp (List.mem_of_mem_filter inside)
    have known' : q ∈ paths := List.mem_of_mem_filter (List.mem_mergeSort.mp inside')
    exact le_antisymm ((rooted p known).trans (rooted q known').symm)
  · exact ((paths.mergeSort_perm le).filter keep).trans ((paths.filter keep).mergeSort_perm le).symm

/-- The components of a path hold no slashes. -/
def Split (p : Path) : Prop := ∀ name ∈ p.parts, '/' ∉ name.toList

/-- Paths with components have different texts. -/
theorem eq_of_toString {p q : Path} (same : p.root = q.root) (some' : p.parts ≠ [] ∧ q.parts ≠ [])
    (split : p.Split ∧ q.Split) (text : p.toString = q.toString) : p = q := by
  have parts (p : Path) (some' : p.parts ≠ []) (split : p.Split) :
      List.splitOn '/' ("/".intercalate p.parts).toList = p.parts.map String.toList := by
    rw [String.toList_intercalate]
    refine List.splitOn_intercalate '/' (List.forall_mem_map.mpr split) ?_
    exact fun none' => some' (List.map_eq_nil_iff.mp none')
  have joined : "/".intercalate p.parts = "/".intercalate q.parts := by
    have whole (p : Path) (some' : p.parts ≠ []) :
        p.toString = p.root ++ "/".intercalate p.parts := by
      rw [toString, List.isEmpty_eq_false_iff.mpr some', Bool.and_false]
      rfl
    rw [whole p some'.1, whole q some'.2, same] at text
    exact (String.append_right_inj _).mp text
  have components := parts p some'.1 split.1
  rw [joined, parts q some'.2 split.2] at components
  obtain ⟨root, parts⟩ := p
  obtain ⟨root', parts'⟩ := q
  obtain rfl : root = root' := same
  exact congrArg _ ((List.map_injective_iff.mpr fun _ _ => String.toList_inj.mp) components).symm

end Path

namespace FileTree
variable {t : FileTree} {n : Nat} {here q : Place} {parts : List String} {node : Node}
  {gone : Place → Bool}

section Finding

theorem find_iff {p : Path} : t.find p = .ok (q, node) ↔
    checkPath p = .ok () ∧ t.Walk maxLinks [] p.parts q ∧ t.node? q = some node := by
  rw [walk_iff]
  unfold find
  cases checkPath p with
  | error f => simp [bind, Except.bind]
  | ok u =>
      cases t.locate true maxLinks [] p.parts with
      | error cause => simp [bind, Except.bind, throw, throwThe, MonadExceptOf.throw]
      | ok place =>
          cases there : t.node? place with
          | none =>
              simp only [bind, Except.bind, there]
              constructor
              · rintro ⟨⟩
              · rintro ⟨-, ⟨⟩, there'⟩
                rw [there] at there'
                cases there'
          | some node' =>
              simp only [bind, Except.bind, there]
              constructor
              · rintro ⟨⟩
                exact ⟨trivial, rfl, there⟩
              · rintro ⟨-, ⟨⟩, there'⟩
                rw [there] at there'
                cases there'
                rfl

theorem exists_iff {p : Path} : t.exists? p = .ok true ↔ ∃ q node, t.find p = .ok (q, node) := by
  unfold exists? find?
  cases t.find p with
  | ok found =>
      obtain ⟨q, node⟩ := found
      simp [Except.map]
  | error f =>
      dsimp only
      split
      · simp [Except.map]
      · simp [Except.map]

theorem read_iff {p : Path} {bytes : List UInt8} : t.read p = .ok bytes ↔
    ∃ q st, t.find p = .ok (q, .file bytes st) := by
  unfold read
  cases t.find p with
  | error f => simp [bind, Except.bind]
  | ok found =>
      obtain ⟨q, node⟩ := found
      cases node with
      | file bytes' st => simp [bind, Except.bind, pure, Except.pure]
      | directory st => simp [bind, Except.bind, throw, throwThe, MonadExceptOf.throw]
      | link target => simp [bind, Except.bind, throw, throwThe, MonadExceptOf.throw]

end Finding

section Removing

/-- A tree without the entries at some places. -/
def without (t : FileTree) (gone : Place → Bool) : FileTree :=
  { t with entries := t.entries.filter fun e => !gone e.1 }

theorem node?_without (t : FileTree) (gone : Place → Bool) (place : Place) :
    (t.without gone).node? place =
      if place ≠ [] ∧ gone place = true then none else t.node? place := by
  have entry (entries : List (Place × Node)) : (entries.filter fun e => !gone e.1).lookup place =
      if gone place then none else entries.lookup place := by
    induction entries with
    | nil => simp
    | cons e rest ih =>
        obtain ⟨other, node⟩ := e
        by_cases same : place = other
        · subst same
          cases left : gone place <;> simp [left, ih]
        · have apart : (place == other) = false := beq_false_of_ne same
          cases left : gone other <;> simp [left, ih, List.lookup_cons, apart]
  cases place with
  | nil => simp [node?]
  | cons name rest => simp [node?, without, entry]

theorem node?_kept {place : Place} (kept : gone place = false) :
    (t.without gone).node? place = t.node? place := by
  rw [node?_without, if_neg (by simp [kept])]

theorem node?_of_without {place : Place} (h : (t.without gone).node? place = some node) :
    t.node? place = some node := by
  rw [node?_without] at h
  split at h
  · cases h
  · exact h

/-- Whatever is removed from a directory that can be walked to leads to a file elsewhere. -/
def Apart (t : FileTree) (gone : Place → Bool) (q : Place) : Prop :=
  ∀ before name, gone (before ++ [name]) = true → t.Rooted before →
    ∃ m q', t.Walk m before [name] q' ∧ t.HasFile q' ∧ q' ≠ q

/-- A walk whose first component leads to a file ends there. -/
theorem Walk.stops {m : Nat} {name : String} {rest : List String} {q' : Place}
    (h : t.Walk n here (name :: rest) q) (rooted : t.Rooted here) (first : t.Walk m here [name] q')
    (file : t.HasFile q') : q' = q := by
  have whole : t.Walk n here ([name] ++ rest) q := h
  obtain ⟨between, k, -, start, onward, ended⟩ := whole.split rooted
  obtain rfl := start.unique first
  rcases ended with rfl | rooted'
  · cases onward
    rfl
  · exact absurd rooted' file.not_rooted

theorem Walk.passes {name : String} {rest : List String} (h : t.Walk n here (name :: rest) q)
    (rooted : t.Rooted here) (apart : t.Apart gone q) :
    (t.without gone).node? (here ++ [name]) = t.node? (here ++ [name]) := by
  refine node?_kept (Bool.eq_false_iff.mpr fun left => ?_)
  obtain ⟨m, q', first, file, other⟩ := apart here name left rooted
  exact other (h.stops rooted first file)

/-- A walk passes by what leads elsewhere. -/
theorem Walk.without (h : t.Walk n here parts q) (rooted : t.Rooted here)
    (apart : t.Apart gone q) : (t.without gone).Walk n here parts q := by
  induction h with
  | done n here => exact .done n here
  | up more ih => exact .up (ih rooted.dropLast apart)
  | enter plain short node more ih =>
      have same := Walk.passes (.enter plain short node more) rooted apart
      exact .enter plain short (same.trans node) (ih (rooted.snoc plain short node) apart)
  | @file n _ _ _ _ plain short node =>
      have same := Walk.passes (n := n) (.file plain short node) rooted apart
      exact .file plain short (same.trans node)
  | follow plain short node more ih =>
      have same := Walk.passes (.follow plain short node more) rooted apart
      exact .follow plain short (same.trans node) (ih (rooted.base _) apart)

theorem find_without {p : Path} (found : t.find p = .ok (q, node)) (apart : t.Apart gone q) :
    (t.without gone).find p = .ok (q, node) := by
  obtain ⟨allowed, walk, there⟩ := find_iff.mp found
  have walk' := walk.without rooted_nil apart
  refine find_iff.mpr ⟨allowed, walk', ?_⟩
  obtain ⟨node', there'⟩ : ∃ node', (t.without gone).node? q = some node' := by
    rcases walk'.ends rooted_nil with rooted | ⟨_, _, bytes, st, -, -, -, -, file⟩
    · obtain ⟨st, directory⟩ := rooted.directory
      exact ⟨_, directory⟩
    · exact ⟨_, file⟩
  rw [there']
  exact (node?_of_without there').symm.trans there

theorem without_nothing (t : FileTree) : (t.without fun _ => false) = t := by
  have all : (t.entries.filter fun _ => !false) = t.entries := List.filter_eq_self.mpr fun _ _ => rfl
  rw [without, all]

end Removing

section Clearing
variable {root p : Path} {bad : List UInt8 → Bool} {top : Place} {st : Stamp}

/-- The path by which an entry below the root is a model file. -/
def modelPath? (t : FileTree) (root : Path) (place : Place) : Option Path :=
  match t.find root with
  | .ok (top, .directory _) =>
    let below := if top.isPrefixOf place && top.length < place.length then
      some (place.drop top.length) else none
    (below.filter fun p => modelSuffix.toList.isSuffixOf ((p.getLast?.getD "").toList)).map fun p =>
      { root with parts := root.parts ++ p }
  | _ => none

/-- A path leads to bad bytes. -/
def spoilt (t : FileTree) (bad : List UInt8 → Bool) (p : Path) : Bool :=
  match t.read p with
  | .ok bytes => bad bytes
  | .error _ => false

/-- A tree without the model files whose bytes are bad, and without the links to them. -/
def cleared (t : FileTree) (root : Path) (bad : List UInt8 → Bool) : FileTree :=
  t.without fun place => (t.modelPath? root place).any (t.spoilt bad)

theorem entries_cleared (t : FileTree) (root : Path) (bad : List UInt8 → Bool) :
    (t.cleared root bad).entries =
      t.entries.filter fun e => !(t.modelPath? root e.1).any (t.spoilt bad) := rfl

theorem modelPath?_of_directory (found : t.find root = .ok (top, .directory st)) (place : Place) :
    t.modelPath? root place =
      ((if top.isPrefixOf place && top.length < place.length then some (place.drop top.length)
        else none).filter fun p =>
          modelSuffix.toList.isSuffixOf ((p.getLast?.getD "").toList)).map fun p =>
        { root with parts := root.parts ++ p } := by
  rw [modelPath?, found]

theorem modelPath?_below {place : Place} (h : t.modelPath? root place = some p) :
    ∃ top st below, t.find root = .ok (top, .directory st) ∧ below ≠ [] ∧ place = top ++ below ∧
      p = { root with parts := root.parts ++ below } := by
  obtain ⟨top, st, found⟩ : ∃ top st, t.find root = .ok (top, .directory st) := by
    unfold modelPath? at h
    split at h
    · next top st found => exact ⟨top, st, found⟩
    · cases h
  rw [modelPath?_of_directory found, Option.map_eq_some_iff] at h
  obtain ⟨below, inside, rfl⟩ := h
  obtain ⟨inside, -⟩ := Option.filter_eq_some_iff.mp inside
  split at inside
  · next within =>
    rw [Bool.and_eq_true, List.isPrefixOf_iff_prefix, decide_eq_true_eq] at within
    obtain ⟨⟨rest, rfl⟩, longer⟩ := within
    cases inside
    rw [List.drop_left]
    refine ⟨top, st, rest, found, ?_, rfl, rfl⟩
    rintro rfl
    simp at longer
  · cases inside

theorem modelFiles_of_directory (found : t.find root = .ok (top, .directory st)) :
    t.modelFiles root =
      .ok ((t.entries.filterMap fun e => t.modelPath? root e.1).mergeSort Path.le) := by
  have directory : t.isDirectory root = .ok true := by
    simp [isDirectory, find?, found, Except.map]
  rw [modelFiles, directory]
  simp only [found, bind, Except.bind, Bool.not_true, pure, Except.pure, List.filter_filterMap,
    List.map_filterMap, modelPath?_of_directory found]
  rfl

theorem mem_modelFiles {files : List Path} (found : t.find root = .ok (top, .directory st))
    (listed : t.modelFiles root = .ok files) (member : p ∈ files) :
    p.root = root.root ∧ p.parts ≠ [] := by
  rw [modelFiles_of_directory found] at listed
  cases listed
  obtain ⟨e, -, listed⟩ := List.mem_filterMap.mp (List.mem_mergeSort.mp member)
  obtain ⟨-, -, below, -, some', -, rfl⟩ := modelPath?_below listed
  exact ⟨rfl, List.append_ne_nil_of_right_ne_nil _ some'⟩

/-- Where the root is no directory there are no model files. -/
theorem modelFiles_of_other {files : List Path}
    (other : ∀ top st, t.find root ≠ .ok (top, .directory st))
    (listed : t.modelFiles root = .ok files) : files = [] := by
  unfold modelFiles isDirectory find? at listed
  cases found : t.find root with
  | error f =>
      simp only [found] at listed
      split at listed
      · cases listed
      · cases listed
        rfl
  | ok place =>
      obtain ⟨top, node⟩ := place
      cases node with
      | directory st => exact absurd found (other top st)
      | file bytes st =>
          simp only [found] at listed
          cases listed
          rfl
      | link target =>
          simp only [found] at listed
          cases listed
          rfl

theorem cleared_of_other (other : ∀ top st, t.find root ≠ .ok (top, .directory st))
    (bad : List UInt8 → Bool) : t.cleared root bad = t := by
  have nowhere (place : Place) : t.modelPath? root place = none := by
    unfold modelPath?
    split
    · next top st found => exact absurd found (other top st)
    · rfl
  simp only [cleared, nowhere, Option.any_none]
  exact t.without_nothing

theorem spoilt_iff : t.spoilt bad p = true ↔ ∃ bytes, t.read p = .ok bytes ∧ bad bytes = true := by
  unfold spoilt
  cases t.read p with
  | ok bytes => simp
  | error f => simp

/-- The bad model files lead elsewhere than a path that does not lead to bad bytes. -/
theorem apart_of_sound (found : t.find p = .ok (q, node))
    (sound : ∀ bytes st, node = .file bytes st → bad bytes = false) :
    t.Apart (fun place => (t.modelPath? root place).any (t.spoilt bad)) q := by
  intro before name removed rooted
  obtain ⟨p', listed, spoils⟩ := (Option.any_eq_true _ _).mp removed
  obtain ⟨bytes, read, wrong⟩ := spoilt_iff.mp spoils
  obtain ⟨q', st', found'⟩ := read_iff.mp read
  obtain ⟨top, st, below, found₀, some', whole, rfl⟩ := modelPath?_below listed
  obtain ⟨mid, last, rfl⟩ := below.eq_nil_or_concat.resolve_left some'
  rw [List.concat_eq_append, ← List.append_assoc] at whole
  obtain ⟨rfl, ends⟩ := List.append_inj' whole rfl
  obtain rfl := List.singleton_inj.mp ends
  obtain ⟨-, walk₀, -⟩ := find_iff.mp found₀
  obtain ⟨-, walk', there'⟩ := find_iff.mp found'
  obtain ⟨between, k, -, first, onward, ended⟩ := walk'.split rooted_nil
  obtain rfl := first.unique walk₀
  rw [List.concat_eq_append] at onward
  obtain ⟨m, walk⟩ := onward.onward rooted
  refine ⟨m, q', walk, ?_, ?_⟩
  · refine (walk'.ends rooted_nil).resolve_left fun rooted' => ?_
    obtain ⟨_, directory⟩ := rooted'.directory
    rw [directory] at there'
    cases there'
  · rintro rfl
    obtain ⟨-, -, there⟩ := find_iff.mp found
    rw [there'] at there
    cases there
    rw [sound bytes st' rfl] at wrong
    cases wrong

theorem find_cleared (found : t.find p = .ok (q, node))
    (sound : ∀ bytes st, node = .file bytes st → bad bytes = false) :
    (t.cleared root bad).find p = .ok (q, node) :=
  find_without found (apart_of_sound found sound)

/-- A tree that is cleared has the model files that are left. -/
theorem modelFiles_cleared (t : FileTree) (root : Path) (bad : List UInt8 → Bool) :
    (t.cleared root bad).modelFiles root =
      (t.modelFiles root).map fun files => files.filter fun p => !t.spoilt bad p := by
  by_cases directory : ∃ top st, t.find root = .ok (top, .directory st)
  · obtain ⟨top, st, found⟩ := directory
    have found' : (t.cleared root bad).find root = .ok (top, .directory st) :=
      find_cleared found (by rintro _ _ ⟨⟩)
    have same (place : Place) :
        (t.cleared root bad).modelPath? root place = t.modelPath? root place := by
      rw [modelPath?_of_directory found, modelPath?_of_directory found']
    rw [modelFiles_of_directory found, modelFiles_of_directory found', Except.map]
    refine congrArg Except.ok ?_
    have rooted : ∀ p ∈ t.entries.filterMap (fun e => t.modelPath? root e.1), p.root = root.root := by
      intro p inside
      obtain ⟨e, -, listed⟩ := List.mem_filterMap.mp inside
      obtain ⟨-, -, below, -, -, -, rfl⟩ := modelPath?_below listed
      rfl
    rw [Path.filter_mergeSort rooted, List.filter_filterMap]
    simp only [same, entries_cleared, List.filterMap_filter]
    refine congrArg (List.mergeSort · Path.le) (List.filterMap_congr fun e _ => ?_)
    cases listed : t.modelPath? root e.1 with
    | none => simp
    | some p => simp [Option.filter]
  · have other : ∀ top st, t.find root ≠ .ok (top, .directory st) := fun top st found =>
      directory ⟨top, st, found⟩
    rw [cleared_of_other other]
    cases listed : t.modelFiles root with
    | error f => rfl
    | ok files =>
        rw [modelFiles_of_other other listed]
        rfl

end Clearing
end FileTree
end DataModel
