import DataModel.FileTree.Edit
import DataModel.Proofs.FileTree.Clearing

/-!
Edits of a tree. Whatever is put replaces what stands at its place, so a tree in which every place
has one entry stays one; and of such a tree no path is listed twice.
-/
namespace DataModel.FileTree
variable {t t' : FileTree} {p : Path} {place : Place} {node : Node}

/-- Every place has one entry. -/
def Once (t : FileTree) : Prop := (t.entries.map Prod.fst).Nodup

/-- No path is listed twice. -/
theorem Once.nodup_modelFiles {root : Path} {top : Place} {st : Stamp} {files : List Path}
    (once : t.Once) (found : t.find root = .ok (top, .directory st))
    (listed : t.modelFiles root = .ok files) : files.Nodup := by
  rw [modelFiles_of_directory found] at listed
  cases listed
  have places : t.entries.filterMap (fun e => t.modelPath? root e.1) =
      (t.entries.map Prod.fst).filterMap (t.modelPath? root) := by
    rw [List.filterMap_map]
    rfl
  rw [(List.mergeSort_perm _ _).nodup_iff, places]
  refine List.Nodup.filterMap (fun place place' path h h' => ?_) once
  obtain ⟨top₁, _, below, found₁, -, rfl, path₁⟩ := modelPath?_below h
  obtain ⟨top₂, _, below', found₂, -, rfl, path₂⟩ := modelPath?_below h'
  rw [found] at found₁ found₂
  cases found₁
  cases found₂
  rw [path₁] at path₂
  rw [List.append_cancel_left (congrArg Path.parts path₂)]

section Putting

theorem Once.put (h : t.Once) (place : Place) (node : Node) : (t.put place node).Once := by
  have kept : ((t.entries.filter fun e => e.1 != place).map Prod.fst).Nodup :=
    h.sublist (List.filter_sublist.map _)
  rw [Once, FileTree.put, List.map_append, List.nodup_append]
  refine ⟨kept, List.nodup_singleton _, ?_⟩
  rintro _ old _ new rfl
  obtain ⟨e, member, rfl⟩ := List.mem_map.mp old
  obtain ⟨-, other⟩ := List.mem_filter.mp member
  exact bne_iff_ne.mp other (List.mem_singleton.mp new)

theorem Once.markChanged (h : t.Once) (place : Place) : (t.markChanged place).Once := by
  unfold FileTree.markChanged
  split
  · split
    · exact h
    · exact h.put place _
  · exact h

theorem Once.add (h : t.Once) (place : Place) (node : Node) : (t.add place node).Once :=
  (h.put place node).markChanged _

theorem Once.tick (h : t.Once) (time : Option Rat) : (t.tick time).1.Once := h

end Putting

section Editing

theorem Once.makeDirectories (h : t.Once) (ok : t.makeDirectories p = .ok t') : t'.Once := by
  obtain ⟨-, -, ok⟩ := ok_of_bind ok
  refine foldlM_ok (I := fun _ t => Once t) h (fun _ q _ t t' _ h made => ?_) ok
  split at made
  · split at made
    · cases made
      exact h
    · cases made
  · split at made
    · cases made
      exact h.add _ _
    · cases made
  · cases made
  · cases made

theorem Once.write {content : Content} {time : Option Rat} (h : t.Once)
    (ok : t.write p content time = .ok t') : t'.Once := by
  cases content with
  | bytes b =>
      obtain ⟨made, directories, ok⟩ := ok_of_bind ok
      obtain ⟨place, -, ok⟩ := ok_of_bind ok
      have ticked := (h.makeDirectories directories).tick time
      cases ok
      split
      · exact ticked.put _ _
      · exact ticked.add _ _
  | directory => exact h.makeDirectories ok
  | link target =>
      obtain ⟨made, directories, ok⟩ := ok_of_bind ok
      obtain ⟨-, -, ok⟩ := ok_of_bind ok
      have made' := h.makeDirectories directories
      split at ok
      · cases ok
      · dsimp only at ok
        split at ok
        · cases ok
        · cases ok
          exact made'.add _ _

theorem Once.delete (h : t.Once) (p : Path) : (t.delete p).Once := by
  unfold FileTree.delete
  split
  · exact h
  · split
    · exact h
    · exact Once.markChanged (h.sublist (List.filter_sublist.map _)) _

theorem Once.touch {time : Option Rat} (h : t.Once) (ok : t.touch p time = .ok t') : t'.Once := by
  obtain ⟨⟨place, node⟩, -, ok⟩ := ok_of_bind ok
  cases node with
  | file b st =>
      cases ok
      exact (h.tick time).put _ _
  | directory st =>
      cases ok
      exact (h.tick time).put _ _
  | link target =>
      cases ok
      exact h.tick time

/-- No edit makes a second entry at a place. -/
theorem Once.edit {e : Edit} (h : t.Once) (ok : t.edit e = .ok t') : t'.Once := by
  have begun : Once { t with changes := t.changes + 1 } := h
  cases e with
  | write p content time => exact begun.write ok
  | delete p =>
      cases ok
      exact begun.delete p
  | touch p time => exact begun.touch ok

end Editing
end DataModel.FileTree
