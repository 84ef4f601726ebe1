import DataModel.Proofs.FileTree.Walking
import DataModel.Proofs.Store.Sound

/-!
What a batch is made of. Its members are staged versions and new ones, all as they were loaded and
each under one name; versions that neither wait nor are new are left out of it. Loading a committed
file again always gives a file, since its text gave one before.
-/
namespace DataModel

namespace Store
variable {s : Store} {t : FileTree}

section Renewing

/-- What the next batch does about one of its names: a file that is not staged is loaded again. -/
def renew (s : Store) (t : FileTree) : Model × Table VersionId → String →
    Except Interruption (Model × Table VersionId) := fun (m, view) name => do
  if s.staged.has name then return (m, view)
  else
    match view.get? name with
    | none => return (m, view)
    | some v =>
      match ← s.reload t m v with
      | none => return (m, view)
      | some (m, fresh) => return (m, view.put name fresh)

section Renew
variable {m : Model} {view : Table VersionId} {name : String}

theorem renew_pending (h : name ∈ s.pending) : s.renew t (m, view) name = .ok (m, view) := by
  unfold renew
  dsimp only
  rw [if_pos (Table.has_iff.mpr h)]
  rfl

/-- A committed file is loaded again from its own text, under the name that its path has now. -/
theorem renew_committed {v : VersionId} {old f : ModelFile} {now : String}
    (free : name ∉ s.pending) (found : view.get? name = some v) (known : m.file? v = some old)
    (named : s.fileName t (.ofString old.path) = .ok now)
    (parsed : Grammar.loadText s.settings.app ⟨now, old.path, old.source⟩ = .ok (some f)) :
    s.renew t (m, view) name = .ok ((m.add f).1, view.put name (m.add f).2) := by
  have again : s.reload t m v = .ok (some (m.add f)) := by
    simp only [reload, known, named, parsed]
    rfl
  unfold renew
  dsimp only
  rw [if_neg (mt Table.has_iff.mp free), found]
  dsimp only
  rw [again]
  rfl

/-- The same for a store whose settings are known. -/
theorem renew_again {settings : Settings} {v : VersionId} {old f : ModelFile} {now : String}
    (settled : s.settings = settings) (free : name ∉ s.pending) (found : view.get? name = some v)
    (known : m.file? v = some old)
    (named : settings.fileName t ⟨"/", []⟩ (.ofString old.path) = .ok now)
    (parsed : Grammar.loadText settings.app ⟨now, old.path, old.source⟩ = .ok (some f)) :
    s.renew t (m, view) name = .ok ((m.add f).1, view.put name (m.add f).2) := by
  subst settled
  exact renew_committed free found known named parsed

/-- The next batch is put together name by name. -/
theorem nextBatch_eq (s : Store) (t : FileTree) :
    s.nextBatch t = (s.batchNames.foldlM (s.renew t) (s.model, s.view)).map
      fun (m, view) => ⟨m, view, s.batchNames.filterMap view.get?⟩ := by
  have loop : s.nextBatch t = s.batchNames.foldlM (s.renew t) (s.model, s.view) >>=
      fun (m, view) => .ok ⟨m, view, s.batchNames.filterMap view.get?⟩ := rfl
  rw [loop]
  cases s.batchNames.foldlM (s.renew t) (s.model, s.view) with
  | error i => rfl
  | ok r => rfl

end Renew

/-- A file that a batch loads again, and the version it comes from. -/
structure Reloaded (s : Store) (t : FileTree) (name : String) (f : ModelFile) : Prop where
  free : name ∉ s.pending
  source : ∃ w old, s.committed.get? name = some w ∧ s.model.file? w = some old ∧
    f.path = old.path ∧ f.source = old.source ∧ s.fileName t (.ofString old.path) = .ok f.name

/-- A version that a batch resolves under a name. -/
def Member (s : Store) (t : FileTree) (m : Model) (name : String) (v : VersionId) : Prop :=
  ∃ f, m.version? v = some (.fresh v f) ∧ f.IsLoaded s.settings.app ∧
    (s.staged.get? name = some (some v) ∨ (¬ s.model.Has v ∧ s.Reloaded t name f))

/-- What holds while the next batch is put together, after some of its names. -/
structure Renews (s : Store) (t : FileTree) (done : List String) (m : Model)
    (view : Table VersionId) : Prop where
  keys : view.keys = s.view.keys
  old : ∀ {v}, s.model.Has v → m.version? v = s.model.version? v
  kept : ∀ {name}, name ∉ done → view.get? name = s.view.get? name
  member : ∀ {name v}, name ∈ done → view.get? name = some v → s.Member t m name v
  new : ∀ {v}, m.Has v → s.model.Has v ∨ ∃ name ∈ done, view.get? name = some v
  once : ∀ {name name' v}, name ∈ done → name' ∈ done → view.get? name = some v →
    view.get? name' = some v → name = name'

theorem Renews.start (s : Store) (t : FileTree) : s.Renews t [] s.model s.view where
  keys := rfl
  old _ := rfl
  kept _ := rfl
  member h := absurd h List.not_mem_nil
  new there := .inl there
  once h := absurd h List.not_mem_nil

theorem has_of_waits (sound : s.Sound) {v : VersionId} (h : s.Waits v) : s.model.Has v := by
  obtain ⟨f, found, -⟩ := sound.fresh h
  exact Model.has_of_version? found

theorem has_of_view (sound : s.Sound) {name : String} {v : VersionId}
    (h : s.view.get? name = some v) : s.model.Has v := by
  rw [get?_view sound.stagedOnce] at h
  cases change : s.staged.get? name with
  | none =>
      rw [change, Option.getD_none] at h
      exact (sound.committed h).1
  | some c =>
      rw [change, Option.getD_some] at h
      subst h
      exact has_of_waits sound ⟨name, change⟩

section Steps
variable {done : List String} {m : Model} {view : Table VersionId} {name : String}

/-- A name that stays as it is. -/
theorem Renews.skip (h : s.Renews t done m view) (sound : s.Sound)
    (here : ∀ v, s.view.get? name = some v → s.staged.get? name = some (some v)) :
    s.Renews t (done ++ [name]) m view := by
  have after : ∀ {n v}, n ∈ done ++ [name] → view.get? n = some v →
      n ∈ done ∨ (n = name ∧ s.staged.get? name = some (some v)) := by
    intro n v hn found
    by_cases early : n ∈ done
    · exact .inl early
    · rcases List.mem_append.mp hn with old | last
      · exact .inl old
      · cases List.mem_singleton.mp last
        rw [h.kept early] at found
        exact .inr ⟨rfl, here v found⟩
  have member : ∀ {n v}, n ∈ done ++ [name] → view.get? n = some v → s.Member t m n v := by
    intro n v hn found
    rcases after hn found with early | ⟨rfl, waiting⟩
    · exact h.member early found
    · obtain ⟨f, fresh, loaded⟩ := sound.fresh ⟨n, waiting⟩
      rw [← h.old (Model.has_of_version? fresh)] at fresh
      exact ⟨f, fresh, loaded, .inl waiting⟩
  refine ⟨h.keys, h.old, fun hn => h.kept fun early => hn (List.mem_append_left _ early), member,
    ?_, ?_⟩
  · intro v there
    refine (h.new there).imp_right ?_
    rintro ⟨n, hn, found⟩
    exact ⟨n, List.mem_append_left _ hn, found⟩
  · intro n n' v hn hn' found found'
    have waiting : ∀ {n}, s.staged.get? n = some (some v) → ∀ {n'}, s.Member t m n' v →
        n = n' := by
      intro n waiting n' ⟨f, _, _, origin⟩
      rcases origin with waiting' | ⟨new, _⟩
      · exact (sound.named waiting).symm.trans (sound.named waiting')
      · exact absurd (has_of_waits sound ⟨n, waiting⟩) new
    rcases after hn found with early | ⟨rfl, staged⟩
    · rcases after hn' found' with early' | ⟨rfl, staged'⟩
      · exact h.once early early' found found'
      · exact (waiting staged' (member hn found)).symm
    · exact waiting staged (member hn' found')

/-- A name under which a new version comes. -/
theorem Renews.add (h : s.Renews t done m view) (new : name ∉ done) (there : name ∈ view.keys)
    {f : ModelFile} (loaded : f.IsLoaded s.settings.app) (reloaded : s.Reloaded t name f) :
    s.Renews t (done ++ [name]) (m.add f).1 (view.put name (m.add f).2) := by
  have other : ∀ {n}, n ≠ name → (view.put name (m.add f).2).get? n = view.get? n := by
    intro n other
    rw [Table.get?_put, if_neg other]
  have self : (view.put name (m.add f).2).get? name = some (m.add f).2 := by
    rw [Table.get?_put, if_pos rfl]
  have has : ∀ {v}, s.model.Has v → m.Has v := by
    intro v there
    rw [Model.has_iff, h.old there, ← Model.has_iff]
    exact there
  have apart : ∀ {n}, n ∈ done → n ≠ name := by
    rintro n hn rfl
    exact new hn
  have notNew : ∀ {n v}, n ∈ done → view.get? n = some v → v ≠ (m.add f).2 := by
    rintro n v hn found rfl
    obtain ⟨f', fresh, -⟩ := h.member hn found
    exact Model.not_has_add m f (Model.has_of_version? fresh)
  refine ⟨(Table.keys_put_of_mem there).trans h.keys, ?_, ?_, ?_, ?_, ?_⟩
  · intro v there
    exact (Model.version?_add_old f (has there)).trans (h.old there)
  · intro n hn
    rw [List.mem_append, List.mem_singleton, not_or] at hn
    rw [other hn.2, h.kept hn.1]
  · intro n v hn found
    rcases List.mem_append.mp hn with early | last
    · rw [other (apart early)] at found
      obtain ⟨f', fresh, rest⟩ := h.member early found
      rw [← Model.version?_add_old f (Model.has_of_version? fresh)] at fresh
      exact ⟨f', fresh, rest⟩
    · cases List.mem_singleton.mp last
      rw [self] at found
      cases found
      exact ⟨f, Model.version?_add_new m f, loaded,
        .inr ⟨fun old => Model.not_has_add m f (has old), reloaded⟩⟩
  · intro v there
    rcases Model.has_add.mp there with rfl | before
    · exact .inr ⟨name, List.mem_append_right _ (List.mem_singleton_self _), self⟩
    · refine (h.new before).imp_right ?_
      rintro ⟨n, hn, found⟩
      exact ⟨n, List.mem_append_left _ hn, (other (apart hn)).trans found⟩
  · intro n n' v hn hn' found found'
    rcases List.mem_append.mp hn with early | last
    · rw [other (apart early)] at found
      rcases List.mem_append.mp hn' with early' | last'
      · rw [other (apart early')] at found'
        exact h.once early early' found found'
      · cases List.mem_singleton.mp last'
        rw [self] at found'
        exact absurd (Option.some.inj found').symm (notNew early found)
    · cases List.mem_singleton.mp last
      rw [self] at found
      rcases List.mem_append.mp hn' with early' | last'
      · rw [other (apart early')] at found'
        exact absurd (Option.some.inj found).symm (notNew early' found')
      · exact (List.mem_singleton.mp last').symm

/-- Loading a committed file again gives a file, whatever its name is now. -/
theorem reload_ok (sound : s.Sound) (old : ∀ {v}, s.model.Has v → m.version? v = s.model.version? v)
    {v : VersionId} (there : s.model.Has v) {r : Option (Model × VersionId)}
    (done : s.reload t m v = .ok r) : ∃ f file, r = some (m.add f) ∧ f.IsLoaded s.settings.app ∧
      s.model.file? v = some file ∧ f.path = file.path ∧ f.source = file.source ∧
      s.fileName t (.ofString file.path) = .ok f.name := by
  obtain ⟨ver, known⟩ := Model.has_iff.mp there
  have file : s.model.file? v = some ver.file := by rw [Model.file?, known]; rfl
  obtain ⟨f₀, loaded, bare⟩ := sound.loaded file
  have source : f₀.bare.source = ver.file.bare.source := congrArg ModelFile.source bare
  rw [reload, Model.file?_congr (old there), file] at done
  dsimp only at done
  cases place : s.fileName t (.ofString ver.file.path) with
  | error e =>
      rw [place] at done
      cases done
  | ok name =>
      rw [place] at done
      dsimp only at done
      cases text : Grammar.loadText s.settings.app ⟨name, ver.file.path, ver.file.source⟩ with
      | error e =>
          rw [text] at done
          cases done
      | ok fresh =>
          rw [text] at done
          cases fresh with
          | none => exact absurd text (Grammar.loadText_ne_none loaded source.symm)
          | some f =>
              cases done
              have from' := Grammar.loadText_loadedFrom text
              exact ⟨f, ver.file, rfl, ModelFile.isLoaded_of_loadText text, file, from'.path,
                from'.source, from'.name ▸ place⟩

theorem Renews.step (h : s.Renews t done m view) (sound : s.Sound) (new : name ∉ done)
    {r : Model × Table VersionId} (ok : s.renew t (m, view) name = .ok r) :
    s.Renews t (done ++ [name]) r.1 r.2 := by
  unfold renew at ok
  dsimp only at ok
  by_cases staged : s.staged.has name = true
  · rw [if_pos staged] at ok
    cases ok
    refine h.skip sound fun v found => ?_
    obtain ⟨c, change⟩ := Table.exists_get? (Table.has_iff.mp staged)
    rw [get?_view sound.stagedOnce, change, Option.getD_some] at found
    rw [change, found]
  · rw [if_neg staged] at ok
    have free : name ∉ s.pending := fun pending => staged (Table.has_iff.mpr pending)
    have viewed := h.kept new
    cases found : view.get? name with
    | none =>
        rw [found] at ok viewed
        cases ok
        refine h.skip sound fun v found' => ?_
        rw [found'] at viewed
        cases viewed
    | some v =>
        rw [found] at ok viewed
        dsimp only at ok
        have there := has_of_view sound viewed.symm
        cases again : s.reload t m v with
        | error i =>
            rw [again] at ok
            cases ok
        | ok renewed =>
            obtain ⟨f, file, rfl, loaded, known, path, source, named⟩ :=
              reload_ok sound h.old there again
            rw [again] at ok
            cases ok
            rw [get?_view_unstaged sound.stagedOnce free] at viewed
            exact h.add new (Table.mem_keys_of_get? found) loaded
              ⟨free, v, file, viewed.symm, known, path, source, named⟩

end Steps

end Renewing

section Prepared
variable {b : Batch}

/-- A batch of a store, ready to be resolved. -/
structure Prepared (s : Store) (t : FileTree) (b : Batch) : Prop extends
    s.Renews t s.batchNames b.model b.view where
  members : b.members = s.batchNames.filterMap b.view.get?

theorem nextBatch_prepared (sound : s.Sound) (done : s.nextBatch t = .ok b) : s.Prepared t b := by
  rw [nextBatch_eq] at done
  cases run : s.batchNames.foldlM (s.renew t) (s.model, s.view) with
  | error i =>
      rw [run] at done
      cases done
  | ok r =>
      obtain ⟨model, view⟩ := r
      rw [run] at done
      cases done
      refine ⟨?_, rfl⟩
      have distinct := nodup_batchNames sound.committedOnce
      refine foldlM_ok (I := fun done r => s.Renews t done r.1 r.2) (.start s t) ?_ run
      intro before name after r r' whole holds step
      refine Renews.step holds sound ?_ step
      rw [whole, List.nodup_append'] at distinct
      exact fun member => distinct.2.2 member List.mem_cons_self

namespace Prepared
variable (h : s.Prepared t b)
include h

theorem mem_members {v : VersionId} :
    v ∈ b.members ↔ ∃ name ∈ s.batchNames, b.view.get? name = some v := by
  rw [h.members, List.mem_filterMap]

theorem nodup_members (sound : s.Sound) : b.members.Nodup := by
  rw [h.members, List.Nodup, List.pairwise_filterMap]
  refine (nodup_batchNames sound.committedOnce).imp_of_mem ?_
  rintro name name' hn hn' apart v found v' found' rfl
  exact apart (h.once hn hn' found found')

theorem fresh {v : VersionId} (member : v ∈ b.members) :
    ∃ f, b.model.version? v = some (.fresh v f) ∧ f.IsLoaded s.settings.app := by
  obtain ⟨name, hn, found⟩ := h.mem_members.mp member
  obtain ⟨f, fresh, loaded, -⟩ := h.member hn found
  exact ⟨f, fresh, loaded⟩

theorem has {v : VersionId} (there : s.model.Has v) : b.model.Has v := by
  rw [Model.has_iff, h.old there, ← Model.has_iff]
  exact there

/-- What a batch resolves waited before or is new. -/
theorem waits_of_member {v : VersionId} (member : v ∈ b.members) :
    s.Waits v ∨ ¬ s.model.Has v := by
  obtain ⟨name, hn, found⟩ := h.mem_members.mp member
  obtain ⟨f, -, -, origin⟩ := h.member hn found
  exact origin.imp (fun staged => ⟨name, staged⟩) And.left

theorem has_of_view (sound : s.Sound) {name : String} {v : VersionId}
    (found : b.view.get? name = some v) : b.model.Has v := by
  by_cases inside : name ∈ s.batchNames
  · obtain ⟨f, fresh, -⟩ := h.member inside found
    exact Model.has_of_version? fresh
  · rw [h.kept inside] at found
    exact h.has (Store.has_of_view sound found)

end Prepared

end Prepared

end Store
end DataModel
