import DataModel.Proofs.Store.Resolving

/-!
Applying what is pending. However it ends, nothing waits afterwards, versions that did not wait
stay as they were, and the files are the committed ones of before or those of a batch without
errors.
-/
namespace DataModel.Store
variable {s : Store} {t : FileTree}

/-- The ways in which applying a batch ends: before it is resolved, with the files of before, or
with those of the batch. A watcher may interrupt the last two. -/
inductive Applied (s : Store) (t : FileTree) : Except Interruption Bool → Store → Prop
  | interrupted (i : Interruption)
    (unresolved : ∀ b, s.nextBatch t = .ok b → ∀ r, b.resolve s.settings ≠ .ok r) :
    Applied s t (.error i) s
  | rejected {b : Batch} {r : BatchResult} {result : Except Interruption Bool}
    (next : s.nextBatch t = .ok b) (resolved : b.resolve s.settings = .ok r)
    (told : result = .ok false ∨ ∃ w, result = .error (.watcher w .errors))
    (wrong : result = .ok false → ¬ Resolution.Clean (r.found.flatMap (·.2))) :
    Applied s t result { s with model := r.model }
  | committed {b : Batch} {r : BatchResult} {result : Except Interruption Bool}
    (next : s.nextBatch t = .ok b) (resolved : b.resolve s.settings = .ok r)
    (told : result = .ok true ∨ ∃ w, result = .error (.watcher w .changed))
    (clean : Resolution.Clean (r.found.flatMap (·.2))) :
    Applied s t result { s with model := r.model, committed := s.commit b }

theorem tell_watcher {stage : Stage} {event : String → StoreEvent} {watchers : List Watcher}
    {i : Interruption} (h : (tell stage event watchers).2 = some i) :
    ∃ w, i = .watcher w stage := by
  induction watchers with
  | nil => cases h
  | cons w rest ih =>
      rw [tell] at h
      split at h
      · cases h
        exact ⟨_, rfl⟩
      · exact ih h

theorem clean_iff {ds : List Diagnostic} :
    ds.any (·.isError) = false ↔ Resolution.Clean ds := by
  rw [List.any_eq_false]
  exact forall₂_congr fun d _ => Bool.not_eq_true _ ▸ Iff.rfl

theorem applyBatch_applied (s : Store) (t : FileTree) :
    Applied s t (s.applyBatch t).result (s.applyBatch t).store := by
  unfold applyBatch
  cases next : s.nextBatch t with
  | error i =>
      refine .interrupted i fun b prepared => ?_
      rw [next] at prepared
      cases prepared
  | ok b =>
      dsimp only
      cases resolved : b.resolve s.settings with
      | error stuck =>
          refine .interrupted (.stuck stuck) fun b' prepared r done => ?_
          rw [next] at prepared
          cases prepared
          rw [resolved] at done
          cases done
      | ok r =>
          dsimp only
          cases errors : (tell .errors (.diagnosed · r.found) s.watchers).2 with
          | some i =>
              obtain ⟨w, rfl⟩ := tell_watcher errors
              exact .rejected next resolved (.inr ⟨w, rfl⟩) nofun
          | none =>
              dsimp only
              by_cases wrong : (r.found.flatMap (·.2)).any (·.isError) = true
              · rw [if_pos wrong]
                refine .rejected next resolved (.inl rfl) fun _ clean => ?_
                rw [clean_iff.mpr clean] at wrong
                cases wrong
              · rw [if_neg wrong]
                have clean := clean_iff.mp (Bool.not_eq_true _ ▸ wrong)
                cases changed : (tell .changed (.changed · r.ordered) s.watchers).2 with
                | some i =>
                    obtain ⟨w, rfl⟩ := tell_watcher changed
                    exact .committed next resolved (.inr ⟨w, rfl⟩) clean
                | none => exact .committed next resolved (.inl rfl) clean

/-- What stays staged when a batch has ended. -/
def leftover (s : Store) (result : Except Interruption Bool) : Table (Option VersionId) :=
  match result with
  | .ok true => []
  | _ => s.removals

theorem applyUpdates_of_empty (h : s.staged = []) : s.applyUpdates t = ⟨.ok true, s, []⟩ := by
  rw [applyUpdates, h]
  rfl

theorem applyUpdates_applied (h : s.staged ≠ []) : ∃ after,
    Applied s t (s.applyUpdates t).result after ∧
      (s.applyUpdates t).store = { after with staged := s.leftover (s.applyUpdates t).result } := by
  have staged : s.staged.isEmpty = false := List.isEmpty_eq_false_iff.mpr h
  have ends : s.applyUpdates t =
      { s.applyBatch t with store := { (s.applyBatch t).store with
        staged := s.leftover (s.applyBatch t).result } } := by
    rw [applyUpdates, staged]
    rfl
  rw [ends]
  exact ⟨(s.applyBatch t).store, applyBatch_applied s t, rfl⟩

/-- What is applied without an interruption was resolved. -/
theorem applyUpdates_resolves (some' : s.staged ≠ []) {answer : Bool}
    (ended : (s.applyUpdates t).result = .ok answer) :
    ∃ b r, s.nextBatch t = .ok b ∧ b.resolve s.settings = .ok r := by
  obtain ⟨after, applied, -⟩ := applyUpdates_applied (t := t) some'
  rw [ended] at applied
  cases applied with
  | rejected next resolved _ _ => exact ⟨_, _, next, resolved⟩
  | committed next resolved _ _ => exact ⟨_, _, next, resolved⟩

/-- Where nobody watches, a batch without errors is committed. -/
theorem applyUpdates_quiet {b : Batch} {r : BatchResult} (some' : s.staged ≠ [])
    (quiet : s.watchers = []) (next : s.nextBatch t = .ok b)
    (resolved : b.resolve s.settings = .ok r) (clean : Resolution.Clean (r.found.flatMap (·.2))) :
    (s.applyUpdates t).store =
      { s with model := r.model, committed := s.commit b, staged := [] } := by
  have staged : s.staged.isEmpty = false := List.isEmpty_eq_false_iff.mpr some'
  have fine : (r.found.flatMap (·.2)).any (·.isError) = false := clean_iff.mpr clean
  rw [applyUpdates, staged, applyBatch, next]
  dsimp only
  rw [resolved]
  simp only [quiet, tell, fine]
  rfl

theorem applyUpdates_answers {b : Batch} {r : BatchResult} (some' : s.staged ≠ [])
    (quiet : s.watchers = []) (next : s.nextBatch t = .ok b)
    (resolved : b.resolve s.settings = .ok r) (clean : Resolution.Clean (r.found.flatMap (·.2))) :
    (s.applyUpdates t).result = .ok true := by
  have staged : s.staged.isEmpty = false := List.isEmpty_eq_false_iff.mpr some'
  have fine : (r.found.flatMap (·.2)).any (·.isError) = false := clean_iff.mpr clean
  rw [applyUpdates, staged, applyBatch, next]
  dsimp only
  rw [resolved]
  simp only [quiet, tell, fine]
  rfl

/-- Where nobody watches, a batch with errors leaves its removals to the next one. -/
theorem applyUpdates_refuses {b : Batch} {r : BatchResult} (some' : s.staged ≠ [])
    (quiet : s.watchers = []) (next : s.nextBatch t = .ok b)
    (resolved : b.resolve s.settings = .ok r)
    (wrong : (r.found.flatMap (·.2)).any (·.isError) = true) :
    (s.applyUpdates t).store = { s with model := r.model, staged := s.removals } := by
  have staged : s.staged.isEmpty = false := List.isEmpty_eq_false_iff.mpr some'
  rw [applyUpdates, staged, applyBatch, next]
  dsimp only
  rw [resolved]
  simp only [quiet, tell, wrong]
  rfl

section Soundness

theorem leftover_cases (s : Store) (result : Except Interruption Bool) :
    s.leftover result = [] ∨ s.leftover result = s.removals := by
  unfold leftover
  split
  · exact .inl rfl
  · exact .inr rfl

theorem leftover_once (sound : s.Sound) (result : Except Interruption Bool) :
    (s.leftover result).keys.Nodup := by
  rcases s.leftover_cases result with none' | removals
  · rw [none']
    exact List.nodup_nil
  · rw [removals]
    exact nodup_removals sound.stagedOnce

theorem leftover_idle (s : Store) (result : Except Interruption Bool) {name : String}
    {c : Option VersionId} (h : (s.leftover result).get? name = some c) : c = none := by
  rcases s.leftover_cases result with none' | removals
  · rw [none'] at h
    cases h
  · rw [removals] at h
    exact (mem_removals.mp (Table.mem_of_get? h)).2

/-- A store in which nothing waits is sound if its links end in it and its files can be loaded. -/
theorem Sound.idle (idle : ∀ {name c}, s.staged.get? name = some c → c = none)
    (stagedOnce : s.staged.keys.Nodup) (committedOnce : s.committed.keys.Nodup)
    (committed : ∀ {name v}, s.committed.get? name = some v → s.model.Has v)
    (loaded : ∀ {v f}, s.model.file? v = some f →
      ∃ f₀ : ModelFile, f₀.IsLoaded s.settings.app ∧ f₀.bare = f.bare)
    (linked : ∀ {v ver}, s.model.version? v = some ver → ver.Linked (.of s.model.Has)) :
    s.Sound := by
  have free : ∀ v, ¬ s.Waits v := by
    rintro v ⟨name, waiting⟩
    cases idle waiting
  refine ⟨stagedOnce, committedOnce, fun waiting => absurd waiting (free _), ?_,
    fun found => ⟨committed found, free _⟩, loaded, ?_⟩
  · intro name v found
    cases idle found
  · intro v ver found
    exact (linked found).mono (Horizon.of_within fun w there => .inr ⟨there, free w⟩)

/-- What is sound stays sound through a batch, and the batch writes to nothing that did not wait. -/
theorem Applied.keeps {result : Except Interruption Bool} {after : Store} (sound : s.Sound)
    (h : Applied s t result after) :
    ({ after with staged := s.leftover result } : Store).Sound ∧
      after.settings = s.settings ∧
      ∀ {v}, s.model.Has v → ¬ s.Waits v → after.model.version? v = s.model.version? v := by
  have resolves : ∀ {b : Batch} {r : BatchResult}, s.nextBatch t = .ok b →
      b.resolve s.settings = .ok r →
      (∀ {v f}, r.model.file? v = some f →
        ∃ f₀ : ModelFile, f₀.IsLoaded s.settings.app ∧ f₀.bare = f.bare) ∧
      (∀ {v}, s.model.Has v → r.model.Has v) ∧
      ∀ {v}, s.model.Has v → ¬ s.Waits v → r.model.version? v = s.model.version? v := by
    intro b r next resolved
    have prepared := nextBatch_prepared sound next
    obtain ⟨others, shape, -⟩ := prepared.resolved sound resolved
    refine ⟨?_, fun there => shape.has.mpr (prepared.has there), ?_⟩
    · intro v f found
      have same := shape v
      rw [found, Option.map_some, eq_comm, Option.map_eq_some_iff] at same
      obtain ⟨f', found', bare⟩ := same
      obtain ⟨f₀, loaded, bare'⟩ := prepared.loaded sound found'
      exact ⟨f₀, loaded, bare'.trans bare⟩
    · intro v there free
      have outside : v ∉ b.members := fun member =>
        (prepared.waits_of_member member).elim free fun new => new there
      exact (others outside).trans (prepared.old there)
  cases h with
  | interrupted i _ =>
      refine ⟨?_, rfl, fun _ _ => rfl⟩
      refine .idle (s.leftover_idle (.error i)) (leftover_once sound (.error i)) sound.committedOnce
        (fun found => (sound.committed found).1) sound.loaded fun found => ?_
      refine (sound.linked found).mono (Horizon.of_within fun w known => ?_)
      rcases known with rfl | ⟨there, -⟩
      · exact Model.has_of_version? found
      · exact there
  | rejected next resolved _ _ =>
      obtain ⟨loaded, has, others⟩ := resolves next resolved
      have prepared := nextBatch_prepared sound next
      refine ⟨?_, rfl, others⟩
      exact .idle (s.leftover_idle _) (leftover_once sound _) sound.committedOnce
        (fun found => has (sound.committed found).1) loaded (prepared.resolved sound resolved).2.2
  | committed next resolved _ _ =>
      obtain ⟨loaded, has, others⟩ := resolves next resolved
      have prepared := nextBatch_prepared sound next
      obtain ⟨-, shape, linked⟩ := prepared.resolved sound resolved
      refine ⟨?_, rfl, others⟩
      refine .idle (s.leftover_idle _) (leftover_once sound _) ?_ ?_ loaded linked
      · rw [commit_eq]
        exact Table.nodup_update sound.committedOnce
      · intro name v found
        rw [commit_eq] at found
        rcases Table.mem_update (Table.mem_of_get? found) with changed | old
        · rcases List.mem_append.mp changed with gone | came
          · cases (mem_removals.mp gone).2
          · obtain ⟨w, member, same⟩ := List.mem_map.mp came
            cases same
            obtain ⟨f, fresh, -⟩ := prepared.fresh member
            exact shape.has.mpr (Model.has_of_version? fresh)
        · exact has (sound.committed (Table.get?_of_mem sound.committedOnce old)).1

/-- Whatever becomes of what is pending, the store stays sound, and what did not wait stays. -/
theorem applyUpdates_keeps (sound : s.Sound) (t : FileTree) :
    (s.applyUpdates t).store.Sound ∧ (s.applyUpdates t).store.settings = s.settings ∧
      ∀ {v}, s.model.Has v → ¬ s.Waits v →
        (s.applyUpdates t).store.model.version? v = s.model.version? v := by
  by_cases empty : s.staged = []
  · rw [applyUpdates_of_empty empty]
    exact ⟨sound, rfl, fun _ _ => rfl⟩
  · obtain ⟨after, applied, same⟩ := applyUpdates_applied (t := t) empty
    rw [same]
    exact applied.keeps sound

end Soundness

end DataModel.Store
