import DataModel.Proofs.Graph.Sorting
import DataModel.Proofs.Resolution.Completion
import DataModel.Proofs.Resolution.Resolve
import DataModel.Proofs.Store.Batch

/-!
Resolving a batch. Its members take turns in the order of their dependencies; the turn of a member
meets those before it as they stay and those after it as they were loaded, and changes its own
version only. A circle ends the batch before the first turn, with one error.
-/
namespace DataModel

theorem lookup_of_mem {α β : Type} [DecidableEq α] {ps : List (α × β)}
    (once : (ps.map Prod.fst).Nodup) {a : α} {b : β} (h : (a, b) ∈ ps) :
    ps.lookup a = some b := by
  obtain ⟨before, after, rfl⟩ := List.append_of_mem h
  refine List.lookup_eq_some_iff.mpr ⟨before, after, rfl, ?_⟩
  intro p hp
  rw [List.map_append, List.map_cons, List.nodup_append'] at once
  refine bne_iff_ne.mpr fun same => once.2.2 ?_ List.mem_cons_self
  rw [same]
  exact List.mem_map.mpr ⟨p, hp, rfl⟩

theorem append_singleton_split {α : Type} {xs before after : List α} {x y : α}
    (h : xs ++ [x] = before ++ y :: after) :
    (before = xs ∧ y = x) ∨ ∃ after', xs = before ++ y :: after' := by
  rcases List.eq_nil_or_concat after with rfl | ⟨after', z, rfl⟩
  · obtain ⟨same, last⟩ := List.append_inj' h rfl
    cases last
    exact .inl ⟨same.symm, rfl⟩
  · refine .inr ⟨after', ?_⟩
    have shifted : xs ++ [x] = (before ++ y :: after') ++ [z] := by
      rw [h, List.append_assoc, List.concat_eq_append]
      rfl
    exact (List.append_inj' shifted rfl).1

namespace Batch
variable {b : Batch} {settings : Settings} {domains : Table Key} {ordered : List VersionId}

/-- What is reported of a file: the errors, and the warnings that are not suppressed. -/
def reported (settings : Settings) (ds : List Diagnostic) : List Diagnostic :=
  ds.filter fun d => d.isError || !settings.isSuppressed d.code

theorem clean_of_reported {ds : List Diagnostic} (h : Resolution.Clean (reported settings ds)) :
    Resolution.Clean ds := by
  intro d hd
  by_cases error : d.isError = true
  · refine h d (List.mem_filter.mpr ⟨hd, ?_⟩)
    rw [error]
    rfl
  · exact Bool.not_eq_true _ ▸ error

/-- The turn of a member in a batch that led to a model. -/
structure Turn (b : Batch) (settings : Settings) (domains : Table Key) (m : Model)
    (before : List VersionId) (v : VersionId) (ds : List Diagnostic) (m₁ m₂ : Model) : Prop where
  done : m₁.resolve v (b.dependencies v) domains settings.allowCompositeKeys = .ok (ds, m₂)
  earlier : ∀ {w}, w ∈ before → m₁.version? w = m.version? w
  later : ∀ {w}, w ∉ before → m₁.version? w = b.model.version? w
  kept : m₂.version? v = m.version? v

/-- What resolving some members one after the other leads to. -/
structure Resolved (b : Batch) (settings : Settings) (domains : Table Key)
    (ordered : List VersionId) (m : Model) (found : List (VersionId × List Diagnostic)) : Prop where
  names : found.map Prod.fst = ordered
  others : ∀ {w}, w ∉ ordered → m.version? w = b.model.version? w
  shape : Model.KeepsShape b.model m
  turns : ∀ {before v after}, ordered = before ++ v :: after → ∃ ds m₁ m₂,
    b.Turn settings domains m before v ds m₁ m₂ ∧ (v, reported settings ds) ∈ found

theorem Resolved.start (b : Batch) (settings : Settings) (domains : Table Key) :
    b.Resolved settings domains [] b.model [] where
  names := rfl
  others _ := rfl
  shape := .refl _
  turns whole := absurd whole.symm (List.append_ne_nil_of_right_ne_nil _ (List.cons_ne_nil _ _))

theorem Resolved.step {before : List VersionId} {m m' : Model} {v : VersionId}
    {found : List (VersionId × List Diagnostic)} {ds : List Diagnostic} {f : ModelFile}
    (h : b.Resolved settings domains before m found) (new : v ∉ before)
    (fresh : b.model.version? v = some (.fresh v f))
    (done : m.resolve v (b.dependencies v) domains settings.allowCompositeKeys = .ok (ds, m')) :
    b.Resolved settings domains (before ++ [v]) m' (found ++ [(v, reported settings ds)]) := by
  have evolves := Model.resolve_evolves ((h.others new).trans fresh) done
  refine ⟨by rw [List.map_append, h.names]; rfl, ?_, h.shape.trans evolves.keepsShape, ?_⟩
  · intro w hw
    rw [List.mem_append, List.mem_singleton, not_or] at hw
    exact (evolves.others hw.2).trans (h.others hw.1)
  · intro before' u after whole
    rcases append_singleton_split whole with ⟨rfl, rfl⟩ | ⟨after', sooner⟩
    · refine ⟨ds, m, m', ⟨done, ?_, fun hw => h.others hw, rfl⟩, List.mem_append_right _ List.mem_cons_self⟩
      intro w hw
      exact (evolves.others fun same => new (same ▸ hw)).symm
    · obtain ⟨ds', m₁, m₂, turn, reported'⟩ := h.turns sooner
      refine ⟨ds', m₁, m₂, ⟨turn.done, ?_, turn.later, ?_⟩, List.mem_append_left _ reported'⟩
      · intro w hw
        refine (turn.earlier hw).trans (evolves.others ?_).symm
        rintro rfl
        exact new (sooner ▸ List.mem_append_left _ hw)
      · refine turn.kept.trans (evolves.others ?_).symm
        rintro rfl
        exact new (sooner ▸ List.mem_append_right _ List.mem_cons_self)

/-- The steps of resolving each member. -/
theorem resolveEach_ok {I : List VersionId → Model → List (VersionId × List Diagnostic) → Prop}
    {m : Model} {found : List (VersionId × List Diagnostic)} (start : I [] b.model [])
    (each : ∀ before v after m m' found ds, ordered = before ++ v :: after → I before m found →
      m.resolve v (b.dependencies v) domains settings.allowCompositeKeys = .ok (ds, m') →
      I (before ++ [v]) m' (found ++ [(v, reported settings ds)]))
    (done : b.resolveEach settings domains ordered = .ok (m, found)) : I ordered m found := by
  refine foldlM_ok (I := fun before r => I before r.1 r.2) start ?_ done
  intro before v after r r' whole holds step
  obtain ⟨m, found⟩ := r
  dsimp only at step
  cases run : m.resolve v (b.dependencies v) domains settings.allowCompositeKeys with
  | error e =>
      rw [run] at step
      cases step
  | ok result =>
      obtain ⟨ds, m'⟩ := result
      rw [run] at step
      cases step
      exact each before v after m m' found ds whole holds run

theorem resolveEach_resolved {m : Model} {found : List (VersionId × List Diagnostic)}
    (once : ordered.Nodup) (fresh : ∀ v ∈ ordered, ∃ f, b.model.version? v = some (.fresh v f))
    (done : b.resolveEach settings domains ordered = .ok (m, found)) :
    b.Resolved settings domains ordered m found := by
  refine resolveEach_ok (.start b settings domains) ?_ done
  intro before v after m m' found ds whole holds step
  obtain ⟨f, loaded⟩ := fresh v (whole ▸ List.mem_append_right _ List.mem_cons_self)
  refine holds.step ?_ loaded step
  rw [whole, List.nodup_append'] at once
  exact fun member => once.2.2 member List.mem_cons_self

/-- The ways in which resolving a batch ends. -/
inductive Ends (b : Batch) (settings : Settings) : BatchResult → Prop
  | circle {circle : List VersionId} {d : Diagnostic} {r : BatchResult}
    (found : Graph.sort b.dependencies b.members = .error circle) (error : d.isError = true)
    (model : r.model = b.model) (ordered : r.ordered = []) (names : r.found.map (·.1) = b.members)
    (only : r.found.flatMap (·.2) = [d]) : Ends b settings r
  | sorted {found : List (VersionId × List Diagnostic)} {r : BatchResult}
    (sorted : Graph.sort b.dependencies b.members = .ok r.ordered)
    (done : b.resolveEach settings (b.model.domainTable b.view.values) r.ordered =
      .ok (r.model, found))
    (reports : r.found = b.members.map fun v => (v, (found.lookup v).getD [])) :
    Ends b settings r

theorem flatMap_lookup_singleton {members : List VersionId} (once : members.Nodup) {v : VersionId}
    (member : v ∈ members) (ds : List Diagnostic) :
    members.flatMap (fun w => (List.lookup w [(v, ds)]).getD []) = ds := by
  have others : ∀ ws : List VersionId, v ∉ ws →
      ws.flatMap (fun w => (List.lookup w [(v, ds)]).getD []) = [] := by
    intro ws absent
    rw [List.flatMap_eq_nil_iff]
    intro w hw
    have other : (w == v) = false := beq_false_of_ne fun same => absent (same ▸ hw)
    rw [List.lookup_cons, other]
    rfl
  obtain ⟨before, after, rfl⟩ := List.append_of_mem member
  rw [List.nodup_append', List.nodup_cons] at once
  have here : List.lookup v [(v, ds)] = some ds := by rw [List.lookup_cons, beq_self_eq_true]
  rw [List.flatMap_append, List.flatMap_cons, here,
    others before fun hv => once.2.2 hv List.mem_cons_self, others after once.2.1.1]
  simp

theorem circleDiagnostic_error {m : Model} {circle : List VersionId} {x : VersionId}
    (head : circle.head? = some x) :
    ∃ d, Graph.circleDiagnostic m circle = some d ∧ d.isError = true := by
  rw [Graph.circleDiagnostic, head]
  exact ⟨_, rfl, rfl⟩

theorem resolve_ends (once : b.members.Nodup) {r : BatchResult}
    (done : b.resolve settings = .ok r) : b.Ends settings r := by
  unfold resolve Graph.sortVersions at done
  cases sorting : Graph.sort b.dependencies b.members with
  | error circle =>
      rw [sorting] at done
      cases done
      obtain ⟨⟨x, inner, closed⟩, known, -⟩ := Graph.sort_circle sorting
      have head : circle.head? = some x := by rw [closed]; rfl
      have member : x ∈ b.members := known x (by rw [closed]; exact List.mem_cons_self)
      obtain ⟨d, diagnosed, error⟩ := circleDiagnostic_error (m := b.model) head
      refine .circle sorting error rfl rfl ?_ ?_
      · rw [List.map_map]
        exact List.map_id' _
      · dsimp only
        rw [List.flatMap_map, head, diagnosed]
        exact flatMap_lookup_singleton once member [d]
  | ok ordered =>
      rw [sorting] at done
      dsimp only [Except.mapError] at done
      cases run : b.resolveEach settings (b.model.domainTable b.view.values) ordered with
      | error e =>
          rw [run] at done
          cases done
      | ok result =>
          obtain ⟨m, found⟩ := result
          rw [run] at done
          cases done
          exact .sorted sorting run rfl

end Batch

namespace Store.Prepared
variable {s : Store} {t : FileTree} {b : Batch} {r : BatchResult} (h : s.Prepared t b)
include h

theorem linked (sound : s.Sound) {v : VersionId} {ver : Version}
    (found : b.model.version? v = some ver) : ver.Linked (.of b.model.Has) := by
  rcases h.new (Model.has_of_version? found) with there | ⟨name, hn, member⟩
  · rw [h.old there] at found
    refine (sound.linked found).mono (Horizon.of_within fun w known => ?_)
    rcases known with rfl | ⟨there', -⟩
    · exact h.has there
    · exact h.has there'
  · obtain ⟨f, fresh, loaded, -⟩ := h.member hn member
    rw [found] at fresh
    cases fresh
    exact Version.fresh_linked loaded.unlinked (Model.has_of_version? found)

theorem loaded (sound : s.Sound) {v : VersionId} {f : ModelFile}
    (found : b.model.file? v = some f) :
    ∃ f₀ : ModelFile, f₀.IsLoaded s.settings.app ∧ f₀.bare = f.bare := by
  obtain ⟨ver, here, rfl⟩ := Option.map_eq_some_iff.mp found
  rcases h.new (Model.has_of_version? here) with there | ⟨name, hn, member⟩
  · rw [Model.file?_congr (h.old there)] at found
    exact sound.loaded found
  · obtain ⟨f, fresh, loaded, -⟩ := h.member hn member
    rw [here] at fresh
    cases fresh
    exact ⟨f, loaded, rfl⟩

theorem covers (sound : s.Sound) {m : Model} {v : VersionId} (there : b.model.Has v) :
    Resolution.Covers (.of b.model.Has) m v (b.dependencies v)
      (b.model.domainTable b.view.values) where
  self := there
  dependencies := by
    intro d hd
    obtain ⟨use, -, found⟩ := List.mem_filterMap.mp hd
    exact h.has_of_view sound found
  classes reach _ := reach
  decorators reach _ _ := reach
  domains := by
    intro name k found
    obtain ⟨name', member⟩ := (Table.mem_values_iff (h.keys ▸ nodup_view sound.committedOnce)).mp
      (Model.mem_domainTable found).1
    exact h.has_of_view sound member

/-- Resolving a batch writes to its members only, binds nothing to what is not there, and leaves
what the files declare as it is. -/
theorem resolved (sound : s.Sound) (done : b.resolve s.settings = .ok r) :
    (∀ {w}, w ∉ b.members → r.model.version? w = b.model.version? w) ∧
      Model.KeepsShape b.model r.model ∧
      ∀ {v ver}, r.model.version? v = some ver → ver.Linked (.of r.model.Has) := by
  cases Batch.resolve_ends (h.nodup_members sound) done with
  | circle _ _ model _ _ _ =>
      rw [model]
      exact ⟨fun _ => rfl, .refl _, fun found => h.linked sound found⟩
  | sorted sorted each _ =>
      have order := Graph.sort_sorted sorted
      have fresh : ∀ v ∈ r.ordered, ∃ f, b.model.version? v = some (.fresh v f) := by
        intro v hv
        obtain ⟨f, fresh, -⟩ := h.fresh (order.known v hv)
        exact ⟨f, fresh⟩
      have like : Model.Like id (.of b.model.Has) r.model r.model := by
        refine Batch.resolveEach_ok (I := fun _ m _ => Model.Like id (.of b.model.Has) m m) ?_ ?_
          each
        · refine ⟨fun {v} _ => exists_movedTo ?_, fun _ found => h.linked sound found,
            fun _ => rfl⟩
          rw [Version.rename_id, Option.map_id]
          rfl
        · intro before v after m m' found ds whole like step
          obtain ⟨f, loaded⟩ := fresh v (whole ▸ List.mem_append_right _ List.mem_cons_self)
          obtain ⟨n, step', like'⟩ := Model.resolve_same like
            (h.covers sound (Model.has_of_version? loaded)) step
          rw [step] at step'
          cases step'
          exact like'
      have resolved := Batch.resolveEach_resolved order.once fresh each
      refine ⟨fun outside => resolved.others fun hw => outside (order.known _ hw),
        resolved.shape, ?_⟩
      intro v ver found
      have there := resolved.shape.has.mp (Model.has_of_version? found)
      exact (like.linked there found).mono
        (Horizon.of_within fun w known => resolved.shape.has.mpr known)

end Store.Prepared
end DataModel
