import DataModel.Proofs.Resolution.Running
import DataModel.Proofs.Resolution.Spreading

/-!
What a call leaves. Resolving a file writes step by step, and a name without an end can stop it in
the midst of that: at an alias of a class with such a name, or later, when all is written and only
checked. Whatever is written by then stands in the version of the resolved file. Everything that it
binds to, copies from or re-exports is read and never written.
-/
namespace DataModel.Resolution
variable {s : Scope} {m n n' : Model} {v : VersionId}

section Frame

/-- Models that are the same beside one version: all other files, with what each of them offers, and
all that is declared in them. -/
structure SameBeside (v : VersionId) (m n : Model) : Prop where
  files : ∀ w, w ≠ v → n.version? w = m.version? w
  classes : ∀ k, k.version ≠ v → n.class? k = m.class? k
  endpoints : ∀ k, k.version ≠ v → n.endpoint? k = m.endpoint? k
  domains : ∀ k, k.version ≠ v → n.domain? k = m.domain? k
  decorators : ∀ k, k.version ≠ v → n.decorator? k = m.decorator? k

namespace SameBeside

theorem of_files (files : ∀ w, w ≠ v → n.version? w = m.version? w) : SameBeside v m n where
  files := files
  classes k other := Model.class?_congr (files k.version other)
  endpoints k other := Model.endpoint?_congr (files k.version other)
  domains k other := Model.domain?_congr (files k.version other)
  decorators k other := by
    rw [Model.decorator?, Model.decorator?, Model.file?_congr (files k.version other)]

theorem refl (v : VersionId) (m : Model) : SameBeside v m m := of_files fun _ _ => rfl

theorem trans (h : SameBeside v m n) (h' : SameBeside v n n') : SameBeside v m n' :=
  of_files fun w other => (h'.files w other).trans (h.files w other)

theorem of_rebinds (h : Model.Rebinds v m n) : SameBeside v m n := of_files fun _ => h.others

theorem modify (h : SameBeside v m n) (f : Version → Version) : SameBeside v m (n.modify v f) :=
  h.trans (of_files fun _ => Model.version?_modify_other)

end SameBeside

end Frame

section Stages

/-- The steps before any alias is expanded. -/
def binding (s : Scope) (m : Model) : Noting Model := do
  checkUses m s
  let m ← collapseAll s m
  bind s m

theorem linking_eq (s : Scope) (m : Model) : linking s m = binding s m >>= expandAll s := by
  unfold linking binding
  simp only [bind_assoc]

theorem binding_rebinds (home : m.Homed s.self) :
    Gives (fun _ n => Model.Rebinds s.self m n) (binding s m) := by
  refine (checkUses_gives m s).bind fun _ _ _ => ?_
  refine (collapseAll_gives home).bind fun _ m₁ collapsed => ?_
  exact (bind_gives (collapsed.homed home)).mono fun _ n bound => collapsed.trans bound.1

theorem binding_runs (s : Scope) (m : Model) : Runs (binding s m) := by
  refine (checkUses_runs m s).andThen fun _ => ?_
  refine Runs.andThen ?_ fun m₁ => bind_runs s m₁
  refine (forOwnClasses_runs (fun _ _ _ => .pure _) m).andThen fun m₁ => ?_
  exact forOwnEndpoints_runs (fun _ _ => .pure _) m₁

/-- Expanding some of a file's aliases writes nowhere else. -/
theorem expanding_rebinds (home : m.Homed s.self) {xs : List (Site × Placeholder)}
    (own : ∀ x ∈ xs, x.1.Own m s.self) :
    Gives (fun _ n => Model.Rebinds s.self m n)
      (xs.foldlM (fun n x => expandAt s x.1 n x.2) m) := by
  apply Gives.foldlM (I := fun _ _ n => Model.Rebinds s.self m n) (.refl s.self m)
  rintro before ⟨site, a⟩ after ds n split rebinds
  refine (copies_gives a).bind fun _ made _ => ?_
  cases made with
  | none => exact .pure rebinds
  | some new =>
      have here : site.Own m s.self := own (site, a) (by rw [split]; simp)
      exact .pure (rebinds.trans (put_rebinds home here a new))

/-- Re-exporting puts keys of other files on offer and leaves those files as they are. -/
theorem shareAliases_beside (s : Scope) (m : Model) :
    Gives (fun _ n => SameBeside s.self m n) (shareAliases s m) := by
  apply shareAliases_invariant (SameBeside.refl s.self m)
  · exact fun n k beside _ => beside.modify _
  · exact fun n k beside => beside.modify _

end Stages

section Leaving
variable {α γ : Type}

/-- A loop that gets stuck does so at one of its elements, after it came through those before. -/
theorem foldlM_stops {f : α → γ → Noting α} {xs : List γ} {a : α} {first : Notes} {e : Stuck}
    (stuck : (xs.foldlM f a).run first = .error e) :
    ∃ before x after b last, xs = before ++ x :: after ∧
      (before.foldlM f a).run first = .ok (b, last) ∧ (f b x).run last = .error e := by
  induction xs generalizing a first with
  | nil => cases stuck
  | cons x xs ih =>
      rw [List.foldlM_cons] at stuck
      cases step : (f a x).run first with
      | error e' =>
          rw [StateT.run_bind, step] at stuck
          cases stuck
          exact ⟨[], x, xs, a, first, rfl, rfl, step⟩
      | ok r =>
          obtain ⟨b, last⟩ := r
          rw [run_then step] at stuck
          obtain ⟨before, y, after, c, last', rfl, run, stops⟩ := ih stuck
          refine ⟨x :: before, y, after, c, last', rfl, ?_, stops⟩
          rw [List.foldlM_cons, run_then step, run]

/-- The model that a call leaves. It either comes through all steps that write, or it stops at an
alias after it has expanded those before. -/
inductive Leaves (s : Scope) (m : Model) : Model → Prop
  | through {linked n : Model} {first last : Notes}
    (links : (linking s m).run ⟨[], []⟩ = .ok (linked, first))
    (shares : (shareAliases s linked).run first = .ok (n, last)) : Leaves s m n
  | stuck {bound n : Model} {first last : Notes} {before after : List (Site × Placeholder)}
    {x : Site × Placeholder} (binds : (binding s m).run ⟨[], []⟩ = .ok (bound, first))
    (split : placeholders bound s.self = before ++ x :: after)
    (expands : (before.foldlM (fun n x => expandAt s x.1 n x.2) bound).run first = .ok (n, last))
    (stops : (expandAt s x.1 n x.2).run last = .error .endlessName) : Leaves s m n

/-- Every call leaves some model. -/
theorem exists_leaves (s : Scope) (m : Model) : ∃ n, Leaves s m n := by
  obtain ⟨⟨bound, first⟩, run⟩ := binding_runs s m ⟨[], []⟩
  cases expand : (expandAll s bound).run first with
  | ok r =>
      obtain ⟨linked, next⟩ := r
      obtain ⟨⟨n, last⟩, share⟩ := shareAliases_runs s linked next
      have link : (linking s m).run ⟨[], []⟩ = .ok (linked, next) := by
        rw [linking_eq, run_then run, expand]
      exact ⟨n, .through link share⟩
  | error e =>
      obtain ⟨before, x, after, n, last, split, expanded, stops⟩ := foldlM_stops expand
      cases e
      exact ⟨n, .stuck run split expanded stops⟩

/-- Whatever a call leaves is the same beside its own file. -/
theorem Leaves.beside (home : m.Homed s.self) (h : Leaves s m n) : SameBeside s.self m n := by
  cases h with
  | through links shares =>
      obtain ⟨_, -, linked⟩ := linking_rebinds home _ _ _ links
      obtain ⟨_, -, shared⟩ := shareAliases_beside s _ _ _ _ shares
      exact (SameBeside.of_rebinds linked).trans shared
  | @stuck bound n first last before after x binds split expands stops =>
      obtain ⟨_, -, rebinds⟩ := binding_rebinds home _ _ _ binds
      have own : ∀ y ∈ before, y.1.Own bound s.self := fun y hy =>
        (mem_placeholders (split ▸ List.mem_append_left _ hy)).1
      obtain ⟨_, -, expanded⟩ := expanding_rebinds (rebinds.homed home) own _ _ _ expands
      exact .of_rebinds (rebinds.trans expanded)

/-- A call that comes to its end leaves what it gives. -/
theorem leaves_of_run {allowCompositeKeys : Bool} {notes : Notes}
    (run : (steps s allowCompositeKeys m).run ⟨[], []⟩ = .ok (n, notes)) : Leaves s m n := by
  rw [steps_eq] at run
  obtain ⟨linked, first, link, run⟩ := run_bind run
  obtain ⟨given, last, share, run⟩ := run_bind run
  obtain ⟨_, _, -, run⟩ := run_bind run
  cases run
  exact .through link share

end Leaving
end DataModel.Resolution

namespace DataModel.Model
open Resolution
variable {m n : Model} {v : VersionId} {f : ModelFile} {dependencies : List VersionId}
  {domains : Table Key} {allowCompositeKeys : Bool} {ds : List Diagnostic}

/-- Resolving a file just loaded writes to that file alone. Every call leaves a model, which is the
one that it gives if it comes to its end, with errors or without; and whatever it leaves is the same
beside the resolved file. -/
theorem resolve_writes_own (fresh : m.version? v = some (.fresh v f)) :
    (∃ n, Leaves (.of m v dependencies domains) m n) ∧
      (∀ ds n, m.resolve v dependencies domains allowCompositeKeys = .ok (ds, n) →
        Leaves (.of m v dependencies domains) m n) ∧
      ∀ n, Leaves (.of m v dependencies domains) m n → SameBeside v m n := by
  refine ⟨exists_leaves _ m, fun ds n done => ?_, fun n left => ?_⟩
  · obtain ⟨n', notes, run, same⟩ := resolve_run done
    cases same
    exact leaves_of_run run
  · exact left.beside (homed_of_fresh fresh)

open Copying Mixing

/-- A call that reports errors, beside the file that it copies from. -/
theorem resolve_writes_own_mixed :
    ∃ ds n, (loaded [key, field] mixed).resolve 1 [0] known false = .ok (ds, n) ∧ ¬ Clean ds ∧
      SameBeside 1 (loaded [key, field] mixed) n := by
  have run : ((loaded [key, field] mixed).resolve 1 [0] known false).map
      (fun r => r.1.any (·.isError)) = .ok true := by
    with_unfolding_all rfl
  cases done : (loaded [key, field] mixed).resolve 1 [0] known false with
  | error e =>
      rw [done] at run
      cases run
  | ok r =>
      obtain ⟨ds, n⟩ := r
      rw [done] at run
      obtain ⟨d, hd, error⟩ := List.any_eq_true.mp (Except.ok.inj run)
      obtain ⟨-, leaves, beside⟩ := @resolve_writes_own (loaded [key, field] mixed) 1
        (copier mixed) [0] known false rfl
      refine ⟨ds, n, rfl, fun clean => ?_, beside n (leaves ds n done)⟩
      rw [clean d hd] at error
      cases error

end DataModel.Model
