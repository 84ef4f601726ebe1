import DataModel.Yaml.Token.Stream

/-!
What reading keeps. A course says which states a state may lead to, and how reading may fail in a
state; a failure that may come later may come now. Readings that keep to a course are put together
from such readings.
-/
namespace DataModel.Yaml

/-- The states that a state may lead to, and the failures that may come of it. -/
structure Course (σ ε : Type) where
  leads : σ → σ → Prop
  fails : σ → ε → Prop
  refl (s : σ) : leads s s
  trans {s s' s'' : σ} : leads s s' → leads s' s'' → leads s s''
  sooner {s s' : σ} {e : ε} : leads s s' → fails s' e → fails s e

namespace Course
variable {σ ε α β : Type} {C : Course σ ε} {s s' : σ} {m : StateT σ (Except ε) α}
  {k : α → StateT σ (Except ε) β}

/-- From a state, a reading ends in one that the state may lead to, or fails as it may. -/
def At (C : Course σ ε) (s : σ) (m : StateT σ (Except ε) α) : Prop :=
  match m.run s with
  | .ok (_, s') => C.leads s s'
  | .error e => C.fails s e

/-- A reading keeps to a course wherever it starts. -/
def Keeps (C : Course σ ε) (m : StateT σ (Except ε) α) : Prop := ∀ s, C.At s m

namespace At

theorem leads {a : α} (h : C.At s m) (done : m.run s = .ok (a, s')) : C.leads s s' := by
  rw [At, done] at h
  exact h

theorem fails {e : ε} (h : C.At s m) (failed : m.run s = .error e) : C.fails s e := by
  rw [At, failed] at h
  exact h

theorem bind (first : C.At s m) (next : ∀ a s', m.run s = .ok (a, s') → C.At s' (k a)) :
    C.At s (m >>= k) := by
  unfold At
  rw [StateT.run_bind]
  cases run : m.run s with
  | error e => exact first.fails run
  | ok r =>
      obtain ⟨a, s'⟩ := r
      have way := first.leads run
      show match (k a).run s' with
        | .ok (_, s'') => C.leads s s''
        | .error e => C.fails s e
      cases after : (k a).run s' with
      | error e => exact C.sooner way ((next a s' run).fails after)
      | ok r => exact C.trans way ((next a s' run).leads after)

theorem get {k : σ → StateT σ (Except ε) β} (h : C.At s (k s)) :
    C.At s (MonadState.get >>= k) := h

theorem set (h : C.leads s s') : C.At s (MonadStateOf.set s') := h

theorem ite {c : Prop} [Decidable c] {m' : StateT σ (Except ε) α} (yes : C.At s m)
    (no : C.At s m') : C.At s (if c then m else m') := by
  split
  · exact yes
  · exact no

end At

namespace Keeps

theorem bind (first : C.Keeps m) (next : ∀ a, C.Keeps (k a)) : C.Keeps (m >>= k) :=
  fun s => (first s).bind fun a s' _ => next a s'

theorem pure (a : α) : C.Keeps (Pure.pure a) := fun s => C.refl s

theorem throw {e : ε} (h : ∀ s, C.fails s e) : C.Keeps (α := α) (MonadExcept.throw e) := h

theorem get : C.Keeps MonadState.get := fun s => C.refl s

theorem update {f : σ → σ} (h : ∀ s, C.leads s (f s)) : C.Keeps (modify f) := h

theorem lift {x : Except ε α} (h : ∀ e, x = .error e → ∀ s, C.fails s e) :
    C.Keeps (liftM x : StateT σ (Except ε) α) := by
  intro s
  unfold At
  rw [StateT.run_monadLift]
  cases x with
  | error e => exact h e rfl s
  | ok a => exact C.refl s

theorem map (f : α → β) (h : C.Keeps m) : C.Keeps (f <$> m) := by
  rw [← bind_pure_comp]
  exact h.bind fun a => pure (f a)

theorem discard (h : C.Keeps m) : C.Keeps (Functor.discard m) := by
  have whole : (Functor.discard m : StateT σ (Except ε) Unit) = (fun _ => ()) <$> m := rfl
  rw [whole]
  exact h.map _

theorem ite {c : Prop} [Decidable c] {m' : StateT σ (Except ε) α} (yes : C.Keeps m)
    (no : C.Keeps m') : C.Keeps (if c then m else m') := fun s => (yes s).ite (no s)

end Keeps
end Course
end DataModel.Yaml
