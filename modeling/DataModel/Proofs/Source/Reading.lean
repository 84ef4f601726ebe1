import DataModel.Source.Reader

/-!
What a reader's results have in common. A property that every step of a reading keeps holds of what
the reading gives, however many items a collection has.
-/
namespace DataModel

namespace Source.Read
variable {α β σ : Type}

/-- A reader of which every result has a property. -/
def Yields (P : α → Prop) (x : Read α) : Prop := ∀ r a, (x.run r).1 = .ok a → P a

theorem Yields.pure {P : α → Prop} {a : α} (h : P a) : Yields P (Pure.pure a) := by
  intro r b done
  cases done
  exact h

theorem Yields.any (x : Read α) : Yields (fun _ => True) x := fun _ _ _ => trivial

theorem Yields.reject {P : α → Prop} (problem : Problem) (e : Event) :
    Yields P (reject problem e) := by
  intro r a done
  cases done

theorem run_bind (x : Read α) (f : α → Read β) (r : Reader) :
    (x >>= f).run r = match x.run r with
      | (.ok a, r') => (f a).run r'
      | (.error e, r') => (.error e, r') := by
  rw [ExceptT.run_bind]
  show StateT.bind x.run _ r = _
  unfold StateT.bind
  cases x.run r with
  | mk result r' => cases result <;> rfl

theorem run_bind_ok {x : Read α} {f : α → Read β} {r : Reader} {b : β}
    (h : ((x >>= f).run r).1 = .ok b) :
    ∃ a r', x.run r = (.ok a, r') ∧ ((f a).run r').1 = .ok b := by
  rw [run_bind] at h
  cases first : x.run r with
  | mk result r' =>
      rw [first] at h
      cases result with
      | error e => cases h
      | ok a => exact ⟨a, r', rfl, h⟩

theorem Yields.bind {P : α → Prop} {Q : β → Prop} {x : Read α} {f : α → Read β}
    (h : Yields P x) (next : ∀ a, P a → Yields Q (f a)) : Yields Q (x >>= f) := by
  intro r b done
  obtain ⟨a, r', first, rest⟩ := run_bind_ok done
  exact next a (h r a (by rw [first])) r' b rest

theorem Yields.andThen {Q : β → Prop} {x : Read α} {f : α → Read β}
    (next : ∀ a, Yields Q (f a)) : Yields Q (x >>= f) :=
  (Yields.any x).bind fun a _ => next a

theorem items_yields {I : σ → Prop} {next : Read (Option Event)} {body : Event → σ → Read σ}
    (each : ∀ e s, I s → Yields I (body e s)) (fuel : Nat) {s : σ} (start : I s) :
    Yields I (items next body fuel s) := by
  induction fuel generalizing s with
  | zero => exact .andThen fun _ => .reject _ _
  | succ fuel ih =>
      rw [items]
      refine .andThen fun e => ?_
      cases e with
      | none => exact .pure start
      | some e => exact (each e s start).bind fun s' holds => ih holds

theorem eachItem_yields {I : σ → Prop} {body : Event → σ → Read σ} {s : σ}
    (each : ∀ e s, I s → Yields I (body e s)) (start : I s) : Yields I (eachItem body s) :=
  .andThen fun _ => .andThen fun _ => items_yields each _ start

/-- What every field reader keeps holds of the draft that a section gives. -/
theorem fields_yields {I : σ → Prop} {what : String} {known : Fields σ} {draft : σ}
    (each : ∀ key read, known key = some read → ∀ d, I d → Yields I (read d)) (start : I draft) :
    Yields I (fields what known draft) := by
  refine .andThen fun _ => .andThen fun _ => items_yields ?_ _ start
  intro e d holds
  cases found : known e.value with
  | none => exact .reject _ _
  | some read => exact each e.value read found d holds

end Source.Read

end DataModel
