import Mathlib.Data.List.Forall2
import Mathlib.Data.List.Nodup
import DataModel.Resolution.Scope

/-!
What an action of the resolver gives if it does not get stuck: a result, and the diagnostics that
it adds behind those before. A postcondition speaks about both.
-/
namespace DataModel.Resolution

section Runs
variable {α β : Type}

/-- What runs through does so in both of its parts. -/
theorem run_bind {x : Noting α} {f : α → Noting β} {first : Notes} {r : β × Notes}
    (done : (x >>= f).run first = .ok r) :
    ∃ a last, x.run first = .ok (a, last) ∧ (f a).run last = .ok r := by
  rw [StateT.run_bind] at done
  cases begun : x.run first with
  | error e =>
      rw [begun] at done
      cases done
  | ok p =>
      rw [begun] at done
      exact ⟨p.1, p.2, rfl, done⟩

theorem run_then {x : Noting α} {f : α → Noting β} {first last : Notes} {a : α}
    (begun : x.run first = .ok (a, last)) : (x >>= f).run first = (f a).run last := by
  rw [StateT.run_bind, begun]
  rfl

/-- A loop over what a test keeps of a list passes by the rest of it. -/
theorem filter_forM (keep : α → Bool) (f : α → Noting Unit) (xs : List α) :
    (xs.filter keep).forM f = xs.forM fun a => if keep a then f a else pure () := by
  induction xs with
  | nil => rfl
  | cons a xs ih =>
      show _ = (if keep a then f a else pure ()) >>= fun _ => _
      rw [List.filter_cons, ← ih]
      cases keep a with
      | false => exact (pure_bind ..).symm
      | true => rfl

/-- In a list that names everything once, what comes now did not come before. -/
theorem notMem_before {xs before after : List α} {a : α} (once : xs.Nodup)
    (split : xs = before ++ a :: after) : a ∉ before := by
  rw [split, List.nodup_append'] at once
  exact fun early => once.2.2 early List.mem_cons_self

theorem notMem_after {xs before after : List α} {a : α} (once : xs.Nodup)
    (split : xs = before ++ a :: after) : a ∉ after := by
  rw [split, List.nodup_append'] at once
  exact (List.nodup_cons.mp once.2.1).1

end Runs

/-- Diagnostics without an error. -/
def Clean (ds : List Diagnostic) : Prop := ∀ d ∈ ds, d.isError = false

@[simp] theorem clean_nil : Clean [] := fun _ h => absurd h List.not_mem_nil

@[simp] theorem clean_append {ds ds' : List Diagnostic} :
    Clean (ds ++ ds') ↔ Clean ds ∧ Clean ds' := List.forall_mem_append

/-- An action that adds diagnostics and gives a result with a property of both. -/
def Gives {α : Type} (P : List Diagnostic → α → Prop) (x : Noting α) : Prop :=
  ∀ n a n', x.run n = .ok (a, n') → ∃ ds, n'.diagnostics = n.diagnostics ++ ds ∧ P ds a

namespace Gives
variable {α β γ : Type}

theorem pure {P : List Diagnostic → α → Prop} {a : α} (h : P [] a) : Gives P (Pure.pure a) := by
  intro n a' n' done
  cases done
  exact ⟨[], (List.append_nil _).symm, h⟩

theorem mono {P Q : List Diagnostic → α → Prop} {x : Noting α} (h : Gives P x)
    (weaker : ∀ ds a, P ds a → Q ds a) : Gives Q x := by
  intro n a n' done
  obtain ⟨ds, added, holds⟩ := h n a n' done
  exact ⟨ds, added, weaker ds a holds⟩

theorem and {P Q : List Diagnostic → α → Prop} {x : Noting α} (h : Gives P x) (h' : Gives Q x) :
    Gives (fun ds a => P ds a ∧ Q ds a) x := by
  intro n a n' done
  obtain ⟨ds, added, holds⟩ := h n a n' done
  obtain ⟨ds', added', holds'⟩ := h' n a n' done
  have same : ds = ds' := List.append_cancel_left (added.symm.trans added')
  exact ⟨ds, added, holds, same ▸ holds'⟩

theorem bind {P : List Diagnostic → α → Prop} {Q : List Diagnostic → β → Prop} {x : Noting α}
    {f : α → Noting β} (h : Gives P x)
    (next : ∀ ds a, P ds a → Gives (fun ds' b => Q (ds ++ ds') b) (f a)) :
    Gives Q (x >>= f) := by
  intro n b n'' done
  obtain ⟨a, n', first, second⟩ := run_bind done
  obtain ⟨ds, added, holds⟩ := h n a n' first
  obtain ⟨ds', added', holds'⟩ := next ds a holds n' b n'' second
  exact ⟨ds ++ ds', by rw [added', added, List.append_assoc], holds'⟩

theorem mapM {P Q : α → β → Prop} {f : α → Noting β} {xs : List α}
    (each : ∀ a ∈ xs, Gives (fun ds b => P a b ∧ (Clean ds → Q a b)) (f a)) :
    Gives (fun ds bs => List.Forall₂ P xs bs ∧ (Clean ds → List.Forall₂ Q xs bs))
      (xs.mapM f) := by
  induction xs with
  | nil => exact pure ⟨.nil, fun _ => .nil⟩
  | cons a xs ih =>
      rw [List.mapM_cons]
      refine (each a List.mem_cons_self).bind fun ds b first => ?_
      refine (ih fun a' ha' => each a' (List.mem_cons_of_mem a ha')).bind fun ds' bs rest => ?_
      refine pure ⟨.cons first.1 rest.1, fun clean => ?_⟩
      rw [List.append_nil, clean_append] at clean
      exact .cons (first.2 clean.1) (rest.2 clean.2)

/-- A loop establishes, for what it has gone through, what each of its steps adds. -/
theorem foldlM {I : List γ → List Diagnostic → α → Prop} {f : α → γ → Noting α} {xs : List γ}
    {a : α} (start : I [] [] a)
    (each : ∀ before x after ds b, xs = before ++ x :: after → I before ds b →
      Gives (fun ds' b' => I (before ++ [x]) (ds ++ ds') b') (f b x)) :
    Gives (I xs) (xs.foldlM f a) := by
  suffices all : ∀ rest before ds b, xs = before ++ rest → I before ds b →
      Gives (fun ds' b' => I xs (ds ++ ds') b') (rest.foldlM f b) from
    all xs [] [] a rfl start
  intro rest
  induction rest with
  | nil =>
      intro before ds b whole holds
      rw [List.append_nil] at whole
      subst whole
      exact pure (by rwa [List.append_nil])
  | cons x rest ih =>
      intro before ds b whole holds
      rw [List.foldlM_cons]
      refine (each before x rest ds b whole holds).bind fun ds' b' holds' => ?_
      have shifted : xs = before ++ [x] ++ rest := by rw [whole, List.append_assoc]; rfl
      refine (ih (before ++ [x]) (ds ++ ds') b' shifted holds').mono fun ds'' b'' h => ?_
      rwa [← List.append_assoc]

theorem forM {f : α → Noting Unit} {xs : List α} {P : α → Prop}
    (each : ∀ a ∈ xs, Gives (fun ds _ => Clean ds → P a) (f a)) :
    Gives (fun ds _ => Clean ds → ∀ a ∈ xs, P a) (xs.forM f) := by
  induction xs with
  | nil => exact pure fun _ a h => absurd h List.not_mem_nil
  | cons a xs ih =>
      refine (each a List.mem_cons_self).bind fun ds _ first => ?_
      refine (ih fun a' ha' => each a' (List.mem_cons_of_mem a ha')).mono fun ds' _ rest clean => ?_
      rw [clean_append] at clean
      exact List.forall_mem_cons.mpr ⟨first clean.1, rest clean.2⟩

end Gives

section Lookups

theorem report_gives (s : Scope) (f : Finding) (subject : Subject) (r : Option Reference) :
    Gives (fun ds _ => ds = [f.diagnostic s.self subject r]) (report s f subject r) := by
  intro n a n' done
  cases done
  exact ⟨_, rfl, rfl⟩

theorem markUsed_gives (file : String) : Gives (fun ds _ => ds = []) (markUsed file) := by
  intro n a n' done
  cases done
  exact ⟨[], (List.append_nil _).symm, rfl⟩

theorem get_gives : Gives (fun ds _ => ds = []) (get : Noting Notes) := by
  intro n a n' done
  cases done
  exact ⟨[], (List.append_nil _).symm, rfl⟩

theorem report_error {s : Scope} {f : Finding} {subject : Subject} {r : Option Reference}
    (error : f.isError = true) : Gives (fun ds _ => ¬ Clean ds) (report s f subject r) := by
  refine (report_gives s f subject r).mono ?_
  rintro _ _ rfl clean
  have tidy := clean _ (List.mem_singleton_self _)
  exact Bool.noConfusion (error.symm.trans tidy)

theorem findOffer_gives {s : Scope} {offers : Table Offer} {missing : Finding}
    {subject : Subject} {r : Reference} (error : missing.isError = true) :
    Gives (fun ds k => k = (offers.get? r.name).map (·.key) ∧ (Clean ds → k.isSome))
      (findOffer s offers missing subject r) := by
  unfold findOffer
  cases offers.get? r.name with
  | none =>
      refine (report_error error).bind fun ds _ reported => .pure ⟨rfl, fun clean => ?_⟩
      exact absurd (clean_append.mp clean).1 reported
  | some o => exact (markUsed_gives o.file).bind fun ds _ _ => .pure ⟨rfl, fun _ => rfl⟩

theorem findClass_gives (s : Scope) (subject : Subject) (r : Reference) :
    Gives (fun ds k => k = (s.classes.get? r.name).map (·.key) ∧ (Clean ds → k.isSome))
      (findClass s subject r) := findOffer_gives rfl

theorem findDecorator_gives (s : Scope) (subject : Subject) (r : Reference) :
    Gives (fun ds k => k = (s.decorators.get? r.name).map (·.key) ∧ (Clean ds → k.isSome))
      (findDecorator s subject r) := findOffer_gives rfl

theorem findDomain_gives (m : Model) (s : Scope) (subject : Subject) (r : Reference) :
    Gives (fun ds k => k = s.domains.get? r.name ∧ (Clean ds → k.isSome))
      (findDomain m s subject r) := by
  unfold findDomain
  cases s.domains.get? r.name with
  | none =>
      refine (report_error rfl).bind fun ds _ reported => .pure ⟨rfl, fun clean => ?_⟩
      exact absurd (clean_append.mp clean).1 reported
  | some k => exact (markUsed_gives _).bind fun ds _ _ => .pure ⟨rfl, fun _ => rfl⟩

theorem nameOf_gives (m : Model) (p : Property) :
    Gives (fun ds name => ds = [] ∧ m.propertyName? p = some name) (nameOf m p) := by
  unfold nameOf
  cases m.propertyName? p with
  | none =>
      intro n a n' done
      cases done
  | some name => exact .pure ⟨rfl, rfl⟩

end Lookups
end DataModel.Resolution
