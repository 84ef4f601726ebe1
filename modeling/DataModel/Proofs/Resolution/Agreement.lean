import DataModel.Resolution.Scope
import DataModel.Proofs.Model.Likeness
import DataModel.Proofs.Table

/-!
Actions of the resolver that agree up to the identity of versions. Two actions agree if, from
notes that are the same up to identity, both give related results and again such notes, or both
get stuck. Agreement goes through every way in which the resolver combines its actions, and what
looks a name up within a horizon agrees with the same look-up under other identities.
-/
namespace DataModel.Resolution
variable {ρ : VersionId → VersionId}

def Notes.rename (ρ : VersionId → VersionId) (n : Notes) : Notes :=
  { n with diagnostics := n.diagnostics.map (Diagnostic.rename ρ) }

/-- Related results with notes that are the same up to identity, or the same failure. -/
inductive Alike (ρ : VersionId → VersionId) {α β : Type} (R : α → β → Prop) :
    Except Stuck (α × Notes) → Except Stuck (β × Notes) → Prop
  | done {a : α} {b : β} {n : Notes} (related : R a b) :
      Alike ρ R (.ok (a, n)) (.ok (b, n.rename ρ))
  | stuck (e : Stuck) : Alike ρ R (.error e) (.error e)

def Agrees (ρ : VersionId → VersionId) {α β : Type} (R : α → β → Prop) (x : Noting α)
    (y : Noting β) : Prop := ∀ n, Alike ρ R (x.run n) (y.run (n.rename ρ))

namespace Agrees

section Combining
variable {α α' β β' γ γ' : Type}

theorem pure {R : α → β → Prop} {a : α} {b : β} (related : R a b) :
    Agrees ρ R (Pure.pure a) (Pure.pure b) := fun _ => .done related

theorem mono {R R' : α → β → Prop} {x : Noting α} {y : Noting β} (h : Agrees ρ R x y)
    (weaker : ∀ a b, R a b → R' a b) : Agrees ρ R' x y := by
  intro n
  have alike := h n
  generalize x.run n = r at alike ⊢
  generalize y.run (n.rename ρ) = r' at alike ⊢
  cases alike with
  | done related => exact .done (weaker _ _ related)
  | stuck e => exact .stuck e

theorem bind {R : α → α' → Prop} {Q : β → β' → Prop} {x : Noting α} {y : Noting α'}
    {f : α → Noting β} {g : α' → Noting β'} (h : Agrees ρ R x y)
    (next : ∀ a a', R a a' → Agrees ρ Q (f a) (g a')) : Agrees ρ Q (x >>= f) (y >>= g) := by
  intro n
  have first := h n
  rw [StateT.run_bind, StateT.run_bind]
  generalize x.run n = r at first ⊢
  generalize y.run (n.rename ρ) = r' at first ⊢
  cases first with
  | done related => exact next _ _ related _
  | stuck e => exact .stuck e

/-- Results that are the same up to a change, and of which something more is known. -/
theorem mapM {u : α → α'} {w : β → β'} {P : α → β → Prop} {f : α → Noting β}
    {g : α' → Noting β'} {xs : List α}
    (each : ∀ a ∈ xs, Agrees ρ (fun b b' => b' = w b ∧ P a b) (f a) (g (u a))) :
    Agrees ρ (fun bs bs' => bs' = bs.map w ∧ List.Forall₂ P xs bs) (xs.mapM f)
      ((xs.map u).mapM g) := by
  induction xs with
  | nil => exact pure ⟨rfl, .nil⟩
  | cons a xs ih =>
      rw [List.map_cons, List.mapM_cons, List.mapM_cons]
      refine (each a List.mem_cons_self).bind ?_
      rintro b _ ⟨rfl, first⟩
      refine (ih fun a' ha' => each a' (List.mem_cons_of_mem a ha')).bind ?_
      rintro bs _ ⟨rfl, rest⟩
      exact pure ⟨rfl, .cons first rest⟩

theorem mapM_same {w : β → β'} {P : α → β → Prop} {f : α → Noting β} {g : α → Noting β'}
    {xs : List α} (each : ∀ a ∈ xs, Agrees ρ (fun b b' => b' = w b ∧ P a b) (f a) (g a)) :
    Agrees ρ (fun bs bs' => bs' = bs.map w ∧ List.Forall₂ P xs bs) (xs.mapM f) (xs.mapM g) := by
  have all := mapM (u := id) each
  rwa [List.map_id] at all

theorem mapOption {w : α → α'} {P : α → Prop} {f : α → Noting α} {g : α' → Noting α'}
    {x : Option α} (each : ∀ a, x = some a → Agrees ρ (fun b b' => b' = w b ∧ P b) (f a) (g (w a))) :
    Agrees ρ (fun b b' => b' = b.map w ∧ ∀ a, b = some a → P a) (x.mapM f)
      ((x.map w).mapM g) := by
  cases x with
  | none => exact pure ⟨rfl, fun _ h => by cases h⟩
  | some a =>
      rw [Option.map_some, Option.mapM_some, Option.mapM_some, map_eq_pure_bind, map_eq_pure_bind]
      refine (each a rfl).bind ?_
      rintro b _ ⟨rfl, known⟩
      refine pure ⟨rfl, ?_⟩
      rintro _ ⟨⟩
      exact known

theorem forM {u : α → α'} {f : α → Noting Unit} {g : α' → Noting Unit} {xs : List α}
    (each : ∀ a ∈ xs, Agrees ρ (fun _ _ => True) (f a) (g (u a))) :
    Agrees ρ (fun _ _ => True) (xs.forM f) ((xs.map u).forM g) := by
  induction xs with
  | nil => exact pure trivial
  | cons a xs ih =>
      exact (each a List.mem_cons_self).bind fun _ _ _ =>
        ih fun a' ha' => each a' (List.mem_cons_of_mem a ha')

theorem forM_same {f g : α → Noting Unit} {xs : List α}
    (each : ∀ a ∈ xs, Agrees ρ (fun _ _ => True) (f a) (g a)) :
    Agrees ρ (fun _ _ => True) (xs.forM f) (xs.forM g) := by
  have all := forM (u := id) each
  rwa [List.map_id] at all

/-- A loop keeps a relation that each of its steps keeps. -/
theorem foldlM {u : γ → γ'} {R : α → α' → Prop} {f : α → γ → Noting α}
    {g : α' → γ' → Noting α'} {xs : List γ} {a : α} {a' : α'} (start : R a a')
    (each : ∀ x ∈ xs, ∀ b b', R b b' → Agrees ρ R (f b x) (g b' (u x))) :
    Agrees ρ R (xs.foldlM f a) ((xs.map u).foldlM g a') := by
  induction xs generalizing a a' with
  | nil => exact pure start
  | cons x xs ih =>
      rw [List.map_cons, List.foldlM_cons, List.foldlM_cons]
      refine (each x List.mem_cons_self a a' start).bind fun b b' related => ?_
      exact ih related fun y hy => each y (List.mem_cons_of_mem x hy)

theorem foldlM_same {R : α → α' → Prop} {f : α → γ → Noting α} {g : α' → γ → Noting α'}
    {xs : List γ} {a : α} {a' : α'} (start : R a a')
    (each : ∀ x ∈ xs, ∀ b b', R b b' → Agrees ρ R (f b x) (g b' x)) :
    Agrees ρ R (xs.foldlM f a) (xs.foldlM g a') := by
  have all := foldlM (u := id) start each
  rwa [List.map_id] at all

end Combining

section Noting

theorem markUsed (file : String) :
    Agrees ρ (fun _ _ => True) (Resolution.markUsed file) (Resolution.markUsed file) :=
  fun _ => .done trivial

theorem usedFiles : Agrees ρ (fun n n' : Notes => n'.usedFiles = n.usedFiles) get get :=
  fun _ => .done rfl

end Noting
end Agrees

section Scopes

def Offer.rename (ρ : VersionId → VersionId) (o : Offer) : Offer := { o with key := o.key.rename ρ }

def Scope.rename (ρ : VersionId → VersionId) (s : Scope) : Scope where
  self := ρ s.self
  dependencies := Table.mapValues ρ s.dependencies
  classes := Table.mapValues (Offer.rename ρ) s.classes
  decorators := Table.mapValues (Offer.rename ρ) s.decorators
  domains := Table.mapValues (Key.rename ρ) s.domains

/-- A scope of which every name means something within a horizon. -/
structure Scope.Within (s : Scope) (H : Horizon) : Prop where
  self : H.files s.self
  dependencies : ∀ {name d}, s.dependencies.get? name = some d → H.files d
  classes : ∀ {name o}, s.classes.get? name = some o → H.classes name o.key
  decorators : ∀ {name o}, s.decorators.get? name = some o → H.decorators name o.key
  domains : ∀ {name k}, s.domains.get? name = some k → H.domains name k

end Scopes

section Lookups
variable {H : Horizon} {m m' : Model} {s : Scope}

theorem report_agrees (s : Scope) (f : Finding) (subject : Subject) (r : Option Reference) :
    Agrees ρ (fun _ _ => True) (report s f subject r)
      (report (s.rename ρ) f (subject.rename ρ) r) := by
  intro n
  have notes : (n.rename ρ).diagnostics ++ [f.diagnostic (ρ s.self) (subject.rename ρ) r] =
      (n.diagnostics ++ [f.diagnostic s.self subject r]).map (Diagnostic.rename ρ) := by
    rw [List.map_append]
    rfl
  have done : Alike ρ (fun _ _ => True)
      (.ok ((), { n with diagnostics := n.diagnostics ++ [f.diagnostic s.self subject r] }))
      (.ok ((), Notes.rename ρ
        { n with diagnostics := n.diagnostics ++ [f.diagnostic s.self subject r] })) :=
    .done trivial
  rw [Notes.rename, ← notes] at done
  exact done

theorem findOffer_agrees {offers : Table Offer} {allowed : String → Key → Prop}
    (within : ∀ {name o}, offers.get? name = some o → allowed name o.key) (missing : Finding)
    (subject : Subject) (r : Reference) :
    Agrees ρ (fun k k' => k' = k.map (Key.rename ρ) ∧ Answers allowed k (some r))
      (findOffer s offers missing subject r)
      (findOffer (s.rename ρ) (Table.mapValues (Offer.rename ρ) offers) missing
        (subject.rename ρ) r) := by
  unfold findOffer
  rw [Table.get?_mapValues]
  cases found : offers.get? r.name with
  | none => exact (report_agrees s missing subject r).bind fun _ _ _ => .pure ⟨rfl, .none⟩
  | some o =>
      refine (Agrees.markUsed o.file).bind fun _ _ _ => .pure ⟨rfl, ?_⟩
      rintro _ ⟨⟩
      exact ⟨r, rfl, within found⟩

theorem findClass_agrees (within : s.Within H) (subject : Subject) (r : Reference) :
    Agrees ρ (fun k k' => k' = k.map (Key.rename ρ) ∧ Answers H.classes k (some r))
      (findClass s subject r) (findClass (s.rename ρ) (subject.rename ρ) r) :=
  findOffer_agrees within.classes .missingClass subject r

theorem findDecorator_agrees (within : s.Within H) (subject : Subject) (r : Reference) :
    Agrees ρ (fun k k' => k' = k.map (Key.rename ρ) ∧ Answers H.decorators k (some r))
      (findDecorator s subject r) (findDecorator (s.rename ρ) (subject.rename ρ) r) :=
  findOffer_agrees within.decorators .missingDecorator subject r

theorem findDomain_agrees (like : Model.Like ρ H m m') (within : s.Within H) (subject : Subject)
    (r : Reference) :
    Agrees ρ (fun k k' => k' = k.map (Key.rename ρ) ∧ Answers H.domains k (some r))
      (findDomain m s subject r) (findDomain m' (s.rename ρ) (subject.rename ρ) r) := by
  unfold findDomain
  rw [show (s.rename ρ).domains.get? r.name = (s.domains.get? r.name).map (Key.rename ρ) from
    Table.get?_mapValues _ _ _]
  cases found : s.domains.get? r.name with
  | none => exact (report_agrees s _ subject r).bind fun _ _ _ => .pure ⟨rfl, .none⟩
  | some k =>
      have allowed := within.domains found
      rw [Option.map_some]
      dsimp only
      rw [show m'.fileName (k.rename ρ).version = m.fileName k.version from like.domains allowed]
      refine (Agrees.markUsed _).bind fun _ _ _ => .pure ⟨rfl, ?_⟩
      rintro _ ⟨⟩
      exact ⟨r, rfl, allowed⟩

theorem nameOf_agrees (like : Model.Like ρ H m m') {p : Property} (linked : p.Linked H) :
    Agrees ρ (fun name name' => name' = name) (nameOf m p) (nameOf m' (p.rename ρ)) := by
  unfold nameOf
  rw [like.propertyName? linked]
  cases m.propertyName? p with
  | none => exact fun _ => .stuck _
  | some name => exact .pure rfl

end Lookups
end DataModel.Resolution
