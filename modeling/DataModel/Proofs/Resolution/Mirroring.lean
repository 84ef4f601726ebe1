import Mathlib.Algebra.Group.Defs
import DataModel.Proofs.Model.Relinking
import DataModel.Proofs.Resolution.Noting

/-!
Runs that mirror each other. The classes of the second run are those of the first under other
keys, and its steps may come in another order, so that the two do not go in step. What an action
notes is therefore taken by itself: where the first action gives a result, the second one gives a
related result and adds its own notes to whatever was noted before it.
-/
namespace DataModel.Resolution
variable {α α' β β' : Type}

section Notes

instance : Zero Notes := ⟨⟨[], []⟩⟩

/-- Notes, and then more of them. -/
instance : Add Notes :=
  ⟨fun n more => ⟨n.diagnostics ++ more.diagnostics, more.usedFiles ++ n.usedFiles⟩⟩

instance : AddMonoid Notes where
  add_assoc a b c := congrArg₂ Notes.mk (List.append_assoc ..) (List.append_assoc ..).symm
  zero_add a := congrArg₂ Notes.mk (List.nil_append _) (List.append_nil _)
  add_zero a := congrArg₂ Notes.mk (List.append_nil _) (List.nil_append _)
  nsmul := nsmulRec

/-- What one has noted since. -/
def Notes.since (n later : Notes) : Notes where
  diagnostics := later.diagnostics.drop n.diagnostics.length
  usedFiles := later.usedFiles.take (later.usedFiles.length - n.usedFiles.length)

theorem Notes.since_add (n more : Notes) : n.since (n + more) = more := by
  have files : (more.usedFiles ++ n.usedFiles).take
      ((more.usedFiles ++ n.usedFiles).length - n.usedFiles.length) = more.usedFiles := by
    rw [List.length_append, Nat.add_sub_cancel, List.take_left]
  exact congrArg₂ Notes.mk List.drop_left files

end Notes

/-- The action gives a result and adds notes, whatever was noted before it. -/
def Adds (x : Noting α) (a : α) (more : Notes) : Prop := ∀ n, x.run n = .ok (a, n + more)

theorem Adds.pure (a : α) : Adds (Pure.pure a) a 0 := by
  intro n
  rw [add_zero]
  rfl

theorem Adds.bind {x : Noting α} {f : α → Noting β} {a : α} {b : β} {more more' : Notes}
    (h : Adds x a more) (next : Adds (f a) b more') : Adds (x >>= f) b (more + more') := by
  intro n
  rw [run_then (h n), ← add_assoc]
  exact next (n + more)

theorem Adds.gives {x : Noting α} {a : α} {more : Notes} {P : List Diagnostic → α → Prop}
    (h : Adds x a more) (gives : Gives P x) : P more.diagnostics a := by
  obtain ⟨ds, added, holds⟩ := gives 0 a _ (h 0)
  rw [zero_add] at added
  have same : more.diagnostics = ds := added
  exact same ▸ holds

/-- How a second run mirrors a first one: under which keys it has the classes of the first, in
which order it takes them, and how its notes compare. -/
structure Mirror where
  key : Key → Key
  injective : key.Injective
  /-- What a diagnostic may be about instead. -/
  subject : Subject → Subject → Prop
  relinked : ∀ t, subject t (t.relink key)
  /-- How notes of the first run compare with those of the second. -/
  notes : Notes → Notes → Prop
  zero : notes 0 0
  add : ∀ {a a' b b'}, notes a a' → notes b b' → notes (a + b) (a' + b')
  used : ∀ file, notes ⟨[], [file]⟩ ⟨[], [file]⟩
  files : ∀ {a a'}, notes a a' → ∀ file, a'.usedFiles.contains file = a.usedFiles.contains file
  report : ∀ {t t'} (f : Finding) (v : VersionId) (r : Option Reference), subject t t' →
    notes ⟨[f.diagnostic v t r], []⟩ ⟨[f.diagnostic v t' r], []⟩
  /-- The orders in which the two runs take classes. -/
  order : List Key → List Key → Prop
  perm : ∀ {ks ks'}, order ks ks' → ks'.Perm (ks.map key)
  tally : ∀ {ks ks'} {F G : Key → Notes}, order ks ks' →
    (∀ k ∈ ks, notes (F k) (G (key k))) → notes (ks.map F).sum (ks'.map G).sum

/-- Where the first action gives a result, the second one gives a related result and notes that
compare. -/
def Mirror.Reflects (μ : Mirror) (R : α → β → Prop) (x : Noting α) (y : Noting β) : Prop :=
  ∀ n a n', x.run n = .ok (a, n') → ∃ more b more', n' = n + more ∧ Adds y b more' ∧
    R a b ∧ μ.notes more more'

namespace Mirror.Reflects
variable {μ : Mirror}

theorem pure {R : α → α' → Prop} {a : α} {a' : α'} (related : R a a') :
    μ.Reflects R (Pure.pure a) (Pure.pure a') := by
  intro n b n' done
  cases done
  exact ⟨0, a', 0, (add_zero n).symm, .pure a', related, μ.zero⟩

/-- Notes that compare before still compare after. -/
theorem run {R : α → α' → Prop} {x : Noting α} {y : Noting α'} (h : μ.Reflects R x y)
    {first first' last : Notes} {a : α} (compare : μ.notes first first')
    (done : x.run first = .ok (a, last)) :
    ∃ b last', y.run first' = .ok (b, last') ∧ R a b ∧ μ.notes last last' := by
  obtain ⟨more, b, more', rfl, adds, related, compare'⟩ := h first a last done
  exact ⟨b, first' + more', adds first', related, μ.add compare compare'⟩

theorem mono {R R' : α → α' → Prop} {x : Noting α} {y : Noting α'} (h : μ.Reflects R x y)
    (weaker : ∀ a b, R a b → R' a b) : μ.Reflects R' x y := by
  intro n a n' done
  obtain ⟨more, b, more', noted, adds, related, compare⟩ := h n a n' done
  exact ⟨more, b, more', noted, adds, weaker a b related, compare⟩

/-- What the two actions give by themselves holds of what they give together. -/
theorem gives {R : α → α' → Prop} {P : α → Prop} {Q : α' → Prop} {x : Noting α} {y : Noting α'}
    (h : μ.Reflects R x y) (first : Gives (fun _ a => P a) x) (second : Gives (fun _ b => Q b) y) :
    μ.Reflects (fun a b => R a b ∧ P a ∧ Q b) x y := by
  intro n a n' done
  obtain ⟨more, b, more', noted, adds, related, compare⟩ := h n a n' done
  obtain ⟨_, -, holds⟩ := first n a n' done
  exact ⟨more, b, more', noted, adds, ⟨related, holds, adds.gives second⟩, compare⟩

theorem bind {R : α → α' → Prop} {Q : β → β' → Prop} {x : Noting α} {y : Noting α'}
    {f : α → Noting β} {g : α' → Noting β'} (h : μ.Reflects R x y)
    (next : ∀ a a', R a a' → μ.Reflects Q (f a) (g a')) : μ.Reflects Q (x >>= f) (y >>= g) := by
  intro n b n'' done
  obtain ⟨a, n', first, second⟩ := run_bind done
  obtain ⟨more, a', more', rfl, adds, related, compare⟩ := h n a n' first
  obtain ⟨rest, b', rest', rfl, adds', related', compare'⟩ := next a a' related _ b n'' second
  exact ⟨more + rest, b', more' + rest', add_assoc .., adds.bind adds', related',
    μ.add compare compare'⟩

theorem mapM {P : α → α' → Prop} {R : β → β' → Prop} {f : α → Noting β} {g : α' → Noting β'}
    {xs : List α} {ys : List α'} (along : List.Forall₂ P xs ys)
    (each : ∀ a a', P a a' → μ.Reflects R (f a) (g a')) :
    μ.Reflects (List.Forall₂ R) (xs.mapM f) (ys.mapM g) := by
  induction along with
  | nil => exact pure .nil
  | cons first _ ih =>
      rw [List.mapM_cons, List.mapM_cons]
      refine (each _ _ first).bind fun b b' related => ?_
      exact ih.bind fun bs bs' rest => pure (.cons related rest)

theorem mapM_same {f g : α → Noting β} {xs : List α}
    (each : ∀ a ∈ xs, μ.Reflects (fun b b' => b' = b) (f a) (g a)) :
    μ.Reflects (fun bs bs' => bs' = bs) (xs.mapM f) (xs.mapM g) := by
  induction xs with
  | nil => exact pure rfl
  | cons a xs ih =>
      rw [List.mapM_cons, List.mapM_cons]
      refine (each a List.mem_cons_self).bind ?_
      rintro b _ rfl
      refine (ih fun a' ha' => each a' (List.mem_cons_of_mem a ha')).bind ?_
      rintro bs _ rfl
      exact pure rfl

theorem mapOption {P : α → α' → Prop} {R : β → β' → Prop} {f : α → Noting β} {g : α' → Noting β'}
    {o : Option α} {o' : Option α'} (along : Option.Rel P o o')
    (each : ∀ a a', P a a' → μ.Reflects R (f a) (g a')) :
    μ.Reflects (Option.Rel R) (o.mapM f) (o'.mapM g) := by
  cases along with
  | none => exact pure .none
  | some first =>
      rw [Option.mapM_some, Option.mapM_some, map_eq_pure_bind, map_eq_pure_bind]
      exact (each _ _ first).bind fun b b' related => pure (.some related)

theorem forM {f g : α → Noting Unit} {xs : List α}
    (each : ∀ a ∈ xs, μ.Reflects (fun _ _ => True) (f a) (g a)) :
    μ.Reflects (fun _ _ => True) (xs.forM f) (xs.forM g) := by
  induction xs with
  | nil => exact pure trivial
  | cons a xs ih =>
      refine (each a List.mem_cons_self).bind fun _ _ _ => ?_
      exact ih fun a' ha' => each a' (List.mem_cons_of_mem a ha')

/-- A loop over one list keeps a relation that its steps keep. -/
theorem foldlM {R : α → α' → Prop} {f : α → β → Noting α} {g : α' → β → Noting α'} {xs : List β}
    {a : α} {a' : α'} (start : R a a')
    (each : ∀ x ∈ xs, ∀ b b', R b b' → μ.Reflects R (f b x) (g b' x)) :
    μ.Reflects R (xs.foldlM f a) (xs.foldlM g a') := by
  induction xs generalizing a a' with
  | nil => exact pure start
  | cons x xs ih =>
      rw [List.foldlM_cons, List.foldlM_cons]
      refine (each x List.mem_cons_self a a' start).bind fun b b' related => ?_
      exact ih related fun y hy => each y (List.mem_cons_of_mem x hy)

end Mirror.Reflects

section Lookups
variable {μ : Mirror} {s s' : Scope} {n n' : Model}

/-- What names mean in the second run: the same, but for the keys of classes. -/
structure Mirror.Scopes (μ : Mirror) (s s' : Scope) : Prop where
  self : s'.self = s.self
  dependencies : s'.dependencies = s.dependencies
  classes : ∀ name, s'.classes.get? name =
    (s.classes.get? name).map fun o => { o with key := μ.key o.key }
  decorators : s'.decorators = s.decorators
  domains : s'.domains = s.domains

theorem report_adds (s : Scope) (f : Finding) (t : Subject) (r : Option Reference) :
    Adds (report s f t r) () ⟨[f.diagnostic s.self t r], []⟩ := fun _ => rfl

theorem markUsed_adds (file : String) : Adds (markUsed file) () ⟨[], [file]⟩ := by
  intro n
  have noted : n + ⟨[], [file]⟩ = ⟨n.diagnostics, file :: n.usedFiles⟩ :=
    congrArg₂ Notes.mk (List.append_nil _) rfl
  rw [noted]
  rfl

/-- Two actions that add notes which compare. -/
theorem Mirror.Reflects.adds {R : α → α' → Prop} {x : Noting α} {y : Noting α'} {a : α} {b : α'}
    {more more' : Notes} (first : Adds x a more) (second : Adds y b more') (related : R a b)
    (compare : μ.notes more more') : μ.Reflects R x y := by
  intro n a' n' done
  rw [first n] at done
  cases done
  exact ⟨more, b, more', rfl, second, related, compare⟩

theorem report_reflects (scopes : μ.Scopes s s') (f : Finding) {t t' : Subject}
    (about : μ.subject t t') (r : Option Reference) :
    μ.Reflects (fun _ _ => True) (report s f t r) (report s' f t' r) := by
  refine .adds (report_adds s f t r) (report_adds s' f t' r) trivial ?_
  rw [scopes.self]
  exact μ.report f s.self r about

theorem markUsed_reflects (file : String) :
    μ.Reflects (fun _ _ => True) (markUsed file) (markUsed file) :=
  .adds (markUsed_adds file) (markUsed_adds file) trivial (μ.used file)

theorem findOffer_reflects (scopes : μ.Scopes s s') {offers offers' : Table Offer}
    {move : Key → Key} {r : Reference} (missing : Finding) {t t' : Subject}
    (about : μ.subject t t')
    (same : offers'.get? r.name = (offers.get? r.name).map fun o => { o with key := move o.key }) :
    μ.Reflects (fun k k' => k = (offers.get? r.name).map (·.key) ∧ k' = k.map move)
      (findOffer s offers missing t r) (findOffer s' offers' missing t' r) := by
  unfold findOffer
  rw [same]
  cases offers.get? r.name with
  | none => exact (report_reflects scopes missing about r).bind fun _ _ _ => .pure ⟨rfl, rfl⟩
  | some o => exact (markUsed_reflects o.file).bind fun _ _ _ => .pure ⟨rfl, rfl⟩

theorem findClass_reflects (scopes : μ.Scopes s s') {t t' : Subject} (about : μ.subject t t')
    (r : Reference) :
    μ.Reflects (fun k k' => k = (s.classes.get? r.name).map (·.key) ∧ k' = k.map μ.key)
      (findClass s t r) (findClass s' t' r) :=
  findOffer_reflects scopes .missingClass about (scopes.classes r.name)

theorem findDecorator_reflects (scopes : μ.Scopes s s') {t t' : Subject} (about : μ.subject t t')
    (r : Reference) :
    μ.Reflects (fun k k' => k' = k) (findDecorator s t r) (findDecorator s' t' r) := by
  have same : s'.decorators.get? r.name =
      (s.decorators.get? r.name).map fun o => { o with key := id o.key } := by
    rw [scopes.decorators]
    exact Option.map_id'.symm
  refine (findOffer_reflects scopes .missingDecorator about same).mono fun k k' found => ?_
  rw [found.2, Option.map_id_fun, id]

theorem findDomain_reflects (scopes : μ.Scopes s s') (files : n'.fileName = n.fileName)
    {t t' : Subject} (about : μ.subject t t') (r : Reference) :
    μ.Reflects (fun k k' => k' = k) (findDomain n s t r) (findDomain n' s' t' r) := by
  unfold findDomain
  rw [scopes.domains, files]
  cases s.domains.get? r.name with
  | none => exact (report_reflects scopes .missingDomain about r).bind fun _ _ _ => .pure rfl
  | some k => exact (markUsed_reflects _).bind fun _ _ _ => .pure rfl

theorem nameOf_reflects (alike : Model.HeadsAlike μ.key n n') (p : Property) :
    μ.Reflects (fun name name' => name' = name) (nameOf n p) (nameOf n' (p.relink μ.key)) := by
  unfold nameOf
  rw [Model.propertyName?_relink alike]
  cases n.propertyName? p with
  | none =>
      intro notes a notes' done
      cases done
  | some name => exact .pure rfl

theorem names_reflects (alike : Model.HeadsAlike μ.key n n') (ps : List Property) :
    μ.Reflects (fun names names' => names' = names) (ps.mapM (nameOf n))
      ((ps.map (Property.relink μ.key)).mapM (nameOf n')) := by
  induction ps with
  | nil => exact .pure rfl
  | cons p ps ih =>
      rw [List.map_cons, List.mapM_cons, List.mapM_cons]
      refine (nameOf_reflects alike p).bind ?_
      rintro _ name rfl
      refine ih.bind ?_
      rintro _ names rfl
      exact .pure rfl

end Lookups
end DataModel.Resolution
