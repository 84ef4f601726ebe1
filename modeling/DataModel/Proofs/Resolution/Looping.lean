import Mathlib.Data.List.Nodup
import Mathlib.Logic.Function.Basic
import DataModel.Proofs.Model.Version
import DataModel.Proofs.Resolution.Mirroring
import DataModel.Resolution.Binding

/-!
Loops over the own entities of a file, in two runs that may take them in different orders. At each
entity the first run is somewhere on its way, and so is the second: what a step sees of the other
entities is the result of those that it passed and the beginning of those that wait. If every step
of the first run is mirrored by the step of the second run for the same entity, the loops mirror
each other.
-/
namespace DataModel.Resolution
variable {E : Type}

/-- A kind of entities of a model. -/
structure Kind (E : Type) where
  get : Model → Key → Option E
  set : Model → Key → E → Model
  get_set : ∀ m k l e, get (set m k e) l = if k = l then (get m l).map fun _ => e else get m l

/-- One run takes some keys, and the other takes those that stand for them, in an order in which its
notes still compare. -/
structure Mirror.Takes (μ : Mirror) (key : Key → Key) (ks ks' : List Key) : Prop where
  injective : key.Injective
  perm : ks'.Perm (ks.map key)
  tally : ∀ {F G : Key → Notes}, (∀ k ∈ ks, μ.notes (F k) (G (key k))) →
    μ.notes (ks.map F).sum (ks'.map G).sum

theorem Mirror.Takes.mem_iff {μ : Mirror} {key : Key → Key} {ks ks' : List Key}
    (takes : μ.Takes key ks ks') {k : Key} : key k ∈ ks' ↔ k ∈ ks := by
  rw [takes.perm.mem_iff, List.mem_map_of_injective takes.injective]

theorem Mirror.takes (μ : Mirror) {ks ks' : List Key} (order : μ.order ks ks') :
    μ.Takes μ.key ks ks' := ⟨μ.injective, μ.perm order, μ.tally order⟩

/-- Two runs may take the same keys in the same order. -/
theorem Mirror.takes_same (μ : Mirror) (ks : List Key) : μ.Takes id ks ks := by
  refine ⟨Function.injective_id, (List.map_id ks).symm ▸ .refl ks, fun each => ?_⟩
  induction ks with
  | nil => exact μ.zero
  | cons k ks ih =>
      obtain ⟨first, rest⟩ := List.forall_mem_cons.mp each
      rw [List.map_cons, List.map_cons, List.sum_cons, List.sum_cons]
      exact μ.add first (ih rest)

namespace Kind
variable (K : Kind E)

/-- Changes the entity under a key, if there is one. -/
def step (f : Model → Key → E → Noting E) (m : Model) (k : Key) : Noting Model := do
  match K.get m k with
  | some e => return K.set m k (← f m k e)
  | none => return m

def loop (f : Model → Key → E → Noting E) (ks : List Key) (m : Model) : Noting Model :=
  ks.foldlM (K.step f) m

/-- A model on the way from one to another: some entities are as they will be, and the others are
as they were. -/
structure Midway (I : Model → Prop) (m final : Model) (before : List Key) (n : Model) : Prop
    where
  within : I n
  passed : ∀ k ∈ before, K.get n k = K.get final k
  waiting : ∀ k ∉ before, K.get n k = K.get m k

/-- The notes before and after each key of a list follow one another. -/
def Follow (a b : Key → Notes) : List Key → Notes → Notes → Prop
  | [], first, last => first = last
  | k :: ks, first, last => a k = first ∧ Follow a b ks (b k) last

/-- What a loop did for one of its keys, between the notes `a` and `b`. -/
structure Ran (f : Model → Key → E → Noting E) (I : Model → Prop) (m final : Model)
    (before : List Key) (k : Key) (a b : Notes) (n : Model) (e e' : E) : Prop where
  midway : Midway K I m final before n
  begun : K.get m k = some e
  run : (f n k e).run a = .ok (e', b)
  result : K.get final k = some e'

variable {K} {f : Model → Key → E → Noting E} {m final : Model} {ks : List Key}
  {I : Model → Prop} {a b : Key → Notes}

theorem get_set_self {n : Model} {k : Key} {e e' : E} (found : K.get n k = some e) :
    K.get (K.set n k e') k = some e' := by
  rw [K.get_set, if_pos rfl, found, Option.map_some]

theorem get_set_other {n : Model} {k l : Key} (e : E) (other : k ≠ l) :
    K.get (K.set n k e) l = K.get n l := by
  rw [K.get_set, if_neg other]

/-- What waits does so while another one is changed. -/
theorem waiting_set {n : Model} {k : Key} (e : E) {before : List Key}
    (waiting : ∀ l ∉ before, K.get n l = K.get m l) :
    ∀ l ∉ before ++ [k], K.get (K.set n k e) l = K.get m l := by
  intro l hl
  rw [List.mem_append, List.mem_singleton, not_or] at hl
  exact (get_set_other e (Ne.symm hl.2)).trans (waiting l hl.1)

theorem step_found {n : Model} {k : Key} {e : E} (found : K.get n k = some e) :
    K.step f n k = K.set n k <$> f n k e := by
  rw [step, found]
  exact bind_pure_comp _ _

theorem Follow.update {x y : Notes} {k : Key} {first last : Notes} (apart : k ∉ ks)
    (h : Follow a b ks first last) :
    Follow (Function.update a k x) (Function.update b k y) ks first last := by
  induction ks generalizing first with
  | nil => exact h
  | cons l ks ih =>
      rw [List.mem_cons, not_or] at apart
      have other : l ≠ k := Ne.symm apart.1
      refine ⟨(Function.update_of_ne other ..).trans h.1, ?_⟩
      rw [Function.update_of_ne other]
      exact ih apart.2 h.2

/-- What all keys note comes to what is noted in between. -/
theorem Follow.sum {first last : Notes} {F : Key → Notes} (h : Follow a b ks first last)
    (each : ∀ k ∈ ks, b k = a k + F k) : last = first + (ks.map F).sum := by
  induction ks generalizing first with
  | nil => exact h.symm.trans (add_zero first).symm
  | cons k ks ih =>
      obtain ⟨here, rest⟩ := h
      obtain ⟨new, later⟩ := List.forall_mem_cons.mp each
      rw [ih rest later, new, here, List.map_cons, List.sum_cons, add_assoc]

/-- A loop that gives a result ran a step for each of its keys. -/
theorem loop_run (once : ks.Nodup) (there : ∀ k ∈ ks, (K.get m k).isSome)
    (keeps : ∀ n k e, I n → k ∈ ks → K.get m k = some e → K.get n k = some e →
      Gives (fun _ e' => I (K.set n k e')) (f n k e)) (start : I m) {first last : Notes}
    (done : (K.loop f ks m).run first = .ok (final, last)) :
    K.Midway I m final ks final ∧ ∃ a b, Follow a b ks first last ∧
      ∀ before k after, ks = before ++ k :: after →
        ∃ n e e', K.Ran f I m final before k (a k) (b k) n e e' := by
  -- what waits is as it was at the beginning, wherever the run is
  suffices all : ∀ rest before n first, ks = before ++ rest → I n →
      (∀ k ∉ before, K.get n k = K.get m k) →
      (rest.foldlM (K.step f) n).run first = .ok (final, last) →
      I final ∧ (∀ k ∉ rest, K.get final k = K.get n k) ∧
        ∃ a b, Follow a b rest first last ∧ ∀ between k after, rest = between ++ k :: after →
          ∃ n e e', K.Ran f I m final (before ++ between) k (a k) (b k) n e e' by
    obtain ⟨within, still, a, b, follow, ran⟩ := all ks [] m first rfl start (fun _ _ => rfl) done
    exact ⟨⟨within, fun _ _ => rfl, still⟩, a, b, follow, ran⟩
  intro rest
  induction rest with
  | nil =>
      intro before n first whole within waiting done
      cases done
      refine ⟨within, fun _ _ => rfl, fun _ => first, fun _ => first, rfl, ?_⟩
      intro between k after none
      exact absurd none (by simp)
  | cons k rest ih =>
      intro before n first whole within waiting done
      have member : k ∈ ks := by rw [whole]; simp
      rw [whole, List.nodup_append'] at once
      obtain ⟨-, once', apart⟩ := once
      obtain ⟨new, -⟩ := List.nodup_cons.mp once'
      have early : k ∉ before := fun early => apart early List.mem_cons_self
      obtain ⟨e, begun⟩ := Option.isSome_iff_exists.mp (there k member)
      have found : K.get n k = some e := (waiting k early).trans begun
      rw [List.foldlM_cons, step_found found, bind_map_left] at done
      obtain ⟨e', noted, run, done⟩ := run_bind done
      obtain ⟨-, -, within'⟩ := keeps n k e within member begun found first e' noted run
      have shifted : ks = (before ++ [k]) ++ rest := by rw [whole, List.append_assoc]; rfl
      obtain ⟨ends, still, a, b, follow, ran⟩ := ih (before ++ [k]) (K.set n k e') noted shifted
        within' (waiting_set e' waiting) done
      have result : K.get final k = some e' := (still k new).trans (get_set_self found)
      have kept : ∀ l ∉ k :: rest, K.get final l = K.get n l := by
        intro l hl
        rw [List.mem_cons, not_or] at hl
        exact (still l hl.2).trans (get_set_other e' (Ne.symm hl.1))
      refine ⟨ends, kept, Function.update a k first, Function.update b k noted, ⟨?_, ?_⟩, ?_⟩
      · rw [Function.update_self]
      · rw [Function.update_self]
        exact follow.update new
      · intro between l after split
        cases between with
        | nil =>
            obtain ⟨rfl, rfl⟩ := List.cons.inj split
            rw [Function.update_self, Function.update_self, List.append_nil]
            refine ⟨n, e, e', ⟨within, fun l hl => ?_, waiting⟩, begun, run, result⟩
            exact (kept l fun later => apart hl later).symm
        | cons k' between =>
            obtain ⟨same, inside⟩ := List.cons.inj split
            subst same
            have inside : rest = between ++ l :: after := inside
            have other : l ≠ k := by
              rintro rfl
              exact new (by rw [inside]; simp)
            rw [Function.update_of_ne other, Function.update_of_ne other]
            have later := ran between l after inside
            rwa [List.append_assoc] at later

/-- Every key of a loop that gives a result has what its step made of it. -/
theorem ran_made {S : Key → E → Prop} (once : ks.Nodup)
    (keeps : ∀ n k e, I n → k ∈ ks → K.get m k = some e → K.get n k = some e →
      Gives (fun _ e' => I (K.set n k e') ∧ S k e') (f n k e))
    (ran : ∀ before k after, ks = before ++ k :: after →
      ∃ n e e', K.Ran f I m final before k (a k) (b k) n e e') :
    ∀ k ∈ ks, ∃ e, K.get final k = some e ∧ S k e := by
  intro k hk
  obtain ⟨before, after, split⟩ := List.append_of_mem hk
  obtain ⟨n, e, e', step⟩ := ran before k after split
  have found := (step.midway.waiting k (notMem_before once split)).trans step.begun
  obtain ⟨-, -, -, holds⟩ := keeps n k e step.midway.within hk step.begun found _ e' _ step.run
  exact ⟨e', step.result, holds⟩

/-- What a loop makes of its entities, if its steps do so whatever was made before them. -/
theorem loop_gives {P : E → E → Prop} (once : ks.Nodup) (there : ∀ k ∈ ks, (K.get m k).isSome)
    (start : I m) (each : ∀ n k e, I n → k ∈ ks → K.get m k = some e → K.get n k = some e →
      Gives (fun _ e' => I (K.set n k e') ∧ P e e') (f n k e)) :
    Gives (fun _ n => I n ∧ (∀ k ∈ ks, ∃ e e', K.get m k = some e ∧ K.get n k = some e' ∧ P e e') ∧
        ∀ k ∉ ks, K.get n k = K.get m k) (K.loop f ks m) := by
  refine Gives.foldlM (I := fun before _ n => I n ∧
    (∀ k ∈ before, ∃ e e', K.get m k = some e ∧ K.get n k = some e' ∧ P e e') ∧
    ∀ k ∉ before, K.get n k = K.get m k) ?_ ?_
  · exact ⟨start, fun k hk => absurd hk List.not_mem_nil, fun _ _ => rfl⟩
  · rintro before k after ds n split ⟨within, passed, waiting⟩
    have member : k ∈ ks := by rw [split]; simp
    have early := notMem_before once split
    obtain ⟨e, begun⟩ := Option.isSome_iff_exists.mp (there k member)
    have found := (waiting k early).trans begun
    rw [step_found found, ← bind_pure_comp]
    refine (each n k e within member begun found).bind fun ds' e' made =>
      .pure ⟨made.1, fun l hl => ?_, waiting_set e' waiting⟩
    rcases List.mem_append.mp hl with before | here
    · obtain ⟨d, d', begun', result, related⟩ := passed l before
      have other : k ≠ l := by
        rintro rfl
        exact early before
      exact ⟨d, d', begun', (get_set_other e' other).trans result, related⟩
    · cases List.mem_singleton.mp here
      exact ⟨e, e', begun, get_set_self found, made.2⟩

/-- A loop whose steps note nothing gives a result and notes nothing. -/
theorem loop_pure (g : E → E) (ks : List Key) (m : Model) :
    ∃ n, K.loop (fun _ _ e => pure (g e)) ks m = pure n := by
  unfold loop
  induction ks generalizing m with
  | nil => exact ⟨m, rfl⟩
  | cons k ks ih =>
      rw [List.foldlM_cons, step]
      cases K.get m k with
      | none => exact ih m
      | some e => exact ih (K.set m k (g e))

section Mirroring
variable {μ : Mirror} {key : Key → Key} {f' : Model → Key → E → Noting E} {m' : Model} {ks' : List Key}
  {J : Model → Prop} {R : Key → E → E → Prop} {S : Key → E → Prop}

/-- The second run on its way while the first one is through: what it passed is related to what the
first one made of it. -/
structure Chases (K : Kind E) (key : Key → Key) (R : Key → E → E → Prop) (J : Model → Prop)
    (m' final : Model) (before' : List Key) (n' : Model) : Prop where
  within : J n'
  passed : ∀ k, key k ∈ before' →
    ∃ e e', K.get final k = some e ∧ K.get n' (key k) = some e' ∧ R k e e'
  waiting : ∀ k ∉ before', K.get n' k = K.get m' k

/-- The second run takes one more key. -/
theorem Chases.next {before' : List Key} {n' : Model} (injective : key.Injective)
    (chases : K.Chases key R J m' final before' n') {k : Key} {e e' r : E}
    (within : J (K.set n' (key k) e')) (result : K.get final k = some e)
    (found : K.get n' (key k) = some r) (related : R k e e') :
    K.Chases key R J m' final (before' ++ [key k]) (K.set n' (key k) e') := by
  refine ⟨within, fun l hl => ?_, waiting_set e' chases.waiting⟩
  rw [List.mem_append, List.mem_singleton] at hl
  by_cases here : l = k
  · subst here
    exact ⟨e, e', result, get_set_self found, related⟩
  · have other : key l ≠ key k := fun same => here (injective same)
    obtain ⟨d, d', known, known', related'⟩ := chases.passed l (hl.resolve_right other)
    exact ⟨d, d', known, (get_set_other e' (Ne.symm other)).trans known', related'⟩

/-- What one step of the second run does, given what the first run did for the same entity. -/
def Mirrored (K : Kind E) (μ : Mirror) (key : Key → Key) (f f' : Model → Key → E → Noting E) (m m' : Model)
    (I J : Model → Prop) (R : Key → E → E → Prop) (S : Key → E → Prop)
    (ks ks' : List Key) : Prop :=
  ∀ final before k after before' after' n n' e e', ks = before ++ k :: after →
    ks' = before' ++ key k :: after' → K.Midway I m final before n →
    K.Chases key R J m' final before' n' →
    (∀ l ∈ ks, ∃ d, K.get final l = some d ∧ S l d) →
    K.get m k = some e → K.get m' (key k) = some e' →
    μ.Reflects (R k) (f n k e) (f' n' (key k) e')

theorem loop_reflects (once : ks.Nodup) (takes : μ.Takes key ks ks')
    (there : ∀ k ∈ ks, (K.get m k).isSome) (there' : ∀ k ∈ ks, (K.get m' (key k)).isSome)
    (start : I m) (start' : J m')
    (keeps : ∀ n k e, I n → k ∈ ks → K.get m k = some e → K.get n k = some e →
      Gives (fun _ e' => I (K.set n k e') ∧ S k e') (f n k e))
    (keeps' : ∀ n k e, J n → k ∈ ks' → K.get m' k = some e → K.get n k = some e →
      Gives (fun _ e' => J (K.set n k e')) (f' n k e))
    (each : K.Mirrored μ key f f' m m' I J R S ks ks') :
    μ.Reflects (fun n n' => K.Midway I m n ks n ∧ K.Chases key R J m' n ks' n')
      (K.loop f ks m) (K.loop f' ks' m') := by
  intro first final last done
  obtain ⟨ends, a, b, follow, ran⟩ := loop_run once there
    (fun n k e within member begun found => (keeps n k e within member begun found).mono fun _ _ => And.left)
    start done
  have once' : ks'.Nodup := takes.perm.nodup_iff.mpr (once.map takes.injective)
  have back : ∀ k' ∈ ks', ∃ k ∈ ks, key k = k' := fun k' hk' =>
    List.mem_map.mp (takes.perm.mem_iff.mp hk')
  have made := ran_made once keeps ran
  -- the first run is through: by induction on what the second run has left, each of its steps
  -- mirrors the one that the first run did for the same entity, whenever that was
  suffices all : ∀ rest' before' n', ks' = before' ++ rest' →
      K.Chases key R J m' final before' n' → ∃ n'' G,
        Adds (rest'.foldlM (K.step f') n') n'' (rest'.map G).sum ∧
        K.Chases key R J m' final ks' n'' ∧
        ∀ k, key k ∈ rest' → b k = a k + (a k).since (b k) ∧
          μ.notes ((a k).since (b k)) (G (key k)) by
    have none : K.Chases key R J m' final [] m' :=
      ⟨start', fun k hk => absurd hk List.not_mem_nil, fun _ _ => rfl⟩
    obtain ⟨final', G, adds, chases, noted⟩ := all ks' [] m' rfl none
    have inside : ∀ k ∈ ks, key k ∈ ks' := fun k => takes.mem_iff.mpr
    refine ⟨(ks.map fun k => (a k).since (b k)).sum, final', (ks'.map G).sum, ?_, adds,
      ⟨ends, chases⟩, ?_⟩
    · exact follow.sum fun k hk => (noted k (inside k hk)).1
    · exact takes.tally fun k hk => (noted k (inside k hk)).2
  intro rest'
  induction rest' with
  | nil =>
      intro before' n' whole chases
      rw [List.append_nil] at whole
      subst whole
      exact ⟨n', fun _ => 0, .pure n', chases, fun k hk => absurd hk List.not_mem_nil⟩
  | cons k' rest' ih =>
      intro before' n' whole chases
      have member : k' ∈ ks' := by rw [whole]; simp
      obtain ⟨k, hk, rfl⟩ := back k' member
      have new := notMem_after once' whole
      have early := notMem_before once' whole
      obtain ⟨before, after, split⟩ := List.append_of_mem hk
      obtain ⟨n, e, r, step⟩ := ran before k after split
      obtain ⟨e', begun⟩ := Option.isSome_iff_exists.mp (there' k hk)
      have found := (chases.waiting (key k) early).trans begun
      obtain ⟨more, r', more', noted, adds, related, compare⟩ := each final before k after before'
        rest' n n' e e' split whole step.midway chases made step.begun begun _ _ _ step.run
      have within := adds.gives (keeps' n' (key k) e' chases.within member begun found)
      have shifted : ks' = (before' ++ [key k]) ++ rest' := by
        rw [whole, List.append_assoc]
        rfl
      have further := chases.next takes.injective within step.result found related
      obtain ⟨final', G, addsRest, chases', notedRest⟩ := ih _ _ shifted further
      have rest : rest'.map (Function.update G (key k) more') = rest'.map G := by
        refine List.map_congr_left fun l hl => Function.update_of_ne ?_ ..
        rintro rfl
        exact new hl
      refine ⟨final', Function.update G (key k) more', ?_, chases', fun l hl => ?_⟩
      · rw [List.foldlM_cons, step_found found, bind_map_left, List.map_cons, List.sum_cons,
          Function.update_self, rest]
        exact adds.bind addsRest
      · by_cases here : l = k
        · subst here
          rw [noted, Notes.since_add, Function.update_self]
          exact ⟨rfl, compare⟩
        · have other : key l ≠ key k := fun same => here (takes.injective same)
          rw [Function.update_of_ne other]
          exact notedRest l ((List.mem_cons.mp hl).resolve_left other)

/-- The entities under some keys of one model are related to those that stand for them. -/
def Related (K : Kind E) (key : Key → Key) (R : E → E → Prop) (ks : List Key) (m m' : Model) :
    Prop :=
  ∀ k ∈ ks, ∃ e e', K.get m k = some e ∧ K.get m' (key k) = some e' ∧ R e e'

/-- A loop whose steps look at nothing of the other entities that the loop could change. -/
theorem loop_reflects_each {R Q : E → E → Prop} (once : ks.Nodup) (takes : μ.Takes key ks ks')
    (related : K.Related key R ks m m') (start : I m) (start' : J m')
    (keeps : ∀ n k e, I n → k ∈ ks → K.get m k = some e → K.get n k = some e →
      Gives (fun _ e' => I (K.set n k e')) (f n k e))
    (keeps' : ∀ n k e, J n → k ∈ ks' → K.get m' k = some e → K.get n k = some e →
      Gives (fun _ e' => J (K.set n k e')) (f' n k e))
    (each : ∀ n n' k e e', I n → J n' → R e e' →
      μ.Reflects Q (f n k e) (f' n' (key k) e')) :
    μ.Reflects (fun n n' => I n ∧ J n' ∧ K.Related key Q ks n n' ∧
        ∀ k ∉ ks, K.get n k = K.get m k ∧ K.get n' (key k) = K.get m' (key k))
      (K.loop f ks m) (K.loop f' ks' m') := by
  refine (loop_reflects (R := fun _ => Q) (S := fun _ _ => True) once takes ?_ ?_ start start'
    (fun n k e within member begun found => (keeps n k e within member begun found).mono fun _ _ kept =>
      ⟨kept, trivial⟩) keeps' ?_).mono ?_
  · intro k hk
    obtain ⟨e, -, found, -⟩ := related k hk
    rw [found]
    rfl
  · intro k hk
    obtain ⟨-, e', -, found, -⟩ := related k hk
    rw [found]
    rfl
  · intro final before k after before' after' n n' e e' split _ midway chases _ begun begun'
    obtain ⟨d, d', found, found', alike⟩ := related k (by rw [split]; simp)
    rw [begun, Option.some.injEq] at found
    rw [begun', Option.some.injEq] at found'
    exact each n n' k e e' midway.within chases.within (found ▸ found' ▸ alike)
  · intro n n' both
    refine ⟨both.1.within, both.2.within, fun k hk => both.2.passed k ?_, fun k hk => ?_⟩
    · exact takes.mem_iff.mpr hk
    · exact ⟨both.1.waiting k hk, both.2.waiting (key k) fun there => hk (takes.mem_iff.mp there)⟩

end Mirroring

end Kind

/-- The classes of a model. -/
def classKind : Kind Class := ⟨Model.class?, Model.setClass, Model.class?_setClass⟩

/-- The endpoints of a model. -/
def endpointKind : Kind Endpoint := ⟨Model.endpoint?, Model.setEndpoint, Model.endpoint?_setEndpoint⟩

theorem forOwnClasses_eq (s : Scope) (f : Model → Key → Class → Noting Class) (m : Model) :
    forOwnClasses s f m = classKind.loop f (m.ownClasses s.self) m := by
  refine congrArg (fun step => (m.ownClasses s.self).foldlM step m) (funext₂ fun n k => ?_)
  have got : classKind.get n k = n.class? k := rfl
  rw [Kind.step, got]
  cases n.class? k <;> rfl

theorem forOwnEndpoints_eq (s : Scope) (f : Model → Endpoint → Noting Endpoint) (m : Model) :
    forOwnEndpoints s f m = endpointKind.loop (fun n _ => f n) (m.ownEndpoints s.self) m := by
  refine congrArg (fun step => (m.ownEndpoints s.self).foldlM step m) (funext₂ fun n k => ?_)
  have got : endpointKind.get n k = n.endpoint? k := rfl
  rw [Kind.step, got]
  cases n.endpoint? k <;> rfl

section Visiting
variable {μ : Mirror} {key : Key → Key} {ks ks' : List Key} {f g : Key → Noting Unit}

theorem forM_adds {G : Key → Notes} (each : ∀ k ∈ ks, Adds (g k) () (G k)) :
    Adds (ks.forM g) () (ks.map G).sum := by
  induction ks with
  | nil => exact .pure ()
  | cons k ks ih =>
      obtain ⟨first, rest⟩ := List.forall_mem_cons.mp each
      rw [List.map_cons, List.sum_cons]
      exact first.bind (ih rest)

/-- What visiting keys one after the other notes, and what the second run notes for the same
keys. -/
theorem forM_run (injective : key.Injective) (once : ks.Nodup)
    (each : ∀ k ∈ ks, μ.Reflects (fun _ _ => True) (f k) (g (key k))) {n n' : Notes}
    (done : (ks.forM f).run n = .ok ((), n')) :
    ∃ F G : Key → Notes, n' = n + (ks.map F).sum ∧
      ∀ k ∈ ks, Adds (g (key k)) () (G (key k)) ∧ μ.notes (F k) (G (key k)) := by
  induction ks generalizing n with
  | nil =>
      cases done
      exact ⟨fun _ => 0, fun _ => 0, (add_zero _).symm, fun k hk => absurd hk List.not_mem_nil⟩
  | cons k ks ih =>
      obtain ⟨new, once⟩ := List.nodup_cons.mp once
      obtain ⟨here, later⟩ := List.forall_mem_cons.mp each
      have split : (f k >>= fun _ => ks.forM f).run n = .ok ((), n') := done
      obtain ⟨_, between, run, split⟩ := run_bind split
      obtain ⟨more, _, more', noted, adds, -, compare⟩ := here n _ between run
      obtain ⟨F, G, sum, rest⟩ := ih once later split
      have other : ∀ l ∈ ks, l ≠ k := by
        rintro l hl rfl
        exact new hl
      have kept : ks.map (Function.update F k more) = ks.map F :=
        List.map_congr_left fun l hl => Function.update_of_ne (other l hl) ..
      refine ⟨Function.update F k more, Function.update G (key k) more', ?_, ?_⟩
      · rw [List.map_cons, List.sum_cons, Function.update_self, kept, sum, noted, add_assoc]
      · refine List.forall_mem_cons.mpr ⟨?_, fun l hl => ?_⟩
        · rw [Function.update_self, Function.update_self]
          exact ⟨adds, compare⟩
        · rw [Function.update_of_ne (other l hl),
            Function.update_of_ne (injective.ne (other l hl))]
          exact rest l hl

theorem forM_reflects (once : ks.Nodup) (takes : μ.Takes key ks ks')
    (each : ∀ k ∈ ks, μ.Reflects (fun _ _ => True) (f k) (g (key k))) :
    μ.Reflects (fun _ _ => True) (ks.forM f) (ks'.forM g) := by
  intro n _ n' done
  obtain ⟨F, G, sum, noted⟩ := forM_run takes.injective once each done
  refine ⟨_, (), (ks'.map G).sum, sum, forM_adds fun k' hk' => ?_, trivial,
    takes.tally fun k hk => (noted k hk).2⟩
  obtain ⟨k, hk, rfl⟩ := List.mem_map.mp (takes.perm.mem_iff.mp hk')
  exact (noted k hk).1

end Visiting
end DataModel.Resolution
