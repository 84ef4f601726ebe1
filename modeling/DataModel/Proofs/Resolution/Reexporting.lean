import DataModel.Proofs.Resolution.Answers

/-!
Re-exports, entry by entry. A file that resolves without an error finds all that its aliases list.
What it offers then is its own list into which the listed names are worked: each of them stands for
what its last listing means, in the place of the declared entity of that name or, if there is none,
behind all others. Every other entity stays where it was declared.
-/
namespace DataModel.Resolution
variable {s : Scope} {m n : Model} {v : VersionId} {f : ModelFile} {name? : Key → Option String}

section Names
variable {ks cs : List Key} {k : Key} {declared listed : List String} {name : String}

/-- Names with those of others behind them that are new, in the order in which they first come. -/
def withNew (declared listed : List String) : List String :=
  declared ++ (listed.filter fun name => !declared.contains name).eraseDups

theorem mem_withNew : name ∈ withNew declared listed ↔ name ∈ declared ∨ name ∈ listed := by
  by_cases known : name ∈ declared <;> simp [withNew, known]

theorem withNew_snoc : withNew declared (listed ++ [name]) =
    if name ∈ withNew declared listed then withNew declared listed
    else withNew declared listed ++ [name] := by
  simp only [mem_withNew]
  by_cases known : name ∈ declared
  · simp [withNew, List.filter_append, known]
  · by_cases again : name ∈ listed
    · simp [withNew, List.filter_append, List.eraseDups_append, List.removeAll, known, again]
    · simp [withNew, List.filter_append, List.eraseDups_append, List.removeAll, List.eraseDups_cons,
        known, again]

/-- Names come in the order in which they were declared, and behind them in that of their first
listing. -/
theorem names_replaceAll (names : cs.map name? = declared.map some)
    (taken : ks.map name? = listed.map some) :
    (replaceAll name? ks cs).map name? = (withNew declared listed).map some := by
  induction listed using List.reverseRecOn generalizing ks with
  | nil =>
      rw [List.map_nil, List.map_eq_nil_iff] at taken
      rw [taken, withNew, List.filter_nil, List.eraseDups_nil, List.append_nil]
      exact names
  | append_singleton listed name ih =>
      rw [List.map_append] at taken
      obtain ⟨ks, last, rfl, before, here⟩ := List.map_eq_append_iff.mp taken
      obtain ⟨k, rest, rfl, named, none⟩ := List.map_eq_cons_iff.mp here
      rw [List.map_nil, List.map_eq_nil_iff] at none
      rw [none, replaceAll, List.foldl_append, List.foldl_cons, List.foldl_nil, ← replaceAll,
        names_replaceOrAppend, ih before, named, withNew_snoc]
      simp only [List.mem_map, Option.some.injEq, exists_eq_right]
      split
      · rfl
      · rw [List.map_append, List.map_singleton]

/-- Where names come once, an entity stands in the place of its name. -/
theorem getElem?_of_name (once : (ks.map name?).Nodup) {i : Nat}
    (place : (ks.map name?)[i]? = some (some name))
    (found : ks.find? (name? · == some name) = some k) : ks[i]? = some k := by
  obtain ⟨j, here, rfl⟩ := List.getElem_of_mem (List.mem_of_find?_eq_some found)
  have named : name? ks[j] = some name := by simpa using List.find?_some found
  have there : (ks.map name?)[j]? = some (some name) := by
    rw [List.getElem?_map, List.getElem?_eq_getElem here, Option.map_some, named]
  have bound : i < (ks.map name?).length := (List.getElem?_eq_some_iff.mp place).1
  have same : i = j := (List.getElem?_inj bound once).mp (place.trans there.symm)
  rw [same, List.getElem?_eq_getElem here]

/-- What is told of entities by their names stays for those names that nothing is taken for. -/
theorem filter_replaceAll {p : Key → Bool} (byName : ∀ k l, name? k = name? l → p k = p l)
    (unlisted : ∀ k ∈ ks, p k = false) (cs : List Key) :
    (replaceAll name? ks cs).filter p = cs.filter p := by
  induction ks generalizing cs with
  | nil => rfl
  | cons k ks ih =>
      obtain ⟨out, rest⟩ := List.forall_mem_cons.mp unlisted
      refine (ih rest (replaceOrAppend name? k cs)).trans ?_
      induction cs with
      | nil => simp [replaceOrAppend, out]
      | cons e cs step =>
          rw [replaceOrAppend]
          split
          · next same =>
            have gone : p e = false := (byName e k (beq_iff_eq.mp same)).trans out
            simp [out, gone]
          · rw [List.filter_cons, List.filter_cons, step]

theorem getElem?_replaceOrAppend {l : Key} {i : Nat} (here : cs[i]? = some k)
    (apart : name? l ≠ name? k) : (replaceOrAppend name? l cs)[i]? = some k := by
  induction cs generalizing i with
  | nil => cases here
  | cons e cs ih =>
      rw [replaceOrAppend]
      cases i with
      | zero =>
          cases Option.some.inj here
          rw [if_neg (by simpa using Ne.symm apart), List.getElem?_cons_zero]
      | succ i =>
          rw [List.getElem?_cons_succ] at here
          split
          · exact here
          · exact ih here

/-- An entity stays in its place where nothing of its name is taken. -/
theorem getElem?_replaceAll {i : Nat} (here : cs[i]? = some k)
    (unlisted : ∀ l ∈ ks, name? l ≠ name? k) : (replaceAll name? ks cs)[i]? = some k := by
  induction ks generalizing cs with
  | nil => exact here
  | cons l ks ih =>
      obtain ⟨apart, rest⟩ := List.forall_mem_cons.mp unlisted
      exact ih (getElem?_replaceOrAppend here apart) rest

end Names

section Taking
variable {find : List Key → String × String → Option Key} {t t' t'' : List Key}
  {xs ys : List (String × String)} {x : String × String}

/-- Entities that are found one after the other, and what is taken with them. Each listing has the
name of a file and that of an entity in it. -/
inductive Brings (find : List Key → String × String → Option Key) :
    List Key → List (String × String) → List Key → Prop
  | nil {t : List Key} : Brings find t [] t
  | cons {t t' : List Key} {x : String × String} {xs : List (String × String)} {k : Key}
    (found : find t x = some k) (later : Brings find (t ++ [k]) xs t') :
    Brings find t (x :: xs) t'

namespace Brings

theorem append (h : Brings find t xs t') (h' : Brings find t' ys t'') :
    Brings find t (xs ++ ys) t'' := by
  induction h with
  | nil => exact h'
  | cons found later ih => exact .cons found (ih h')

/-- What is taken has the names that are listed. -/
theorem names (named : ∀ t x k, find t x = some k → name? k = some x.2)
    (h : Brings find t xs t') :
    ∃ ks, t' = t ++ ks ∧ ks.map name? = (xs.map Prod.snd).map some := by
  induction h with
  | nil => exact ⟨[], (List.append_nil _).symm, rfl⟩
  | @cons t t' x xs k found later ih =>
      obtain ⟨ks, rfl, names⟩ := ih
      refine ⟨k :: ks, by simp, ?_⟩
      rw [List.map_cons, named _ _ _ found, names, List.map_cons, List.map_cons]

/-- One listing among the others, and what is taken before and after it. -/
theorem split (h : Brings find t (xs ++ x :: ys) t'') :
    ∃ t' k, Brings find t xs t' ∧ find t' x = some k ∧ Brings find (t' ++ [k]) ys t'' := by
  induction xs generalizing t with
  | nil =>
      cases h with
      | cons found later => exact ⟨t, _, .nil, found, later⟩
  | cons x' xs ih =>
      cases h with
      | cons found later =>
          obtain ⟨t', k, before, here, after⟩ := ih later
          exact ⟨t', k, .cons found before, here, after⟩

end Brings

/-- What the files that a file names offer, those that it lists something of. -/
def lookUp (s : Scope) (name? : Key → Option String) (keys : VersionId → List Key)
    (taken : List Key) (x : String × String) : Option Key :=
  (s.file? x.1).bind fun source => offered? name? keys s.self taken source x.2

/-- What the aliases of a file list: names of files, with the names of what is to be taken there. -/
def listings (entities : FileAlias → List Reference) (as : List FileAlias) :
    List (String × String) :=
  as.flatMap fun a => (entities a).map fun r => (a.file.name, r.name)

/-- Where nothing is looked up in vain, all that is listed of one file is taken. -/
theorem brings_taken (entries : Intake → List Key) {look : Intake → String → Option Key}
    {add : Intake → List Key → Intake} {missing : Code} (file : String)
    (adds : ∀ t ks ls, entries { add t ks with lookups := ls } = entries t ++ ks)
    (looks : ∀ t name, look t name = find (entries t) (file, name)) (rs : List Reference)
    (t : Intake) (all : failures (rs.foldl (.take look add missing) t).lookups = []) :
    failures t.lookups = [] ∧ Brings find (entries t) (rs.map fun r => (file, r.name))
      (entries (rs.foldl (.take look add missing) t)) := by
  induction rs generalizing t with
  | nil => exact ⟨all, .nil⟩
  | cons r rs ih =>
      rw [List.foldl_cons] at all ⊢
      obtain ⟨none, later⟩ := ih _ all
      rw [Intake.take, failures_append, List.append_eq_nil_iff] at none
      cases found : look t r.name with
      | none =>
          rw [found] at none
          cases none.2
      | some k =>
          have taken : entries (Intake.take look add missing t r) = entries t ++ [k] := by
            rw [Intake.take, adds, found, Option.toList_some]
          rw [taken] at later
          exact ⟨none.1, .cons ((looks t r.name).symm.trans found) later⟩

theorem classes_takeEndpoint {source : VersionId} (rs : List Reference) (t : Intake) :
    (rs.foldl (.takeEndpoint m v source) t).classes = t.classes := by
  induction rs generalizing t with
  | nil => rfl
  | cons r rs ih => exact ih _

theorem endpoints_takeClass {source : VersionId} (rs : List Reference) (t : Intake) :
    (rs.foldl (.takeClass m v source) t).endpoints = t.endpoints := by
  induction rs generalizing t with
  | nil => rfl
  | cons r rs ih => exact ih _

/-- Classes and endpoints that are taken, each kind for the listings of its own. -/
def BringsBoth (s : Scope) (m : Model) (t : Intake) (as : List FileAlias) (t' : Intake) : Prop :=
  Brings (lookUp s (className? m) m.classes) t.classes (listings (·.classes) as) t'.classes ∧
    Brings (lookUp s (endpointName? m) m.endpoints) t.endpoints (listings (·.endpoints) as)
      t'.endpoints

theorem listings_cons (entities : FileAlias → List Reference) (a : FileAlias)
    (as : List FileAlias) :
    listings entities (a :: as) = listings entities [a] ++ listings entities as := by
  simp [listings]

theorem brings_takeAlias (t : Intake) (a : FileAlias)
    (all : failures (t.takeAlias s m a).lookups = []) :
    failures t.lookups = [] ∧ BringsBoth s m t [a] (t.takeAlias s m a) := by
  unfold Intake.takeAlias at all ⊢
  cases source : s.file? a.file.name with
  | none =>
      rw [source, failures_append, List.append_eq_nil_iff] at all
      cases all.2
  | some d =>
      simp only [source] at all ⊢
      have found {name? : Key → Option String} {keys : VersionId → List Key} {taken : List Key}
          {name : String} : lookUp s name? keys taken (a.file.name, name) =
            offered? name? keys s.self taken d name := by
        rw [lookUp, source, Option.bind_some]
      obtain ⟨first, endpoints⟩ := brings_taken (·.endpoints) a.file.name
        (fun _ _ _ => rfl) (fun _ _ => found.symm) a.endpoints _ all
      obtain ⟨start, classes⟩ := brings_taken (·.classes) a.file.name
        (fun _ _ _ => rfl) (fun _ _ => found.symm) a.classes _ first
      rw [failures_append, List.append_eq_nil_iff] at start
      refine ⟨start.1, ?_, ?_⟩
      · rw [classes_takeEndpoint, listings, List.flatMap_singleton]
        exact classes
      · rw [endpoints_takeClass] at endpoints
        rw [listings, List.flatMap_singleton]
        exact endpoints

/-- Where nothing is looked up in vain, all that is listed is taken. -/
theorem brings_whole (as : List FileAlias)
    (all : failures (Intake.whole s m as).lookups = []) :
    BringsBoth s m .nothing as (.whole s m as) := by
  suffices each : ∀ t : Intake, failures (as.foldl (Intake.takeAlias s m) t).lookups = [] →
      failures t.lookups = [] ∧ BringsBoth s m t as (as.foldl (Intake.takeAlias s m) t) from
    (each .nothing all).2
  clear all
  intro t all
  induction as generalizing t with
  | nil => exact ⟨all, .nil, .nil⟩
  | cons a as ih =>
      rw [List.foldl_cons] at all ⊢
      obtain ⟨first, laterClasses, laterEndpoints⟩ := ih (t.takeAlias s m a) all
      obtain ⟨start, classes, endpoints⟩ := brings_takeAlias t a first
      rw [BringsBoth, listings_cons (·.classes), listings_cons (·.endpoints)]
      exact ⟨start, classes.append laterClasses, endpoints.append laterEndpoints⟩

end Taking

section Entries
variable {source? : String → Option VersionId} {entries : VersionId → List Key}
  {declared : List String} {listed : List (String × String)} {own : List Key}

/-- The entries of a file with some declared names, once what it lists of others is worked in. -/
structure Rewritten (name? : Key → Option String) (source? : String → Option VersionId)
    (entries : VersionId → List Key) (v : VersionId) (declared : List String)
    (listed : List (String × String)) (own : List Key) : Prop where
  /-- The declared names come first, and behind them those that are new. -/
  names : (entries v).map name? = (withNew declared (listed.map Prod.snd)).map some
  once : ((entries v).map name?).Nodup
  /-- The last listing of a name decides: the file that it names is there, and the first entity of
  the name in that file is the entry, in the place of the declared one if there is any. -/
  taken : ∀ before file name after, listed = before ++ (file, name) :: after →
    (∀ x ∈ after, x.2 ≠ name) → ∃ d k, source? file = some d ∧
      (entries d).find? (name? · == some name) = some k ∧
      (entries v).find? (name? · == some name) = some k ∧
      ∀ i : Nat, declared[i]? = some name → (entries v)[i]? = some k
  kept : ∀ (i : Nat) (name : String), declared[i]? = some name → name ∉ listed.map Prod.snd →
    (entries v)[i]? = some ⟨v, i⟩
  own : own = (declared.zipIdx.filter fun (name, _) => !(listed.map Prod.snd).contains name).map
    fun (_, i) => ⟨v, i⟩

theorem names_numbered (names : ∀ i, name? ⟨v, i⟩ = declared[i]?) :
    (numbered v declared.length).map name? = declared.map some := by
  refine List.ext_getElem? fun i => ?_
  rw [numbered, List.map_map, List.getElem?_map, List.getElem?_map]
  by_cases bound : i < declared.length
  · rw [List.getElem?_range bound, Option.map_some, Function.comp_apply, names,
      List.getElem?_eq_getElem bound]
    rfl
  · rw [List.getElem?_eq_none (by simpa using bound), List.getElem?_eq_none (by simpa using bound)]
    rfl

theorem numbered_eq (v : VersionId) (declared : List String) :
    numbered v declared.length = declared.zipIdx.map fun (_, i) => ⟨v, i⟩ := by
  rw [numbered, List.range_eq_range', ← List.zipIdx_map_snd 0 declared, List.map_map]
  rfl

theorem lookUp_names {keys : VersionId → List Key} (t : List Key) (x : String × String) (k : Key)
    (found : lookUp s name? keys t x = some k) : name? k = some x.2 := by
  obtain ⟨source, -, offered⟩ := Option.bind_eq_some_iff.mp found
  simpa using List.find?_some offered

/-- The own entries of a file are those whose names are not listed. -/
theorem own_of_taken {ks : List Key} (names : ∀ i, name? ⟨v, i⟩ = declared[i]?)
    (once : declared.Nodup) {listed : List String} (taken : ks.map name? = listed.map some) :
    ((replaceAll name? ks (numbered v declared.length)).filter fun k => !ks.contains k) =
      (declared.zipIdx.filter fun (name, _) => !listed.contains name).map fun (_, i) => ⟨v, i⟩ := by
  have declares := names_numbered names
  have onceNames : ((numbered v declared.length).map name?).Nodup := by
    rw [declares]
    exact once.map (Option.some_injective String)
  have memTaken : ∀ name?', name?' ∈ listed.map some ↔ ∃ l ∈ ks, name? l = name?' := by
    intro name?'
    rw [← taken, List.mem_map]
  have byName : ∀ k ∈ replaceAll name? ks (numbered v declared.length),
      (!ks.contains k) = !(listed.map some).contains (name? k) := by
    intro k member
    rw [Bool.eq_iff_iff, Bool.not_eq_true', Bool.not_eq_true', ← Bool.not_eq_true,
      ← Bool.not_eq_true, List.contains_iff_mem, List.contains_iff_mem, memTaken]
    constructor
    · intro new
      obtain ⟨-, apart⟩ := (mem_replaceAll_of_new onceNames new).mp member
      rintro ⟨l, hl, same⟩
      exact apart l hl same
    · intro unlisted hk
      exact unlisted ⟨k, hk, rfl⟩
  rw [List.filter_congr byName, filter_replaceAll, numbered_eq, List.filter_map]
  · congr 1
    refine List.filter_congr ?_
    rintro ⟨name, i⟩ place
    have here : name? ⟨v, i⟩ = some name := (names i).trans (List.mem_zipIdx_iff_getElem?.mp place)
    simp [here]
  · intro k l same
    rw [same]
  · intro k hk
    rw [Bool.not_eq_false', List.contains_iff_mem, memTaken]
    exact ⟨k, hk, rfl⟩

/-- A list into which the taken entities are put, one after the other, is rewritten by the
listings that they were found for. -/
theorem rewritten_of_brings {keys : VersionId → List Key} {ks : List Key}
    (names : ∀ i, name? ⟨s.self, i⟩ = declared[i]?) (once : declared.Nodup)
    (start : keys s.self = numbered s.self declared.length)
    (brings : Brings (lookUp s name? keys) [] listed ks)
    (here : entries s.self = replaceAll name? ks (keys s.self))
    (others : ∀ d, d ≠ s.self → entries d = keys d) :
    Rewritten name? s.file? entries s.self declared listed
      ((entries s.self).filter fun k => !ks.contains k) := by
  have declares := names_numbered names
  obtain ⟨_, same, taken⟩ := brings.names lookUp_names
  rw [List.nil_append] at same
  rw [← same] at taken
  rw [start] at here
  have whole := names_replaceAll declares taken
  rw [← here] at whole
  have onceNames : ((entries s.self).map name?).Nodup := by
    rw [here]
    apply nodup_replaceAll
    rw [declares]
    exact once.map (Option.some_injective String)
  refine ⟨whole, onceNames, ?_, ?_, here ▸ own_of_taken names once taken⟩
  · intro before file name after split last
    rw [split] at brings
    obtain ⟨t, k, -, found, rest⟩ := brings.split
    obtain ⟨later, whole', laterNames⟩ := rest.names lookUp_names
    have named : name? k = some name := lookUp_names _ _ _ found
    have apart : ∀ l ∈ later, name? l ≠ name? k := by
      intro l hl
      have listed : name? l ∈ (after.map Prod.snd).map some := laterNames ▸ List.mem_map_of_mem hl
      obtain ⟨name', known, given⟩ := List.mem_map.mp listed
      obtain ⟨x, hx, rfl⟩ := List.mem_map.mp known
      rw [← given, named]
      exact fun same => last x hx (Option.some.inj same)
    have cut : ks = t ++ k :: later := whole'.trans (List.append_assoc ..)
    have entry : (entries s.self).find? (name? · == some name) = some k := by
      rw [here, ← named]
      exact find?_replaceAll cut apart _
    obtain ⟨d, source, offered⟩ := Option.bind_eq_some_iff.mp found
    refine ⟨d, k, source, ?_, entry, fun i declared => ?_⟩
    · by_cases own : d = s.self
      · rw [own, entry]
      · rw [others d own]
        rwa [offered?, if_neg own] at offered
    · refine getElem?_of_name onceNames ?_ entry
      rw [whole, List.getElem?_map, withNew,
        List.getElem?_append_left (List.getElem?_eq_some_iff.mp declared).1, declared,
        Option.map_some]
  · intro i name declared unlisted
    have bound := (List.getElem?_eq_some_iff.mp declared).1
    rw [here]
    apply getElem?_replaceAll
    · rw [numbered, List.getElem?_map, List.getElem?_range bound, Option.map_some]
    · intro l hl
      have listed : name? l ∈ (listed.map Prod.snd).map some := taken ▸ List.mem_map_of_mem hl
      rw [names, declared]
      intro same
      rw [same, List.mem_map] at listed
      obtain ⟨name', known, given⟩ := listed
      exact unlisted (Option.some.inj given ▸ known)

end Entries

section Whole

/-- What a file offers after all steps, and that it looked nothing up in vain for that if there is
no error. -/
theorem steps_exports (fresh : m.version? s.self = some (.fresh s.self f))
    (allowCompositeKeys : Bool) :
    Gives (fun ds n => Exported s m f n ∧
        (Clean ds → failures (Intake.whole s m f.aliases).lookups = []))
      (steps s allowCompositeKeys m) := by
  rw [steps_eq]
  refine (linking_rebinds (Model.homed_of_fresh fresh)).bind fun ds₁ m₁ rebinds => ?_
  obtain ⟨ver, known, bare⟩ := version_of_rebinds fresh rebinds
  have aliases : ver.file.aliases = f.aliases := congrArg (fun w : Version => w.file.aliases) bare
  refine Gives.bind (shareAliases_intake known) ?_
  rintro ds₂ _ ⟨rfl, told⟩
  rw [aliases, intake_of_rebinds rebinds] at told ⊢
  refine (checking_reports s allowCompositeKeys _).bind fun ds₃ _ _ => .pure ⟨?_, fun clean => ?_⟩
  · exact exported_of_rebinds fresh rebinds
  · simp only [clean_append] at clean
    rw [told, told_of_clean clean.2.1]
    rfl

theorem contains_addAll (ks : List Key) (k : Key) : (addAll ks []).contains k = ks.contains k := by
  rw [Bool.eq_iff_iff, List.contains_iff_mem, List.contains_iff_mem, mem_addAll]
  simp

/-- The own entities of a file are those that it did not take. -/
theorem Exported.own (exported : Exported s m f n) :
    n.ownClasses s.self = (n.classes s.self).filter
        (fun k => !(Intake.whole s m f.aliases).classes.contains k) ∧
      n.ownEndpoints s.self = (n.endpoints s.self).filter
        fun k => !(Intake.whole s m f.aliases).endpoints.contains k := by
  obtain ⟨ver, known, taken⟩ := Option.map_eq_some_iff.mp exported.shared
  obtain ⟨classes, endpoints⟩ := Prod.mk.inj taken
  constructor
  · rw [Model.ownClasses, Model.classes, known]
    simp only [Option.map_some, Option.getD_some, Version.ownClasses, classes, contains_addAll]
  · rw [Model.ownEndpoints, Model.endpoints, known]
    simp only [Option.map_some, Option.getD_some, Version.ownEndpoints, endpoints,
      contains_addAll]

theorem className?_fresh (fresh : m.version? v = some (.fresh v f)) (i : Nat) :
    className? m ⟨v, i⟩ = (f.classes.map (·.name))[i]? := by
  rw [className?, Model.class?, Model.file?, fresh, List.getElem?_map]
  rfl

theorem classes_fresh (fresh : m.version? v = some (.fresh v f)) :
    m.classes v = numbered v (f.classes.map (·.name)).length := by
  rw [Model.classes, fresh, List.length_map]
  rfl

theorem endpoints_fresh (fresh : m.version? v = some (.fresh v f)) :
    m.endpoints v = numbered v (f.endpoints.map (·.name)).length := by
  rw [Model.endpoints, fresh, List.length_map]
  rfl

theorem endpointName?_fresh (fresh : m.version? v = some (.fresh v f)) (i : Nat) :
    endpointName? m ⟨v, i⟩ = (f.endpoints.map (·.name))[i]? := by
  rw [endpointName?, Model.endpoint?, Model.file?, fresh, List.getElem?_map]
  rfl

end Whole
end DataModel.Resolution

namespace DataModel.Model
open Resolution
variable {m n : Model} {v : VersionId} {f : ModelFile} {dependencies : List VersionId}
  {domains : Table Key} {allowCompositeKeys : Bool} {ds : List Diagnostic}

/-- Resolving a file just loaded without an error rewrites what it offers exactly as its aliases
list it: its classes if their names are distinct, and its endpoints if theirs are. The files that it
takes from stay as they are. -/
theorem resolve_rewrites_entries (fresh : m.version? v = some (.fresh v f))
    (done : m.resolve v dependencies domains allowCompositeKeys = .ok (ds, n))
    (clean : Clean ds) :
    (∀ w, w ≠ v → n.version? w = m.version? w) ∧
      ((f.classes.map (·.name)).Nodup → Rewritten (className? n)
        (fun file => dependencies.reverse.find? (m.fileName · == file)) n.classes v
        (f.classes.map (·.name)) (listings (·.classes) f.aliases) (n.ownClasses v)) ∧
      ((f.endpoints.map (·.name)).Nodup → Rewritten (endpointName? n)
        (fun file => dependencies.reverse.find? (m.fileName · == file)) n.endpoints v
        (f.endpoints.map (·.name)) (listings (·.endpoints) f.aliases) (n.ownEndpoints v)) := by
  have evolves := resolve_evolves fresh done
  have sees : (Scope.of m v dependencies domains).file? =
      fun file => dependencies.reverse.find? (m.fileName · == file) :=
    funext (scope_sees m v dependencies domains).files
  have classNames : className? n = className? m := funext evolves.keepsShape.className
  have endpointNames : endpointName? n = endpointName? m := funext evolves.keepsShape.endpointName
  obtain ⟨exported, found⟩ := resolve_gives (steps_exports fresh allowCompositeKeys) done
  obtain ⟨takesClasses, takesEndpoints⟩ := brings_whole f.aliases (found clean)
  obtain ⟨ownClasses, ownEndpoints⟩ := exported.own
  rw [← sees, classNames, endpointNames]
  refine ⟨fun w other => evolves.others other, fun once => ?_, fun once => ?_⟩
  · refine ownClasses ▸ rewritten_of_brings (className?_fresh fresh) once (classes_fresh fresh)
      takesClasses exported.classes fun d other => ?_
    rw [classes, classes, evolves.others other]
  · refine ownEndpoints ▸ rewritten_of_brings (endpointName?_fresh fresh) once
      (endpoints_fresh fresh) takesEndpoints exported.endpoints fun d other => ?_
    rw [endpoints, endpoints, evolves.others other]

namespace Overlapping

def holder (name : String) (line : Nat) : Class :=
  ⟨name, "c", none, none, none, .none, false, none, none, none, none, [], [], [],
    some ⟨"App", "M"⟩, some ⟨"class", line, 1⟩⟩

def answer (name : String) (line : Nat) : Endpoint :=
  ⟨name, "GET", "/", none, [], none, some ⟨"App", "M"⟩, some ⟨"endpoint", line, 1⟩⟩

def file (name : String) (uses : List Reference) (classes : List Class)
    (endpoints : List Endpoint) (aliases : List FileAlias) : ModelFile :=
  ⟨name, "/model/" ++ name ++ ".tmd", "M", "", [], uses, [], [], classes, endpoints, aliases⟩

/-- A file that takes classes of one name from two others, in the place of one of its own. -/
def taker : ModelFile :=
  file "C" [⟨"A", 2, 8⟩] [holder "W" 4, holder "Y" 5] [answer "E" 6]
    [⟨⟨"A", 7, 15⟩, [⟨"X", 7, 28⟩, ⟨"Y", 7, 31⟩], [⟨"E", 7, 44⟩], some ⟨"alias", 7, 1⟩⟩,
      ⟨⟨"B", 8, 15⟩, [⟨"Z", 8, 28⟩, ⟨"X", 8, 31⟩], [], some ⟨"alias", 8, 1⟩⟩]

def loaded : Model :=
  ⟨#[.fresh 0 (file "A" [] [holder "X" 3, holder "Y" 4] [answer "E" 5] []),
    .fresh 1 (file "B" [] [holder "X" 3, holder "Z" 4] [] []), .fresh 2 taker]⟩

end Overlapping
open Overlapping

theorem resolve_rewrites_entries_overlapping :
    loaded.version? 2 = some (.fresh 2 taker) ∧
      ∃ n, loaded.resolve 2 [0, 1] [] false = .ok ([], n) ∧
        n.classes 2 = [⟨2, 0⟩, ⟨0, 1⟩, ⟨1, 0⟩, ⟨1, 1⟩] ∧ n.ownClasses 2 = [⟨2, 0⟩] ∧
        n.endpoints 2 = [⟨0, 0⟩] ∧
        Rewritten (className? n) (fun file => [1, 0].find? (loaded.fileName · == file)) n.classes 2
          ["W", "Y"] [("A", "X"), ("A", "Y"), ("B", "Z"), ("B", "X")] (n.ownClasses 2) ∧
        Rewritten (endpointName? n) (fun file => [1, 0].find? (loaded.fileName · == file))
          n.endpoints 2 ["E"] [("A", "E")] (n.ownEndpoints 2) := by
  refine ⟨rfl, ?_⟩
  have run : (loaded.resolve 2 [0, 1] [] false).map (fun r =>
      (r.1, r.2.classes 2, r.2.ownClasses 2, r.2.endpoints 2)) =
      .ok ([], [⟨2, 0⟩, ⟨0, 1⟩, ⟨1, 0⟩, ⟨1, 1⟩], [⟨2, 0⟩], [⟨0, 0⟩]) := by
    with_unfolding_all rfl
  cases done : loaded.resolve 2 [0, 1] [] false with
  | error e =>
      rw [done] at run
      cases run
  | ok r =>
      rw [done] at run
      obtain ⟨ds, n⟩ := r
      obtain ⟨rfl, lists⟩ := Prod.mk.inj (Except.ok.inj run)
      obtain ⟨classes, own, endpoints⟩ := by simpa using lists
      obtain ⟨-, ofClasses, ofEndpoints⟩ :=
        resolve_rewrites_entries (f := taker) rfl done clean_nil
      exact ⟨n, rfl, classes, own, endpoints, ofClasses (by decide), ofEndpoints (by decide)⟩

end DataModel.Model
