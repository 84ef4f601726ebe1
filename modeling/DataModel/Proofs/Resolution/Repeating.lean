import DataModel.Proofs.Resolution.Collapsing
import DataModel.Proofs.Resolution.Stages

/-!
Resolving a file once more. Collapsing takes the second run back to where the first one had bound
the file, and from there both do the same. This needs that the first run lost nothing: an own
class or endpoint that a re-export replaced is no longer looked at by the second run, nor is an
alias that was replaced by no copy at all.
-/
namespace DataModel

/-- A diagnostic without the element it is about. -/
def Diagnostic.detached (d : Diagnostic) : Diagnostic := { d with subject := none }

/-- A run after which all own entities are still own ones, and every alias in them is there or has
left a copy. -/
structure Model.Intact (m : Model) (v : VersionId) (n : Model) : Prop where
  ownClasses : n.ownClasses v = m.ownClasses v
  ownEndpoints : n.ownEndpoints v = m.ownEndpoints v
  properties : ∀ k ∈ m.ownClasses v, ∀ c d, m.class? k = some c → n.class? k = some d →
    Traced c.properties d.properties
  params : ∀ k ∈ m.ownEndpoints v, ∀ e d, m.endpoint? k = some e → n.endpoint? k = some d →
    Traced e.params d.params

namespace Resolution
variable {s : Scope} {m n m₂ m₃ : Model} {v : VersionId} {f : ModelFile}

section Notes

/-- Notes that say the same, if perhaps about other elements. -/
structure Notes.Repeats (a a' : Notes) : Prop where
  files : a'.usedFiles = a.usedFiles
  said : a'.diagnostics.map Diagnostic.detached = a.diagnostics.map Diagnostic.detached

theorem Notes.Repeats.zero : Notes.Repeats 0 0 := ⟨rfl, rfl⟩

theorem Notes.Repeats.add {a a' b b' : Notes} (h : a.Repeats a') (next : b.Repeats b') :
    (a + b).Repeats (a' + b') := by
  refine ⟨congrArg₂ (· ++ ·) next.files h.files, ?_⟩
  show (a'.diagnostics ++ b'.diagnostics).map _ = (a.diagnostics ++ b.diagnostics).map _
  rw [List.map_append, List.map_append, h.said, next.said]

theorem Notes.Repeats.sum {ks : List Key} {F G : Key → Notes}
    (each : ∀ k ∈ ks, (F k).Repeats (G k)) : (ks.map F).sum.Repeats (ks.map G).sum := by
  induction ks with
  | nil => exact .zero
  | cons k ks ih =>
      obtain ⟨first, rest⟩ := List.forall_mem_cons.mp each
      rw [List.map_cons, List.map_cons, List.sum_cons, List.sum_cons]
      exact first.add (ih rest)

/-- Two runs that take the same entities in the same order. -/
def repeating : Mirror where
  key := id
  injective := Function.injective_id
  subject _ _ := True
  relinked _ := trivial
  notes := Notes.Repeats
  zero := .zero
  add := .add
  used _ := ⟨rfl, rfl⟩
  files h file := by rw [h.files]
  report _ _ _ _ := ⟨rfl, rfl⟩
  order ks ks' := ks' = ks
  perm h := by rw [h, List.map_id]
  tally h each := by
    rw [h]
    exact .sum each

theorem repeating_scopes (s : Scope) : repeating.Scopes s s :=
  ⟨rfl, rfl, fun _ => Option.map_id'.symm, rfl, rfl⟩

end Notes

section Again

theorem awaits_of_unbound {ps qs : List Property}
    (same : qs.map Property.unbound = ps.map Property.unbound) :
    List.Forall₂ repeating.Awaits ps qs :=
  (forall₂_of_map same).imp fun _ _ here => ⟨here, trivial⟩

theorem awaitsClass_of_unbound {c d : Class} (same : d.unbound = c.unbound) :
    repeating.AwaitsClass c d := by
  refine ⟨?_, awaits_of_unbound (congrArg Class.properties same)⟩
  show d.unbound = c.unbound.relink id
  rw [Class.relink_id, same, id]

theorem awaitsEndpoint_of_unbound {e d : Endpoint} (same : d.unbound = e.unbound) :
    repeating.AwaitsEndpoint e d := by
  refine ⟨same, awaits_of_unbound (congrArg Endpoint.params same), ?_⟩
  have returns : d.returns.map Property.unbound = e.returns.map Property.unbound :=
    congrArg Endpoint.returns same
  cases given : e.returns with
  | none =>
      rw [given] at returns
      rw [Option.map_eq_none_iff.mp returns]
      exact .none
  | some p =>
      rw [given] at returns
      obtain ⟨q, given', here⟩ := Option.map_eq_some_iff.mp returns
      rw [given']
      exact .some ⟨here, trivial⟩

/-- The second run collapses the file to what the first one had bound. -/
theorem collapses_bound {n₁ : Model} (bound : Rebinding v m m₂) (unfolds : Unfolds v m₂ m₃)
    (files : ∀ w, n.file? w = m₃.file? w) (intact : m.Intact v n)
    (collapses : Collapses v n n₁) :
    (∀ k, n₁.class? k = m₂.class? k) ∧ (∀ k, n₁.endpoint? k = m₂.endpoint? k) ∧
      ∀ k, n₁.domain? k = m₂.domain? k := by
  have ownClasses : m₂.ownClasses v = n.ownClasses v :=
    bound.ownClasses.trans intact.ownClasses.symm
  have ownEndpoints : m₂.ownEndpoints v = n.ownEndpoints v :=
    bound.ownEndpoints.trans intact.ownEndpoints.symm
  refine ⟨fun k => ?_, fun k => ?_, fun k => ?_⟩
  · by_cases own : k ∈ n.ownClasses v
    · obtain ⟨c, d, before, after, back⟩ := unfolds.classes k (ownClasses ▸ own)
      have found : n.class? k = some d := (class?_of_files files k).trans after
      obtain ⟨b, begun, unbound⟩ := bound.class_before before
      have traced := intact.properties k (intact.ownClasses ▸ own) b d begun found
      rw [Traced, ← slots_of_unbound (congrArg Class.properties unbound)] at traced
      rw [collapses.classes k own, found, before, Option.map_some, back traced]
    · rw [collapses.otherClasses k own, class?_of_files files,
        unfolds.otherClasses k (ownClasses ▸ own)]
  · by_cases own : k ∈ n.ownEndpoints v
    · obtain ⟨e, d, before, after, back⟩ := unfolds.endpoints k (ownEndpoints ▸ own)
      have found : n.endpoint? k = some d := (endpoint?_of_files files k).trans after
      obtain ⟨b, begun, unbound⟩ := bound.endpoint_before before
      have traced := intact.params k (intact.ownEndpoints ▸ own) b d begun found
      rw [Traced, ← slots_of_unbound (congrArg Endpoint.params unbound)] at traced
      rw [collapses.endpoints k own, found, before, Option.map_some, back traced]
    · rw [collapses.otherEndpoints k own, endpoint?_of_files files,
        unfolds.otherEndpoints k (ownEndpoints ▸ own)]
  · rw [collapses.domains, domain?_of_files files, unfolds.domains]

/-- Where the file is collapsed, it waits to be bound just as when it was loaded. -/
theorem begins_again {n₁ : Model} (fresh : m.version? s.self = some (.fresh s.self f))
    (bound : Rebinding s.self m m₂) (step : Model.Evolves s.self m n₁)
    (ownClasses : n₁.ownClasses s.self = m.ownClasses s.self)
    (ownEndpoints : n₁.ownEndpoints s.self = m.ownEndpoints s.self)
    (classes : ∀ k, n₁.class? k = m₂.class? k) (endpoints : ∀ k, n₁.endpoint? k = m₂.endpoint? k) :
    repeating.Begins s s m n₁ where
  home := Model.homed_of_fresh fresh
  home' := step.homed (Model.homed_of_fresh fresh)
  once := Model.nodup_ownClasses_of_fresh fresh
  order := ownClasses
  onceEndpoints := Model.nodup_ownEndpoints_of_fresh fresh
  sameEndpoints := ownEndpoints
  files := funext step.keepsShape.fileName
  counted k := (congrArg (Option.map _) (classes k)).trans (bound.toRebound.keysCount k)
  classes k hk := by
    obtain ⟨c, begun⟩ := Option.isSome_iff_exists.mp ((listed_of_fresh fresh).there k hk)
    have there := rel_isSome (bound.toRebound.classes k)
    rw [begun] at there
    obtain ⟨d, found⟩ := Option.isSome_iff_exists.mp there
    obtain ⟨b, begun', unbound⟩ := bound.class_before found
    cases begun.symm.trans begun'
    exact ⟨c, d, begun, (classes k).trans found, awaitsClass_of_unbound unbound⟩
  otherClasses k hk := by
    show n₁.class? k = (m.class? k).map (Class.relink id)
    rw [classes, bound.otherClass fresh hk, Class.relink_id, Option.map_id]
    rfl
  endpoints k hk := by
    obtain ⟨e, begun⟩ := Option.isSome_iff_exists.mp ((listed_of_fresh fresh).thereEndpoints k hk)
    have there := rel_isSome (bound.toRebound.endpoints k)
    rw [begun] at there
    obtain ⟨d, found⟩ := Option.isSome_iff_exists.mp there
    obtain ⟨b, begun', unbound⟩ := bound.endpoint_before found
    cases begun.symm.trans begun'
    exact ⟨e, d, begun, (endpoints k).trans found, awaitsEndpoint_of_unbound unbound⟩
  otherEndpoints k hk := by
    show n₁.endpoint? k = (m.endpoint? k).map (Endpoint.relink id)
    rw [endpoints, bound.otherEndpoint fresh hk, Endpoint.relink_id, Option.map_id]
    rfl
  domains := by
    refine ⟨?_, fun k other => Model.domain?_congr (step.others other)⟩
    refine step.keepsShape.reading (fun g => ?_) s.self
    simp [ModelFile.bare, Domain.bare, Converter.bare]

theorem sameSide_refl {ks : List Key} (once : ks.Nodup) (l k : Key) : SameSide id ks ks l k := by
  intro before after before' after' split split'
  have early := notMem_before once split
  have late := notMem_after once split
  obtain ⟨rfl, -, -⟩ := (List.append_cons_inj_of_notMem early late).mp (split.symm.trans split')
  rfl

/-- Linking a file once more changes nothing. -/
theorem linking_again (fresh : m.version? s.self = some (.fresh s.self f)) (declared : f.Declared)
    {first first' last : Notes} (compare : first.Repeats first')
    (done : (linking s m).run first = .ok (m₃, last)) (step : Model.Evolves s.self m₃ n)
    (files : ∀ w, n.file? w = m₃.file? w) (intact : m.Intact s.self n) :
    ∃ last', (linking s n).run first' = .ok (n, last') ∧ last.Repeats last' := by
  have undone := undone_of_declared fresh declared
  have listed := listed_of_fresh fresh
  have scopes := repeating_scopes s
  unfold linking at done ⊢
  rw [collapseAll_undone undone, pure_bind] at done
  obtain ⟨_, last₁, run₁, done⟩ := run_bind done
  obtain ⟨m₂, last₂, run₂, run₃⟩ := run_bind done
  -- what the first run did
  obtain ⟨_, -, bound⟩ := bind_rebinding listed.toHomed _ _ _ run₂
  have listed₂ := listed.shape bound.evolves.keepsShape bound.ownClasses bound.ownEndpoints
  have once₂ := nodup_slots_bound fresh declared bound
  have onceParams₂ := nodup_params_bound fresh declared bound
  obtain ⟨_, -, unfolds⟩ :=
    expandAll_unfolds listed₂ (undone.rebinding bound) once₂ onceParams₂ _ _ _ run₃
  -- where the second run begins
  have toThird := bound.toRebinds.trans unfolds.toRebinds
  have toN : Model.Evolves s.self m n := toThird.evolves.trans step
  have listed' := listed.shape toN.keepsShape intact.ownClasses intact.ownEndpoints
  obtain ⟨n₁, collapsed, collapses⟩ := collapseAll_collapses listed'
  obtain ⟨classes, endpoints, domains⟩ := collapses_bound bound unfolds files intact collapses
  have begins := begins_again fresh bound (toN.trans collapses.evolves)
    (collapses.ownClasses.trans intact.ownClasses)
    (collapses.ownEndpoints.trans intact.ownEndpoints) classes endpoints
  -- how it goes on
  obtain ⟨_, last₁', run₁', -, compare₁⟩ :=
    (checkUses_reflects scopes (toN.keepsShape.uses s.self)).run compare run₁
  obtain ⟨n₂, last₂', run₂', ⟨models, -, rebinding⟩, compare₂⟩ :=
    (bind_reflects scopes begins).run compare₁ run₂
  have alike := begins.toAlike.rebinds bound.toRebinds rebinding.toRebinds
  obtain ⟨n₃, last₃', run₃', ⟨models', -, rebinds⟩, compare₃⟩ :=
    (expandAll_reflects scopes alike models listed₂.there listed₂.thereEndpoints once₂
      fun l k _ => alike.order ▸ sameSide_refl listed₂.once l k).run compare₂ run₃
  have back : n₃ = n := by
    refine ((collapses.toRebinds.trans rebinding.toRebinds).trans rebinds).eq (fun k => ?_)
      (fun k => ?_) fun k => ?_
    · have same : n₃.class? k = (m₃.class? k).map (Class.relink id) := models'.classes k
      rw [same, Class.relink_id, Option.map_id, class?_of_files files, id]
    · have same : n₃.endpoint? k = (m₃.endpoint? k).map (Endpoint.relink id) := models'.endpoints k
      rw [same, Endpoint.relink_id, Option.map_id, endpoint?_of_files files, id]
    · rw [models'.domains, domain?_of_files files]
  subst back
  refine ⟨last₃', ?_, compare₃⟩
  rw [collapsed, run_then run₁', pure_bind, run_then run₂', run₃']

/-- The file takes once more what it has taken. -/
theorem shareAliases_again (apart : ∀ {name d}, s.dependencies.get? name = some d → d ≠ s.self)
    {first first' last : Notes} (compare : first.Repeats first')
    (done : (shareAliases s m₃).run first = .ok (n, last)) (step : Model.Evolves s.self m₃ n)
    (files : ∀ w, n.file? w = m₃.file? w) :
    ∃ last', (shareAliases s n).run first' = .ok (n, last') ∧ last.Repeats last' := by
  have offers : SameOffers s m₃ n := by
    refine ⟨apart, fun source => ⟨?_, fun k _ => ?_⟩, fun source => ⟨?_, fun k _ => ?_⟩, ?_, ?_⟩
    · rw [Model.classes, Model.classes, step.others (apart source)]
    · rw [className?, className?, class?_of_files files]
    · rw [Model.endpoints, Model.endpoints, step.others (apart source)]
    · rw [endpointName?, endpointName?, endpoint?_of_files files]
    · exact funext step.keepsShape.fileName
    · rw [files]
  obtain ⟨n', last', run', ⟨ks, es, -, took, took'⟩, compare'⟩ :=
    (shareAliases_reflects (repeating_scopes s) offers).run compare done
  have same : n' = n := by rw [took', took, shared_again]
  exact ⟨last', same ▸ run', compare'⟩

/-- All steps once more change nothing, and note the same. -/
theorem steps_again (apart : ∀ {name d}, s.dependencies.get? name = some d → d ≠ s.self)
    (fresh : m.version? s.self = some (.fresh s.self f)) (declared : f.Declared)
    {allowCompositeKeys : Bool} {last : Notes}
    (done : (steps s allowCompositeKeys m).run 0 = .ok (n, last))
    (intact : m.Intact s.self n) :
    ∃ last', (steps s allowCompositeKeys n).run 0 = .ok (n, last') ∧ last.Repeats last' := by
  rw [steps_eq] at done ⊢
  obtain ⟨m₃, last₁, run₁, done⟩ := run_bind done
  obtain ⟨m₄, last₂, run₂, done⟩ := run_bind done
  obtain ⟨_, last₃, run₃, done⟩ := run_bind done
  cases done
  obtain ⟨_, -, rebinds⟩ := linking_rebinds (Model.homed_of_fresh fresh) _ _ _ run₁
  have has := rebinds.evolves.keepsShape.has.mpr (Model.has_of_version? fresh)
  obtain ⟨_, -, shares, -⟩ := shareAliases_gives (P := fun _ => True) has (fun _ _ _ _ => trivial)
    _ _ _ run₂
  obtain ⟨last₁', run₁', compare₁⟩ :=
    linking_again fresh declared .zero run₁ shares.toEvolves shares.files intact
  obtain ⟨last₂', run₂', compare₂⟩ :=
    shareAliases_again apart compare₁ run₂ shares.toEvolves shares.files
  have same : ∀ k, n.class? (repeating.key k) = (n.class? k).map (Class.relink repeating.key) := by
    intro k
    show n.class? k = (n.class? k).map (Class.relink id)
    rw [Class.relink_id, Option.map_id]
    rfl
  obtain ⟨last', run₃', compare₃⟩ := checking_run (repeating_scopes s) same
    (intact.ownClasses ▸ Model.nodup_ownClasses_of_fresh fresh) rfl rfl compare₂ run₃
  have uses := (rebinds.evolves.trans shares.toEvolves).keepsShape.uses s.self
  refine ⟨last', ?_, compare₃⟩
  rw [run_then run₁', run_then run₂', missingUses_congr uses, run_then run₃']
  rfl

/-- What names mean does not depend on what a first run bound. -/
theorem scope_again {dependencies : List VersionId} {domains : Table Key}
    (step : Model.Evolves v m n) (apart : v ∉ dependencies)
    (own : n.ownClasses v = m.ownClasses v) :
    Scope.of n v dependencies domains = Scope.of m v dependencies domains := by
  have files : n.fileName = m.fileName := funext step.keepsShape.fileName
  have offers : ∀ keys file, offeredClasses n keys file = offeredClasses m keys file := by
    intro keys file
    have read : ∀ m : Model, offeredClasses m keys file = keys.filterMap fun k =>
        ((m.class? k).map (·.name)).map fun name => (name, ⟨k, file⟩) := by
      intro m
      simp only [offeredClasses, Option.map_map]
      rfl
    rw [read, read]
    simp only [step.keepsShape.className]
  have decorators : offeredDecorators n = offeredDecorators m := by
    funext w
    rw [offeredDecorators, offeredDecorators, files, step.keepsShape.reading (fun _ => rfl)]
  have classes : dependencies.flatMap (fun d => offeredClasses n (n.classes d) (n.fileName d)) =
      dependencies.flatMap fun d => offeredClasses m (m.classes d) (m.fileName d) := by
    refine List.flatMap_congr fun d hd => ?_
    have other : d ≠ v := fun same => apart (same ▸ hd)
    rw [offers, files, Model.classes, Model.classes, step.others other]
  rw [Scope.of, Scope.of, classes, own, offers, files, decorators]

end Again
end Resolution

namespace Model
open Resolution
variable {m n : Model} {v : VersionId} {f : ModelFile} {dependencies : List VersionId}
  {domains : Table Key} {allowCompositeKeys : Bool} {ds : List Diagnostic}

/-- Where the first run left all own entities and all aliases intact, resolving the file once more
changes nothing and says the same. -/
theorem resolve_again (declared : f.Declared) (fresh : m.version? v = some (.fresh v f))
    (apart : v ∉ dependencies)
    (done : m.resolve v dependencies domains allowCompositeKeys = .ok (ds, n))
    (intact : m.Intact v n) :
    ∃ ds', n.resolve v dependencies domains allowCompositeKeys = .ok (ds', n) ∧
      ds'.map Diagnostic.detached = ds.map Diagnostic.detached := by
  obtain ⟨n', notes, run, same⟩ := resolve_run done
  cases same
  have step := resolve_evolves fresh done
  have sources : ∀ {name d}, (Scope.of m v dependencies domains).dependencies.get? name = some d →
      d ≠ v := fun found same => apart (same ▸ source_of found)
  obtain ⟨notes', run', repeats⟩ :=
    steps_again (s := .of m v dependencies domains) sources fresh declared run intact
  refine ⟨notes'.diagnostics, ?_, repeats.said⟩
  unfold resolve
  dsimp only
  rw [scope_again step apart intact.ownClasses]
  exact congrArg (fun r => r >>= fun p => .ok (p.2.diagnostics, p.1)) run'

namespace Copying

/-- A file with a domain and a class. -/
def origin (properties : List Property) : ModelFile where
  name := "A"
  path := "/model/A.tmd"
  module := "M"
  source := ""
  tags := []
  uses := []
  domains := [⟨"D", some "l", none, none, none, [], [], some ⟨"domain", 3, 1⟩⟩]
  decorators := []
  classes :=
    [⟨"B", "c", none, none, none, .none, false, none, none, none, none, [], [], properties,
      some ⟨"App", "M"⟩, some ⟨"class", 5, 1⟩⟩]
  endpoints := []
  aliases := []

def field : Property :=
  .regular
    ⟨"n", none, "c", ⟨"name", 5, 44⟩, false, ⟨"D", 5, 61⟩, some ⟨0, 0⟩, false, false, none, none⟩

def placeholder : Placeholder where
  label := none
  comment := none
  location := ⟨"alias", 4, 44⟩
  slot := 0
  reference := ⟨"B", 4, 59⟩
  included := []
  excluded := []
  leading := ""
  trailing := ""
  required := none
  listDomainReference := none
  listDomain := none

def copy : Property :=
  .regular
    ⟨"n", none, "c", ⟨"alias", 4, 44⟩, false, ⟨"D", 5, 61⟩, some ⟨0, 0⟩, false, false, none,
      some placeholder⟩

/-- A file that uses the other one, with a class that copies from that one's class. -/
def copier (properties : List Property) : ModelFile where
  name := "C"
  path := "/model/C.tmd"
  module := "M"
  source := ""
  tags := []
  uses := [⟨"A", 2, 8⟩]
  domains := []
  decorators := []
  classes :=
    [⟨"X", "c", none, none, none, .none, false, none, none, none, none, [], [], properties,
      some ⟨"App", "M"⟩, some ⟨"class", 4, 1⟩⟩]
  endpoints := []
  aliases := []

def loaded (copied copying : List Property) : Model :=
  ⟨#[.fresh 0 (origin copied), .fresh 1 (copier copying)]⟩

def known : Table Key := [("D", ⟨0, 0⟩)]

def unused : Diagnostic := Finding.unusedUse.diagnostic 1 (.file 1) (some ⟨"A", 2, 8⟩)

theorem declared_copying {ps : List Property} (declares : Declares ps) :
    (copier ps).Declared := by
  refine ⟨⟨fun d hd => absurd hd List.not_mem_nil, fun c hc => ?_,
    fun e he => absurd he List.not_mem_nil⟩, fun c hc => ?_, fun e he => absurd he List.not_mem_nil⟩
  · cases List.mem_singleton.mp hc
    exact ⟨.none, .nil, fun p hp => (declares.forall p hp).1⟩
  · cases List.mem_singleton.mp hc
    exact declares

theorem declared_copier : (copier [.alias placeholder]).Declared := by
  refine declared_copying (Declares.nil.snoc ⟨?_, rfl, fun a isAlias => ?_⟩)
  · exact (.none : placeholder.Linked .none)
  · cases isAlias
    rfl

theorem resolve_field : (loaded [field] [.alias placeholder]).resolve 1 [0] known false =
    .ok ([], loaded [field] [copy]) := by
  with_unfolding_all rfl

theorem resolve_nothing : (loaded [] [.alias placeholder]).resolve 1 [0] known false =
    .ok ([], loaded [] []) := by
  with_unfolding_all rfl

theorem resolve_nothing_again : (loaded [] []).resolve 1 [0] known false =
    .ok ([unused], loaded [] []) := by
  with_unfolding_all rfl

theorem intact_field :
    (loaded [field] [.alias placeholder]).Intact 1 (loaded [field] [copy]) := by
  refine ⟨rfl, rfl, fun k hk c d before after => ?_, fun k hk => absurd hk List.not_mem_nil⟩
  cases List.mem_singleton.mp hk
  cases before
  cases after
  intro slot member
  cases List.mem_singleton.mp member
  exact ⟨copy, List.mem_singleton_self copy, rfl⟩

end Copying
open Copying

theorem resolve_again_field :
    (copier [.alias placeholder]).Declared ∧
      (loaded [field] [.alias placeholder]).resolve 1 [0] known false =
        .ok ([], loaded [field] [copy]) ∧
      (loaded [field] [.alias placeholder]).Intact 1 (loaded [field] [copy]) ∧
      ∃ ds, (loaded [field] [copy]).resolve 1 [0] known false = .ok (ds, loaded [field] [copy]) ∧
        ds.map Diagnostic.detached = [] :=
  ⟨declared_copier, resolve_field, intact_field,
    resolve_again declared_copier rfl (by decide) resolve_field intact_field⟩

/-- An alias of a class without properties is gone after the first run, so that the second run finds
nothing in the used file and says so. -/
theorem resolve_again_of_nothing :
    (copier [.alias placeholder]).Declared ∧
      (loaded [] [.alias placeholder]).resolve 1 [0] known false = .ok ([], loaded [] []) ∧
      ¬ ∃ ds, (loaded [] []).resolve 1 [0] known false = .ok (ds, loaded [] []) ∧
        ds.map Diagnostic.detached = [].map Diagnostic.detached := by
  refine ⟨declared_copier, resolve_nothing, ?_⟩
  rintro ⟨ds, done, same⟩
  cases resolve_nothing_again.symm.trans done
  cases same

end Model
end DataModel
