import DataModel.Proofs.Resolution.Knowing
import DataModel.Proofs.Store.Arrival
import DataModel.Proofs.Store.Links
import DataModel.Proofs.Store.Rebuild

/-!
What a store is told by. After a steady history the committed model depends on nothing but the
texts of the committed files and, where several of them declare a domain of one name, on which of
them comes last in the registry. The order of the registry is that of the history, so two
histories that end with the same texts may bind a reference to the domains of different files.
-/
namespace DataModel
namespace Store
variable {s s' : Store}

instance (s : Store) (v : VersionId) : Decidable (s.IsCurrent v) :=
  inferInstanceAs (Decidable (s.file? (s.model.fileName v) = some v))

/-- The version that is committed in another store under the name of the file; what is not
committed stands behind all. -/
def counterpart (s s' : Store) (v : VersionId) : VersionId :=
  if s.IsCurrent v then (s'.file? (s.model.fileName v)).getD s'.model.versions.size
  else s'.model.versions.size + v

/-- The last file of the registry that declares a domain of a name. -/
def lastDeclarer? (s : Store) (domain : String) : Option String :=
  (s.committed.reverse.find? fun (_, v) => (s.model.domainsOf v).any (·.1 == domain)).map (·.1)

/-- A committed file declares a domain of a name. -/
def Declares (s : Store) (domain name : String) : Prop :=
  ∃ v, s.file? name = some v ∧ (s.model.domainsOf v).any (·.1 == domain)

/-- Several committed files declare a domain of a name. -/
def Disputed (s : Store) (domain : String) : Prop :=
  ∃ name name', name ≠ name' ∧ s.Declares domain name ∧ s.Declares domain name'

section Making
variable {v : VersionId} {f : ModelFile} {m n : Model} {ds : List Diagnostic}

theorem Made.reading {α : Type} {read : ModelFile → α} (made : s.Made v f m n ds)
    (fromBare : ∀ f, read f = read f.bare) : (s.model.file? v).map read = some (read f) :=
  Model.reading_of_bare (o := some f) fromBare made.bare

theorem Made.fileName (made : s.Made v f m n ds) : s.model.fileName v = f.name := by
  have name : (s.model.file? v).map (·.name) = some f.name := made.reading fun _ => rfl
  rw [Model.fileName, name, Option.getD_some]

theorem Made.sourceOf? (made : s.Made v f m n ds) : s.sourceOf? v = some f.source :=
  made.reading fun _ => rfl

end Making

section Domains

/-- The domain of a name among those that a version declares. -/
def declared? (s : Store) (v : VersionId) (domain : String) : Option Key :=
  (Table.ofList (s.model.domainsOf v)).get? domain

theorem isSome_declared? (s : Store) (v : VersionId) (domain : String) :
    (s.declared? v domain).isSome = (s.model.domainsOf v).any (·.1 == domain) := by
  rw [Bool.eq_iff_iff, List.any_eq_true]
  refine Table.has_iff.trans (Table.mem_keys_ofList.trans ?_)
  simp

/-- The known domain of a name is that of the last file that declares one. -/
theorem get?_domains (once : s.committed.keys.Nodup) (domain : String) :
    s.domains.get? domain = (s.lastDeclarer? domain).bind fun name =>
      (s.file? name).bind fun v => s.declared? v domain := by
  let declares : String × VersionId → Bool := fun p => (s.declared? p.2 domain).isSome
  have last : ∀ files : Table VersionId, (s.model.domainTable files.values).get? domain =
      (files.reverse.find? declares).bind fun p => s.declared? p.2 domain := by
    intro files
    induction files using List.reverseRecOn with
    | nil => rfl
    | append_singleton rest p ih =>
        have table : s.model.domainTable (Table.values (rest ++ [p])) = .ofList
            ((Table.values rest).flatMap s.model.domainsOf ++ s.model.domainsOf p.2) := by
          simp [Model.domainTable, Table.values]
        rw [Model.domainTable] at ih
        rw [table, Table.get?_ofList_append, ih, ← declared?, List.reverse_concat, List.find?_cons]
        cases found : s.declared? p.2 domain with
        | none => simp [declares, found]
        | some k => simp [declares, found]
  have same : declares = fun (_, v) => (s.model.domainsOf v).any (·.1 == domain) :=
    funext fun p => s.isSome_declared? p.2 domain
  rw [domains, last, lastDeclarer?, same]
  cases found : s.committed.reverse.find? fun (_, v) =>
      (s.model.domainsOf v).any (·.1 == domain) with
  | none => rfl
  | some p =>
      have member := List.mem_reverse.mp (List.mem_of_find?_eq_some found)
      have known : s.file? p.1 = some p.2 := Table.get?_of_mem once member
      simp [known]

theorem declares_of_last (once : s.committed.keys.Nodup) {domain name : String}
    (last : s.lastDeclarer? domain = some name) : s.Declares domain name := by
  obtain ⟨p, found, rfl⟩ := Option.map_eq_some_iff.mp last
  have member := List.mem_reverse.mp (List.mem_of_find?_eq_some found)
  have declares := List.find?_some found
  exact ⟨p.2, Table.get?_of_mem once member, declares⟩

theorem exists_last_of_declares {domain name : String} (h : s.Declares domain name) :
    ∃ name', s.lastDeclarer? domain = some name' := by
  obtain ⟨v, known, declares⟩ := h
  have found : (s.committed.reverse.find? fun (_, v) =>
      (s.model.domainsOf v).any (·.1 == domain)).isSome :=
    List.find?_isSome.mpr ⟨(name, v), List.mem_reverse.mpr (Table.mem_of_get? known), declares⟩
  obtain ⟨p, found⟩ := Option.isSome_iff_exists.mp found
  exact ⟨p.1, by rw [lastDeclarer?, found, Option.map_some]⟩

end Domains

/-- Settled stores of the same settings that hold the same texts. -/
structure SameTexts (s s' : Store) : Prop where
  settled : s.Settled
  settled' : s'.Settled
  sound : s.Sound
  sound' : s'.Sound
  settings : s'.settings = s.settings
  source : ∀ name, s'.source? name = s.source? name

namespace SameTexts

theorem symm (same : s.SameTexts s') : s'.SameTexts s where
  settled := same.settled'
  settled' := same.settled
  sound := same.sound'
  sound' := same.sound
  settings := same.settings.symm
  source name := (same.source name).symm

variable (same : s.SameTexts s')
include same

section Files

theorem exists_file {name : String} {v : VersionId} (known : s.file? name = some v) :
    ∃ v', s'.file? name = some v' := by
  obtain ⟨ver, found⟩ := Model.has_iff.mp (same.sound.committed known).1
  have there := same.source name
  cases known' : s'.file? name with
  | none => simp [source?, known, known', sourceOf?, Model.file?, found] at there
  | some v' => exact ⟨v', rfl⟩

theorem file?_of_known {name : String} {v : VersionId} (known : s.file? name = some v) :
    s'.file? name = some (s.counterpart s' v) := by
  obtain ⟨v', known'⟩ := same.exists_file known
  rw [counterpart, if_pos (same.settled.isCurrent known), same.settled.named known, known',
    Option.getD_some]

theorem fileName_counterpart {name : String} {v : VersionId} (known : s.file? name = some v) :
    s'.model.fileName (s.counterpart s' v) = s.model.fileName v := by
  rw [same.settled.named known, same.settled'.named (same.file?_of_known known)]

/-- The counterpart of a file was made from the same text. -/
theorem made {name : String} {v : VersionId} (known : s.file? name = some v) :
    ∃ f m n ds m' n' ds' path, s.Made v f m n ds ∧
      s'.Made (s.counterpart s' v) (f.movedTo path) m' n' ds' := by
  obtain ⟨f, m, n, ds, made⟩ := same.settled.made known
  have known' := same.file?_of_known known
  obtain ⟨f', m', n', ds', made'⟩ := same.settled'.made known'
  have names := same.fileName_counterpart known
  rw [made.fileName, made'.fileName] at names
  have sources := same.source name
  rw [source?, source?, known, known', Option.bind_some, Option.bind_some, made.sourceOf?,
    made'.sourceOf?, Option.some.injEq] at sources
  have moved : (f.movedTo f'.path).IsLoaded s'.settings.app :=
    same.settings ▸ Grammar.loadText_movedTo made.loaded f'.path
  refine ⟨f, m, n, ds, m', n', ds', f'.path, made, ?_⟩
  rw [moved.unique made'.loaded names.symm rfl sources.symm]
  exact made'

/-- Whatever neither binding nor the place of a file can change reads the same. -/
theorem reading {α : Type} {read : ModelFile → α} (fromBare : ∀ f, read f = read f.bare)
    (still : ∀ f path, read (f.movedTo path) = read f) {name : String} {v : VersionId}
    (known : s.file? name = some v) :
    (s'.model.file? (s.counterpart s' v)).map read = (s.model.file? v).map read := by
  obtain ⟨f, m, n, ds, m', n', ds', path, made, made'⟩ := same.made known
  rw [made.reading fromBare, made'.reading fromBare, still]

/-- The files of one store are the counterparts of those of the other. -/
theorem file?_counterpart (name : String) :
    s'.file? name = (s.file? name).map (s.counterpart s') := by
  cases known : s.file? name with
  | some v => exact same.file?_of_known known
  | none =>
      cases known' : s'.file? name with
      | none => rfl
      | some v' =>
          obtain ⟨v, found⟩ := same.symm.exists_file known'
          rw [known] at found
          cases found

theorem counterpart_injective : (s.counterpart s').Injective := by
  have low : ∀ {v}, s.IsCurrent v → s.counterpart s' v < s'.model.versions.size := fun current =>
    (same.sound'.committed (same.file?_of_known current)).1
  have high : ∀ {v}, ¬ s.IsCurrent v → s.counterpart s' v = s'.model.versions.size + v :=
    fun other => if_neg other
  intro v w both
  by_cases hv : s.IsCurrent v
  · by_cases hw : s.IsCurrent w
    · have name := same.fileName_counterpart hv
      rw [both, same.fileName_counterpart hw] at name
      rw [IsCurrent, ← name, hw] at hv
      exact (Option.some.inj hv).symm
    · have below := low hv
      rw [both, high hw] at below
      exact absurd below (Nat.not_lt.mpr (Nat.le_add_right _ _))
  · by_cases hw : s.IsCurrent w
    · have below := low hw
      rw [← both, high hv] at below
      exact absurd below (Nat.not_lt.mpr (Nat.le_add_right _ _))
    · rw [high hv, high hw] at both
      exact Nat.add_left_cancel both

theorem dependencies_counterpart {name : String} {v : VersionId} (known : s.file? name = some v) :
    s'.dependencies (s.counterpart s' v) = (s.dependencies v).map (s.counterpart s') := by
  have uses : s'.model.uses (s.counterpart s' v) = s.model.uses v := by
    rw [Model.uses, same.reading (fun _ => rfl) (fun _ _ => rfl) known, Model.uses]
  rw [dependencies, uses, dependencies, List.map_filterMap]
  exact List.filterMap_congr fun use _ => same.file?_counterpart use.name

theorem below_counterpart {name : String} {v w : VersionId} (known : s.file? name = some v)
    (below : s.Below v w) : s'.Below (s.counterpart s' v) (s.counterpart s' w) := by
  induction below with
  | refl => exact .refl
  | tail path step ih =>
      obtain ⟨name', known'⟩ := committed_of_below path known
      refine ih.tail ?_
      rw [same.dependencies_counterpart known']
      exact List.mem_map_of_mem step

theorem declared?_counterpart {name : String} {v : VersionId} (known : s.file? name = some v)
    (domain : String) : s'.declared? (s.counterpart s' v) domain =
      (s.declared? v domain).map (Key.rename (s.counterpart s')) := by
  have declared : s'.model.domainsOf (s.counterpart s' v) =
      (s.model.domainsOf v).map fun p => (p.1, p.2.rename (s.counterpart s')) := by
    rw [Model.domainsOf_eq, Model.domainsOf_eq,
      same.reading Model.domainNames_bare (fun _ _ => rfl) known, List.map_map]
    rfl
  rw [declared?, declared, Table.ofList_mapValues, Table.get?_mapValues, declared?]

theorem declares_iff {domain name : String} : s'.Declares domain name ↔ s.Declares domain name := by
  rw [Declares, same.file?_counterpart]
  constructor
  · rintro ⟨v', known', declares⟩
    obtain ⟨v, known, rfl⟩ := Option.map_eq_some_iff.mp known'
    rw [← isSome_declared?, same.declared?_counterpart known, Option.isSome_map,
      isSome_declared?] at declares
    exact ⟨v, known, declares⟩
  · rintro ⟨v, known, declares⟩
    refine ⟨_, by rw [known, Option.map_some], ?_⟩
    rwa [← isSome_declared?, same.declared?_counterpart known, Option.isSome_map,
      isSome_declared?]

/-- Where one file at most declares a domain of a name, it is the last one in both stores. -/
theorem last_of_disputed {domain : String}
    (last : s.Disputed domain → s'.lastDeclarer? domain = s.lastDeclarer? domain) :
    s'.lastDeclarer? domain = s.lastDeclarer? domain := by
  by_cases disputed : s.Disputed domain
  · exact last disputed
  cases here : s.lastDeclarer? domain with
  | none =>
      cases there : s'.lastDeclarer? domain with
      | none => rfl
      | some name =>
          have declares := same.declares_iff.mp (declares_of_last same.sound'.committedOnce there)
          obtain ⟨name', here'⟩ := exists_last_of_declares declares
          cases here.symm.trans here'
  | some name =>
      have declares := declares_of_last same.sound.committedOnce here
      obtain ⟨name', there⟩ := exists_last_of_declares (same.declares_iff.mpr declares)
      have declares' := same.declares_iff.mp (declares_of_last same.sound'.committedOnce there)
      rw [there]
      by_contra other
      exact disputed ⟨name', name, mt (congrArg some) other, declares', declares⟩

section Alike
variable (last : ∀ domain, s'.lastDeclarer? domain = s.lastDeclarer? domain)
include last

/-- A name means the same domain in both stores. -/
theorem domains_counterpart (domain : String) : s'.domains.get? domain =
    (s.domains.get? domain).map (Key.rename (s.counterpart s')) := by
  rw [get?_domains same.sound'.committedOnce, get?_domains same.sound.committedOnce, last]
  cases s.lastDeclarer? domain with
  | none => rfl
  | some name =>
      rw [Option.bind_some, Option.bind_some, same.file?_counterpart name]
      cases known : s.file? name with
      | none => rfl
      | some v => exact same.declared?_counterpart known domain

section Turns
variable {name : String} {v : VersionId} (known : s.file? name = some v) {f : ModelFile}
  {path : String} {m m' n n' : Model} {ds ds' : List Diagnostic} (made : s.Made v f m n ds)
  (made' : s'.Made (s.counterpart s' v) (f.movedTo path) m' n' ds')
  (before : ∀ {w}, s.Below v w → w ≠ v → ∃ path, s'.model.version? (s.counterpart s' w) =
    (s.model.version? w).map fun ver => (ver.rename (s.counterpart s')).movedTo path)
include known made made' before

/-- If all below a file is like its counterpart, then so are the models in which the file and its
counterpart were made. -/
theorem like_made : Model.Like (s.counterpart s') (s.reach v) m m' := by
  have inj := same.counterpart_injective
  have self := made.like fun {w ver} below _ there => by
    obtain ⟨name', known'⟩ := committed_of_below below known
    exact same.settled.linked known' there
  refine ⟨fun {w} below => ?_, self.linked, fun {domain k} found => ?_⟩
  · by_cases here : w = v
    · subst here
      refine ⟨path, ?_⟩
      rw [made.fresh, made'.fresh, Option.map_some, Version.fresh_rename _ made.loaded.unlinked]
      rfl
    · have below' := same.below_counterpart known below
      rw [← made.below below here, ← made'.below below' (inj.ne here)]
      exact before below here
  · obtain ⟨name', known'⟩ := domains_file same.sound.committedOnce found
    have found' : s'.domains.get? domain = some (k.rename (s.counterpart s')) := by
      rw [same.domains_counterpart last, found]
      rfl
    rw [← made.domains found, ← same.fileName_counterpart known']
    exact (made'.domains found').symm

theorem resolved_alike : ∃ path, s'.model.version? (s.counterpart s' v) =
    (s.model.version? v).map fun ver => (ver.rename (s.counterpart s')).movedTo path := by
  have like := same.like_made last known made made' before
  have domains : ∀ domain, s'.domains.get? domain =
      (Table.mapValues (Key.rename (s.counterpart s')) s.domains).get? domain := by
    intro domain
    rw [same.domains_counterpart last, Table.get?_mapValues]
  have resolved := made'.done
  rw [same.dependencies_counterpart known, Model.resolve_knowing domains,
    same.settings] at resolved
  rcases Model.resolve_like (same.counterpart_injective) like made.covers
    s.settings.allowCompositeKeys with ⟨ds₁, n₁, n₁', done, done', like'⟩ | ⟨e, failed, -⟩
  · rw [made.done] at done
    cases done
    rw [resolved] at done'
    cases done'
    rw [made.result, made'.result]
    exact like'.same .refl
  · rw [made.done] at failed
    cases failed

end Turns

/-- The counterpart of a version is the version, up to identity and the place where it was found. -/
theorem counterpart_same {name : String} {v : VersionId} (known : s.file? name = some v) :
    ∃ path, s'.model.version? (s.counterpart s' v) =
      (s.model.version? v).map fun ver => (ver.rename (s.counterpart s')).movedTo path := by
  obtain ⟨rank, falls⟩ := same.settled.falls
  suffices all : ∀ i v name, rank v < i → s.file? name = some v →
      ∃ path, s'.model.version? (s.counterpart s' v) =
        (s.model.version? v).map fun ver => (ver.rename (s.counterpart s')).movedTo path from
    all (rank v + 1) v name (Nat.lt_succ_self _) known
  intro i
  induction i with
  | zero => exact fun _ _ low => absurd low (Nat.not_lt_zero _)
  | succ i ih =>
      intro v name low known
      obtain ⟨f, m, n, ds, m', n', ds', path, made, made'⟩ := same.made known
      refine same.resolved_alike last known made made' fun {w} below other => ?_
      obtain ⟨d, dependency, rest⟩ := (below_cases below).resolve_left other
      obtain ⟨name', known'⟩ := committed_of_below below known
      have less := rank_strictly_below falls known dependency rest
      exact ih w name' (by omega) known'

/-- The two models look alike from every file. -/
theorem like {name : String} {v : VersionId} (known : s.file? name = some v) :
    Model.Like (s.counterpart s') (s.reach v) s.model s'.model where
  same below := by
    obtain ⟨name', known'⟩ := committed_of_below below known
    exact same.counterpart_same last known'
  linked below found := by
    obtain ⟨name', known'⟩ := committed_of_below below known
    exact (same.settled.linked known' found).mono (reach_within below)
  domains found := by
    obtain ⟨name', known'⟩ := domains_file same.sound.committedOnce found
    exact same.fileName_counterpart known'

end Alike
end Files
end SameTexts
end Store

/-- Two steady histories of the same settings that end with the same texts, and with the same last
file to declare each domain that several files declare, end with the same model: their registries
hold each other's counterparts, names mean the same domains, and each version is its counterpart up
to identity and the place where it was found, with the same names of its properties. -/
theorem committed_by_texts (settings : Settings) (history history' : List Moment)
    (steady : Steady settings history) (steady' : Steady settings history')
    (sources : ∀ name, (Store.after settings history').source? name =
      (Store.after settings history).source? name)
    (last : ∀ domain, (Store.after settings history).Disputed domain →
      (Store.after settings history').lastDeclarer? domain =
        (Store.after settings history).lastDeclarer? domain) :
    let s := Store.after settings history
    let s' := Store.after settings history'
    let ρ := s.counterpart s'
    ρ.Injective ∧ (∀ name, s'.file? name = (s.file? name).map ρ) ∧
      (∀ name, s'.domains.get? name = (s.domains.get? name).map (Key.rename ρ)) ∧
      ∀ name v, s.file? name = some v →
        s'.model.fileName (ρ v) = s.model.fileName v ∧
        (∃ path, s'.model.version? (ρ v) =
          (s.model.version? v).map fun ver => (ver.rename ρ).movedTo path) ∧
        ∀ p ∈ s.model.properties v,
          s'.model.propertyName? (p.rename ρ) = s.model.propertyName? p := by
  obtain ⟨sound, told⟩ := Store.after_sound settings history
  obtain ⟨sound', told'⟩ := Store.after_sound settings history'
  have h := steady.settled
  have h' := steady'.settled
  have same : (Store.after settings history).SameTexts (Store.after settings history') :=
    ⟨h, h', sound, sound', told'.trans told.symm, sources⟩
  have last := fun domain => same.last_of_disputed (last domain)
  dsimp only
  generalize Store.after settings history = s at h same last
  generalize Store.after settings history' = s' at same last
  refine ⟨same.counterpart_injective, same.file?_counterpart, same.domains_counterpart last,
    fun name v known => ?_⟩
  refine ⟨same.fileName_counterpart known, same.counterpart_same last known, fun p hp => ?_⟩
  exact (same.like last known).propertyName? (h.property_linked known hp)

namespace Crossing
open Relinking (settings path unlinked)

/-- A file that declares a domain with a converter to the domain of that name. -/
def text : String := "module: M\n---\ndomain: {name: D, converters: [{to: [D]}]}\n"

/-- The file, whose converter has some targets. -/
def declaring (name file : String) (targets : List Key) : ModelFile :=
  ⟨name, (path file).toString, "M", text, [], [],
    [⟨"D", none, none, none, none, [], [⟨[⟨"D", 3, 38⟩], targets, []⟩], some ⟨"domain", 3, 1⟩⟩],
    [], [], [], []⟩

/-- A version of the file that converts to the domain of another version. -/
def converting (name file : String) (v : VersionId) : Version :=
  ⟨declaring name file [⟨v, 0⟩], [], [], [], []⟩

/-- The file is changed. -/
def change (file : String) : Moment := ⟨.change (path file) (some text), unlinked, []⟩

/-- One of two files and the other one. -/
inductive Pair : String → String → String → String → Prop
  | forth : Pair "A" "A.tmd" "B" "B.tmd"
  | back : Pair "B" "B.tmd" "A" "A.tmd"

variable {name file name' file' : String}

set_option maxRecDepth 2000 in
theorem load_declaring (name file : String) :
    Grammar.loadText settings.app ⟨name, (path file).toString, text⟩ =
      .ok (some (declaring name file [])) := by
  cbv

section Runs

theorem Pair.named (h : Pair name file name' file') :
    settings.fileName unlinked ⟨"/", []⟩ (path file) = .ok name := by
  cases h with
  | forth => exact Retrying.name_user
  | back => exact Retrying.name_used

theorem Pair.symm (h : Pair name file name' file') : Pair name' file' name file := by
  cases h with
  | forth => exact .back
  | back => exact .forth

/-- The store after the first change. -/
def first (name file : String) : Store :=
  ⟨settings, [], ⟨#[converting name file 0]⟩, [(name, 0)], [], []⟩

/-- The store after the change of the second file, with which the first one is loaded again. -/
def second (name file name' file' : String) : Store :=
  ⟨settings, [], ⟨#[converting name file 0, converting name' file' 1, converting name file 1]⟩,
    [(name, 2), (name', 1)], [], []⟩

theorem run_first (h : Pair name file name' file') :
    ((change file).run (.new settings [])).store = first name file := by
  have next : (Moment.staging (.new settings []) name (path file)
      (declaring name file [])).nextBatch unlinked =
        .ok ⟨⟨#[.fresh 0 (declaring name file [])]⟩, [(name, 0)], [0]⟩ := by
    cases h with
    | forth => rfl
    | back => rfl
  have done : Batch.resolve ⟨⟨#[.fresh 0 (declaring name file [])]⟩, [(name, 0)], [0]⟩ settings =
      .ok ⟨(first name file).model, [(0, [])], [0]⟩ := by
    cases h with
    | forth => with_unfolding_all rfl
    | back => with_unfolding_all rfl
  rw [change, Moment.run_change (s := .new settings []) h.named (load_declaring name file) next done
    (by simp [Resolution.Clean])]
  cases h with
  | forth => rfl
  | back => rfl

/-- The store while the second file waits. -/
def pending (name file name' file' : String) : Store :=
  ⟨settings, [], ⟨#[converting name file 0, .fresh 1 (declaring name' file' [])]⟩, [(name, 0)],
    [(name', some 1)], []⟩

/-- The batch of the second change. -/
def batch (name file name' file' : String) : Batch :=
  ⟨((pending name file name' file').model.add (declaring name file [])).1,
    [(name, 2), (name', 1)], [2, 1]⟩

section Pending
variable (h : Pair name file name' file')
include h

theorem staging_pending : Moment.staging (first name file) name' (path file')
    (declaring name' file' []) = pending name file name' file' := by
  cases h <;> rfl

theorem batchNames_pending : (pending name file name' file').batchNames = [name, name'] := by
  cases h <;> rfl

omit h in
theorem file_pending : (pending name file name' file').model.file? 0 =
    some (declaring name file [⟨0, 0⟩]) := rfl

theorem fileName_declaring (t : VersionId) : settings.fileName unlinked ⟨"/", []⟩
    (.ofString (declaring name file [⟨t, 0⟩]).path) = .ok name := by
  have same : Path.ofString (path file).toString = path file := by
    cases h <;> with_unfolding_all rfl
  show settings.fileName unlinked ⟨"/", []⟩ (.ofString (path file).toString) = .ok name
  rw [same]
  exact h.named

/-- While the second file waits, the committed first one keeps its name. -/
theorem keeps_waiting {p : Store} {a t : VersionId} (settled : p.settings = settings)
    (names : p.batchNames = [name, name']) (waiting : p.pending = [name'])
    (known : p.file? name = some a) (old : p.model.file? a = some (declaring name file [⟨t, 0⟩])) :
    p.KeepsNames unlinked := by
  intro n inside free v f known' found n' named
  rw [names, List.mem_cons, List.mem_singleton] at inside
  rcases inside with rfl | rfl
  · cases known.symm.trans known'
    cases old.symm.trans found
    rw [Store.fileName, settled, fileName_declaring h] at named
    exact (Except.ok.inj named).symm
  · exact absurd (waiting ▸ List.mem_singleton_self _) free

/-- The next batch of a store in which the second file waits and the first one is committed: the
first one is loaded again. -/
theorem nextBatch_waiting {p : Store} {a b t : VersionId} (settled : p.settings = settings)
    (names : p.batchNames = [name, name']) (view : p.view = [(name, a), (name', b)])
    (waiting : p.pending = [name']) (old : p.model.file? a = some (declaring name file [⟨t, 0⟩])) :
    p.nextBatch unlinked = .ok ⟨(p.model.add (declaring name file [])).1,
      [(name, p.model.versions.size), (name', b)], [p.model.versions.size, b]⟩ := by
  have free : name ∉ p.pending := by
    rw [waiting]
    cases h <;> decide
  have waits : name' ∈ p.pending := waiting ▸ List.mem_singleton_self _
  have known : Table.get? [(name, a), (name', b)] name = some a := by
    rw [Table.get?_cons, if_pos rfl]
  have renewed := Store.renew_again settled free known old (fileName_declaring h t)
    (load_declaring name file)
  rw [Store.nextBatch_eq, names, view, List.foldlM_cons]
  simp only [List.foldlM_cons, List.foldlM_nil, bind, Except.bind, renewed]
  rw [Store.renew_pending waits]
  cases h <;> simp [Except.map, Table.put, Table.get?_cons, Model.add, pure, Except.pure]

theorem nextBatch_pending : (pending name file name' file').nextBatch unlinked =
    .ok (batch name file name' file') :=
  nextBatch_waiting h rfl (batchNames_pending h) (by cases h <;> rfl) rfl file_pending

end Pending

theorem run_second (h : Pair name file name' file') :
    ((change file').run (first name file)).store = second name file name' file' := by
  have done : (batch name file name' file').resolve settings =
      .ok ⟨(second name file name' file').model, [(2, []), (1, [])], [2, 1]⟩ := by
    cases h <;> with_unfolding_all rfl
  have next := nextBatch_pending h
  rw [← staging_pending h] at next
  rw [change, Moment.run_change (s := first name file) h.symm.named (load_declaring name' file')
    next done (by simp [Resolution.Clean])]
  cases h <;> rfl

theorem after_first (h : Pair name file name' file') :
    Store.after settings [change file] = first name file := by
  have steps : [change file] = [] ++ [change file] := rfl
  have start : Store.after settings [] = .new settings [] := rfl
  rw [steps, Store.after_snoc, start, run_first h]

theorem after_both (h : Pair name file name' file') :
    Store.after settings [change file, change file'] = second name file name' file' := by
  have steps : [change file, change file'] = [change file] ++ [change file'] := rfl
  rw [steps, Store.after_snoc, after_first h, run_second h]

theorem steady_first (h : Pair name file name' file') : Steady settings [change file] := by
  refine (Steady.nil settings).snoc (a := change file) ?_
  have start : Store.after settings [] = .new settings [] := rfl
  rw [start, change, Moment.load_change (s := .new settings []) h.named (load_declaring name file)]
  cases h with
  | forth => exact Store.keepsNames_of_pending fun _ => id
  | back => exact Store.keepsNames_of_pending fun _ => id

theorem steady_both (h : Pair name file name' file') :
    Steady settings [change file, change file'] := by
  refine (steady_first h).snoc (a := change file') ?_
  rw [after_first h, change, Moment.load_change (s := first name file) h.symm.named
    (load_declaring name' file'), staging_pending h]
  exact keeps_waiting h rfl (batchNames_pending h) rfl (by cases h <;> rfl) file_pending

/-- The files that hold the domains to which the domains of a file are converted. -/
def targets (s : Store) (name : String) : List String :=
  ((s.file? name).bind s.model.file?).toList.flatMap fun f =>
    (f.domains.flatMap (·.converters)).flatMap fun c => c.targets.map fun k =>
      s.model.fileName k.version

/-- Stores of the two files hold the same texts if they do so for each of the files. -/
theorem same_sources {s s' : Store} (known : ∀ n ∈ s.committed.keys, n = "A" ∨ n = "B")
    (known' : ∀ n ∈ s'.committed.keys, n = "A" ∨ n = "B")
    (first : s'.source? "A" = s.source? "A") (second : s'.source? "B" = s.source? "B")
    (name : String) : s'.source? name = s.source? name := by
  by_cases named : name = "A" ∨ name = "B"
  · rcases named with rfl | rfl
    · exact first
    · exact second
  · have absent : s.file? name = none := Table.get?_eq_none_iff.mpr (mt (known name) named)
    have absent' : s'.file? name = none := Table.get?_eq_none_iff.mpr (mt (known' name) named)
    rw [Store.source?, Store.source?, absent, absent']
    rfl

/-- Two files are changed in one order and in the other. The texts are the same in the end, but a
reference is bound to the domain of another file. -/
theorem bound_by_order :
    Steady settings [change "A.tmd", change "B.tmd"] ∧
    Steady settings [change "B.tmd", change "A.tmd"] ∧
    (∀ name, (Store.after settings [change "B.tmd", change "A.tmd"]).source? name =
      (Store.after settings [change "A.tmd", change "B.tmd"]).source? name) ∧
    targets (Store.after settings [change "A.tmd", change "B.tmd"]) "A" = ["B"] ∧
    targets (Store.after settings [change "B.tmd", change "A.tmd"]) "A" = ["A"] := by
  refine ⟨steady_both .forth, steady_both .back, ?_⟩
  rw [after_both .forth, after_both .back]
  exact ⟨same_sources (by decide) (by decide) rfl rfl, rfl, rfl⟩

/-- Two files are changed. -/
def once : List Moment := [change "A.tmd", change "B.tmd"]

/-- The second file is changed again, to the text that it has. -/
def twice : List Moment := once ++ [change "B.tmd"]

/-- The store while the second file waits again. -/
def waiting : Store :=
  ⟨settings, [], ⟨#[converting "A" "A.tmd" 0, converting "B" "B.tmd" 1, converting "A" "A.tmd" 1,
    .fresh 3 (declaring "B" "B.tmd" [])]⟩, [("A", 2), ("B", 1)], [("B", some 3)], []⟩

/-- The store after the last change. -/
def again : Store :=
  ⟨settings, [], ⟨#[converting "A" "A.tmd" 0, converting "B" "B.tmd" 1, converting "A" "A.tmd" 1,
    converting "B" "B.tmd" 3, converting "A" "A.tmd" 3]⟩, [("A", 4), ("B", 3)], [], []⟩

theorem staging_waiting : Moment.staging (second "A" "A.tmd" "B" "B.tmd") "B" (path "B.tmd")
    (declaring "B" "B.tmd" []) = waiting := rfl

theorem run_again : ((change "B.tmd").run (second "A" "A.tmd" "B" "B.tmd")).store = again := by
  have next := nextBatch_waiting .forth (p := waiting) (a := 2) (b := 3) (t := 1) rfl rfl rfl rfl rfl
  have done : Batch.resolve ⟨(waiting.model.add (declaring "A" "A.tmd" [])).1,
      [("A", 4), ("B", 3)], [4, 3]⟩ settings = .ok ⟨again.model, [(4, []), (3, [])], [4, 3]⟩ := by
    with_unfolding_all rfl
  rw [← staging_waiting] at next
  rw [change, Moment.run_change (s := second "A" "A.tmd" "B" "B.tmd") Pair.back.named
    (load_declaring "B" "B.tmd") next done (by simp [Resolution.Clean])]
  rfl

theorem after_once : Store.after settings once = second "A" "A.tmd" "B" "B.tmd" :=
  after_both .forth

theorem after_twice : Store.after settings twice = again := by
  rw [twice, Store.after_snoc, after_once, run_again]

theorem steady_twice : Steady settings twice := by
  refine (steady_both .forth).snoc (a := change "B.tmd") ?_
  rw [after_both .forth, change, Moment.load_change (s := second "A" "A.tmd" "B" "B.tmd")
    Pair.back.named (load_declaring "B" "B.tmd"), staging_waiting]
  exact keeps_waiting .forth (a := 2) (t := 1) rfl rfl rfl rfl rfl

theorem sources_twice (name : String) :
    (Store.after settings twice).source? name = (Store.after settings once).source? name := by
  rw [after_once, after_twice]
  have known : ∀ n ∈ again.committed.keys, n = "A" ∨ n = "B" := by decide
  exact same_sources (s := second "A" "A.tmd" "B" "B.tmd") (by decide) known rfl rfl name

theorem disputed_once : (Store.after settings once).Disputed "D" := by
  rw [after_once]
  exact ⟨"A", "B", by decide, ⟨2, rfl, rfl⟩, ⟨1, rfl, rfl⟩⟩

theorem last_twice (domain : String) : (Store.after settings twice).lastDeclarer? domain =
    (Store.after settings once).lastDeclarer? domain := by
  rw [after_once, after_twice]
  by_cases isD : domain = "D"
  · subst isD
    rfl
  · have other : ("D" == domain) = false := beq_false_of_ne (Ne.symm isD)
    simp [Store.lastDeclarer?, again, second, converting, declaring, Model.domainsOf, Model.file?,
      Model.version?, other]

/-- Both files declare a domain of one name. The one that is last in the registry is the same after
either history, so the references are bound to its domain in the end. -/
theorem committed_by_texts_again :
    (Steady settings once ∧ Steady settings twice ∧
      (∀ name, (Store.after settings twice).source? name =
        (Store.after settings once).source? name) ∧
      (Store.after settings once).Disputed "D" ∧
      (∀ domain, (Store.after settings once).Disputed domain →
        (Store.after settings twice).lastDeclarer? domain =
          (Store.after settings once).lastDeclarer? domain)) ∧
    let s := Store.after settings once
    let s' := Store.after settings twice
    let ρ := s.counterpart s'
    ρ 2 = 4 ∧ ρ 1 = 3 ∧ s.domains.get? "D" = some ⟨1, 0⟩ ∧ s'.domains.get? "D" = some ⟨3, 0⟩ ∧
      targets s "A" = ["B"] ∧ targets s' "A" = ["B"] ∧
      ∃ path, s'.model.version? 4 =
        (s.model.version? 2).map fun ver => (ver.rename ρ).movedTo path := by
  refine ⟨⟨steady_both .forth, steady_twice, sources_twice, disputed_once,
    fun domain _ => last_twice domain⟩, ?_⟩
  have same := committed_by_texts settings once twice (steady_both .forth) steady_twice
    sources_twice fun domain _ => last_twice domain
  dsimp only at same ⊢
  rw [after_once, after_twice] at same ⊢
  obtain ⟨-, files, -, versions⟩ := same
  have placeA : 4 = (second "A" "A.tmd" "B" "B.tmd").counterpart again 2 :=
    Option.some.inj (files "A")
  have placeB : 3 = (second "A" "A.tmd" "B" "B.tmd").counterpart again 1 :=
    Option.some.inj (files "B")
  obtain ⟨-, ⟨path, alike⟩, -⟩ := versions "A" 2 rfl
  refine ⟨placeA.symm, placeB.symm, rfl, rfl, rfl, rfl, path, ?_⟩
  rw [← alike, ← placeA]

end Runs

end Crossing

end DataModel
