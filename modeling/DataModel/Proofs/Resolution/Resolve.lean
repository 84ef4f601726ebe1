import Mathlib.Data.List.Find
import DataModel.Proofs.Resolution.Checks
import DataModel.Resolution.Resolve

/-!
Resolving up to identity. Resolving a file in alike models, against the same files and domains,
gives the same diagnostics and again alike models: what a file becomes depends on nothing but what
it declares and what is within its horizon.
-/
namespace DataModel
variable {ρ : VersionId → VersionId} {H : Horizon} {m m' : Model}

namespace Resolution
variable {s : Scope}

section Sharing

theorem replaceOrAppend_rename {name? name?' : Key → Option String} {k : Key} {ks : List Key}
    (names : ∀ l ∈ k :: ks, name?' (l.rename ρ) = name? l) :
    replaceOrAppend name?' (k.rename ρ) (ks.map (Key.rename ρ)) =
      (replaceOrAppend name? k ks).map (Key.rename ρ) := by
  induction ks with
  | nil => rfl
  | cons l ks ih =>
      have ofNew := names k List.mem_cons_self
      have ofOld := names l (List.mem_cons_of_mem k List.mem_cons_self)
      rw [List.map_cons, replaceOrAppend, replaceOrAppend, ofNew, ofOld]
      split
      · rfl
      · rw [List.map_cons, ih]
        intro l' hl'
        rcases List.mem_cons.mp hl' with rfl | later
        · exact ofNew
        · exact names l' (List.mem_cons_of_mem k (List.mem_cons_of_mem l later))

theorem mem_replaceOrAppend {name? : Key → Option String} {k l : Key} {ks : List Key}
    (h : l ∈ replaceOrAppend name? k ks) : l = k ∨ l ∈ ks := by
  induction ks with
  | nil => exact .inl (List.mem_singleton.mp h)
  | cons e ks ih =>
      rw [replaceOrAppend] at h
      split at h
      · exact (List.mem_cons.mp h).imp_right (List.mem_cons_of_mem e)
      · rcases List.mem_cons.mp h with rfl | later
        · exact .inr List.mem_cons_self
        · exact (ih later).imp_right (List.mem_cons_of_mem e)

theorem addIfNew_rename (inj : ρ.Injective) (k : Key) (ks : List Key) :
    addIfNew (k.rename ρ) (ks.map (Key.rename ρ)) = (addIfNew k ks).map (Key.rename ρ) := by
  unfold addIfNew
  rw [contains_map (Key.rename_injective inj)]
  split
  · rfl
  · rw [List.map_append]
    rfl

theorem mem_addIfNew {k l : Key} {ks : List Key} : l ∈ addIfNew k ks ↔ l = k ∨ l ∈ ks := by
  unfold addIfNew
  by_cases known : k ∈ ks
  · rw [if_pos (by simpa using known)]
    exact ⟨.inr, fun h => h.elim (fun e => e ▸ known) id⟩
  · rw [if_neg (by simpa using known), List.mem_append, List.mem_singleton, or_comm]

theorem className?_like (like : Model.Like ρ H m m') {k : Key} (reach : H.files k.version) :
    className? m' (k.rename ρ) = className? m k := by
  rw [className?, className?, like.class? reach, Option.map_map]
  rfl

theorem endpointName?_like (like : Model.Like ρ H m m') {k : Key} (reach : H.files k.version) :
    endpointName? m' (k.rename ρ) = endpointName? m k := by
  rw [endpointName?, endpointName?, like.endpoint? reach, Option.map_map]
  rfl

theorem shareClass_like (inj : ρ.Injective) (like : Model.Like ρ H m m') {self : VersionId}
    {k : Key} (within : H.files self) (reach : H.files k.version) :
    Model.Like ρ H (shareClass m self k) (shareClass m' (ρ self) (k.rename ρ)) := by
  refine like.modify inj within ?_ ?_ fun _ _ => rfl
  · intro ver path known
    have names : ∀ l ∈ k :: ver.classes, className? m' (l.rename ρ) = className? m l := by
      intro l hl
      rcases List.mem_cons.mp hl with rfl | offered
      · exact className?_like like reach
      · exact className?_like like ((like.linked within known).classes l offered)
    simp only [Version.rename, Version.movedTo, replaceOrAppend_rename names,
      addIfNew_rename inj]
  · intro ver known
    have old := like.linked within known
    refine ⟨old.file, ?_, old.endpoints, ?_, old.sharedEndpoints⟩
    · intro l hl
      rcases mem_replaceOrAppend hl with rfl | before
      · exact reach
      · exact old.classes l before
    · intro l hl
      rcases mem_addIfNew.mp hl with rfl | before
      · exact reach
      · exact old.sharedClasses l before

theorem shareEndpoint_like (inj : ρ.Injective) (like : Model.Like ρ H m m') {self : VersionId}
    {k : Key} (within : H.files self) (reach : H.files k.version) :
    Model.Like ρ H (shareEndpoint m self k) (shareEndpoint m' (ρ self) (k.rename ρ)) := by
  refine like.modify inj within ?_ ?_ fun _ _ => rfl
  · intro ver path known
    have names : ∀ l ∈ k :: ver.endpoints, endpointName? m' (l.rename ρ) = endpointName? m l := by
      intro l hl
      rcases List.mem_cons.mp hl with rfl | offered
      · exact endpointName?_like like reach
      · exact endpointName?_like like ((like.linked within known).endpoints l offered)
    simp only [Version.rename, Version.movedTo, replaceOrAppend_rename names,
      addIfNew_rename inj]
  · intro ver known
    have old := like.linked within known
    refine ⟨old.file, old.classes, ?_, old.sharedClasses, ?_⟩
    · intro l hl
      rcases mem_replaceOrAppend hl with rfl | before
      · exact reach
      · exact old.endpoints l before
    · intro l hl
      rcases mem_addIfNew.mp hl with rfl | before
      · exact reach
      · exact old.sharedEndpoints l before

theorem shareListed_agrees (like₀ : Model.Like ρ H m m') (a : FileAlias) (missing : Finding)
    {offered offered' : Model → List Key} {name? : Model → Key → Option String}
    {share : Model → VersionId → Key → Model} (listed : List Reference)
    (offers : ∀ {n n' : Model}, Model.Like ρ H n n' →
      offered' n' = (offered n).map (Key.rename ρ) ∧ ∀ k ∈ offered n, H.files k.version)
    (names : ∀ {n n' : Model} {k : Key}, Model.Like ρ H n n' → H.files k.version →
      name? n' (k.rename ρ) = name? n k)
    (shares : ∀ {n n' : Model} {k : Key}, Model.Like ρ H n n' → H.files k.version →
      Model.Like ρ H (share n s.self k) (share n' (ρ s.self) (k.rename ρ))) :
    Agrees ρ (Model.Like ρ H) (shareListed s a missing offered name? share listed m)
      (shareListed (s.rename ρ) a missing offered' name? share listed m') := by
  unfold shareListed
  refine .foldlM_same like₀ fun r _ n n' like => ?_
  obtain ⟨same, within⟩ := offers like
  have found : (offered' n').find? (fun k => name? n' k == some r.name) =
      ((offered n).find? fun k => name? n k == some r.name).map (Key.rename ρ) := by
    rw [same, List.find?_map]
    refine congrArg _ (List.find?_congr fun k hk => ?_)
    simp only [Function.comp_apply, names like (within k hk)]
  rw [found]
  cases named : (offered n).find? fun k => name? n k == some r.name with
  | none => exact (report_agrees s missing (.fileAlias a) r).bind fun _ _ _ => .pure like
  | some k => exact .pure (shares like (within k (List.mem_of_find?_eq_some named)))

theorem shareAlias_agrees (inj : ρ.Injective) (like : Model.Like ρ H m m') (within : s.Within H)
    (a : FileAlias) :
    Agrees ρ (Model.Like ρ H) (shareAlias s m a) (shareAlias (s.rename ρ) m' a) := by
  unfold shareAlias
  rw [show (s.rename ρ).dependencies.get? a.file.name =
    (s.dependencies.get? a.file.name).map ρ from Table.get?_mapValues _ _ _]
  cases found : s.dependencies.get? a.file.name with
  | none => exact (report_agrees s _ (.fileAlias a) a.file).bind fun _ _ _ => .pure like
  | some source =>
      have reach := within.dependencies found
      simp only [Option.map_some]
      rw [like.fileName reach]
      refine (Agrees.markUsed _).bind fun _ _ _ => ?_
      refine (shareListed_agrees like a _ a.classes
        (fun like => ⟨like.classes reach, fun k => like.classes_within reach⟩) (fun like => className?_like like)
        (fun like => shareClass_like inj like within.self)).bind fun _ _ like => ?_
      exact shareListed_agrees like a _ a.endpoints
        (fun like => ⟨like.endpoints reach, fun k => like.endpoints_within reach⟩)
        (fun like => endpointName?_like like) (fun like => shareEndpoint_like inj like within.self)

theorem shareAliases_agrees (inj : ρ.Injective) (like : Model.Like ρ H m m')
    (within : s.Within H) :
    Agrees ρ (Model.Like ρ H) (shareAliases s m) (shareAliases (s.rename ρ) m') := by
  unfold shareAliases
  have declared : ((m'.file? (s.rename ρ).self).map (·.aliases)).getD [] =
      ((m.file? s.self).map (·.aliases)).getD [] := by
    rw [show (m'.file? (s.rename ρ).self).map (·.aliases) = _ from
      like.reading within.self fun _ _ => rfl]
    rfl
  rw [declared]
  exact .foldlM_same like fun a _ n n' like => shareAlias_agrees inj like within a

end Sharing

theorem steps_agrees (inj : ρ.Injective) (like : Model.Like ρ H m m') (within : s.Within H)
    (allowCompositeKeys : Bool) :
    Agrees ρ (Model.Like ρ H) (steps s allowCompositeKeys m)
      (steps (s.rename ρ) allowCompositeKeys m') := by
  unfold steps
  rw [missingUses_rename like within]
  refine (checkUses_agrees like within).bind fun _ _ _ => ?_
  refine (collapseAll_agrees inj like within).bind fun _ _ like => ?_
  refine (bind_agrees inj like within).bind fun _ _ like => ?_
  refine (expandAll_agrees inj like within).bind fun _ _ like => ?_
  refine (shareAliases_agrees inj like within).bind fun n n' like => ?_
  have rest (missing : List Reference) : Agrees ρ (Model.Like ρ H)
      (do checkDuplicates s n; checkUnusedUses s missing n; checkUsesOrder s missing n; return n)
      (do
        checkDuplicates (s.rename ρ) n'
        checkUnusedUses (s.rename ρ) missing n'
        checkUsesOrder (s.rename ρ) missing n'
        return n') := by
    refine (checkDuplicates_agrees inj like within).bind fun _ _ _ => ?_
    refine (checkUnusedUses_agrees like within).bind fun _ _ _ => ?_
    exact (checkUsesOrder_agrees like within).bind fun _ _ _ => .pure like
  split
  · exact (checkKeys_agrees inj like within).bind fun _ _ _ => rest _
  · exact rest _

section Scopes

/-- A horizon that covers a file, the files it uses, whatever these offer, and the domains. -/
structure Covers (H : Horizon) (m : Model) (v : VersionId) (uses : List VersionId)
    (table : Table Key) : Prop where
  self : H.files v
  dependencies : ∀ d ∈ uses, H.files d
  classes : ∀ {k c}, H.files k.version → m.class? k = some c → H.classes c.name k
  decorators : ∀ {w f i d}, H.files w → m.file? w = some f → f.decorators[i]? = some d →
    H.decorators d.name ⟨w, i⟩
  domains : ∀ {name k}, table.get? name = some k → H.domains name k

variable {self : VersionId} {dependencies : List VersionId} {domains : Table Key}

theorem mem_offeredClasses {keys : List Key} {file name : String} {o : Offer}
    (h : (name, o) ∈ offeredClasses m keys file) :
    o.key ∈ keys ∧ ∃ c, m.class? o.key = some c ∧ c.name = name := by
  obtain ⟨k, hk, offered⟩ := List.mem_filterMap.mp h
  obtain ⟨c, found, same⟩ := Option.map_eq_some_iff.mp offered
  cases same
  exact ⟨hk, c, found, rfl⟩

theorem mem_offeredDecorators {v : VersionId} {name : String} {o : Offer}
    (h : (name, o) ∈ offeredDecorators m v) :
    ∃ i f d, o.key = ⟨v, i⟩ ∧ m.file? v = some f ∧ f.decorators[i]? = some d ∧ d.name = name := by
  obtain ⟨⟨d, i⟩, member, same⟩ := List.mem_map.mp h
  cases same
  rw [List.mem_zipIdx_iff_getElem?] at member
  cases known : m.file? v with
  | none =>
      rw [known] at member
      cases member
  | some f =>
      rw [known] at member
      exact ⟨i, f, d, rfl, rfl, member, rfl⟩

theorem scope_within (like : Model.Like ρ H m m') (covers : Covers H m self dependencies domains) :
    (Scope.of m self dependencies domains).Within H := by
  refine ⟨covers.self, ?_, ?_, ?_, covers.domains⟩
  · intro name d found
    obtain ⟨d', member, same⟩ := List.mem_map.mp (Table.mem_of_get?_ofList found)
    cases same
    exact covers.dependencies d member
  · intro name o found
    rcases List.mem_append.mp (Table.mem_of_get?_ofList found) with ofDependency | own
    · obtain ⟨d, hd, offered⟩ := List.mem_flatMap.mp ofDependency
      obtain ⟨hk, c, known, rfl⟩ := mem_offeredClasses offered
      exact covers.classes (like.classes_within (covers.dependencies d hd) hk) known
    · obtain ⟨hk, c, known, rfl⟩ := mem_offeredClasses own
      exact covers.classes (like.classes_within covers.self (Model.classes_of_own hk)) known
  · intro name o found
    rcases List.mem_append.mp (Table.mem_of_get?_ofList found) with ofDependency | own
    · obtain ⟨d, hd, offered⟩ := List.mem_flatMap.mp ofDependency
      obtain ⟨i, f, decorator, place, known, declared, rfl⟩ := mem_offeredDecorators offered
      rw [place]
      exact covers.decorators (covers.dependencies d hd) known declared
    · obtain ⟨i, f, decorator, place, known, declared, rfl⟩ := mem_offeredDecorators own
      rw [place]
      exact covers.decorators covers.self known declared

theorem offeredClasses_rename (like : Model.Like ρ H m m') {keys : List Key}
    (reach : ∀ k ∈ keys, H.files k.version) (file : String) :
    offeredClasses m' (keys.map (Key.rename ρ)) file =
      Table.mapValues (Offer.rename ρ) (offeredClasses m keys file) := by
  unfold offeredClasses Table.mapValues
  rw [List.filterMap_map, List.map_filterMap]
  refine List.filterMap_congr fun k hk => ?_
  simp only [Function.comp_apply]
  rw [like.class? (reach k hk), Option.map_map, Option.map_map]
  rfl

theorem offeredDecorators_rename (like : Model.Like ρ H m m') {v : VersionId}
    (reach : H.files v) :
    offeredDecorators m' (ρ v) = Table.mapValues (Offer.rename ρ) (offeredDecorators m v) := by
  unfold offeredDecorators Table.mapValues
  rw [like.reading reach fun _ _ => rfl, like.fileName reach, List.map_map]
  rfl

theorem scope_rename (inj : ρ.Injective) (like : Model.Like ρ H m m')
    (covers : Covers H m self dependencies domains) :
    Scope.of m' (ρ self) (dependencies.map ρ) (Table.mapValues (Key.rename ρ) domains) =
      (Scope.of m self dependencies domains).rename ρ := by
  have files : (dependencies.map ρ).map (fun d => (m'.fileName d, d)) =
      Table.mapValues ρ (dependencies.map fun d => (m.fileName d, d)) := by
    rw [Table.mapValues, List.map_map, List.map_map]
    refine List.map_congr_left fun d hd => ?_
    simp only [Function.comp_apply, like.fileName (covers.dependencies d hd)]
  have classes : (dependencies.map ρ).flatMap
        (fun d => offeredClasses m' (m'.classes d) (m'.fileName d))
      ++ offeredClasses m' (m'.ownClasses (ρ self)) (m'.fileName (ρ self)) =
      Table.mapValues (Offer.rename ρ)
        (dependencies.flatMap (fun d => offeredClasses m (m.classes d) (m.fileName d))
          ++ offeredClasses m (m.ownClasses self) (m.fileName self)) := by
    rw [Table.mapValues, List.map_append, List.map_flatMap, List.flatMap_map]
    congr 1
    · refine List.flatMap_congr fun d hd => ?_
      have reach := covers.dependencies d hd
      rw [like.classes reach, like.fileName reach]
      exact offeredClasses_rename like (fun k hk => like.classes_within reach hk) _
    · rw [like.ownClasses inj covers.self, like.fileName covers.self]
      exact offeredClasses_rename like
        (fun k hk => like.classes_within covers.self (Model.classes_of_own hk)) _
  have decorators : (dependencies.map ρ).flatMap (offeredDecorators m')
      ++ offeredDecorators m' (ρ self) =
      Table.mapValues (Offer.rename ρ)
        (dependencies.flatMap (offeredDecorators m) ++ offeredDecorators m self) := by
    rw [Table.mapValues, List.map_append, List.map_flatMap, List.flatMap_map]
    congr 1
    · exact List.flatMap_congr fun d hd =>
        offeredDecorators_rename like (covers.dependencies d hd)
    · exact offeredDecorators_rename like covers.self
  rw [Scope.of, Scope.rename, Scope.of, files, classes, decorators]
  simp only [Table.mapValues, Table.ofList_mapValues]

end Scopes
end Resolution

namespace Model

/-- Resolving a file in alike models gives the same diagnostics and alike models, or it gets stuck
in both. -/
theorem resolve_like (inj : ρ.Injective) (like : Like ρ H m m') {self : VersionId}
    {dependencies : List VersionId} {domains : Table Key}
    (covers : Resolution.Covers H m self dependencies domains) (allowCompositeKeys : Bool) :
    (∃ ds n n', m.resolve self dependencies domains allowCompositeKeys = .ok (ds, n) ∧
      m'.resolve (ρ self) (dependencies.map ρ) (Table.mapValues (Key.rename ρ) domains)
        allowCompositeKeys = .ok (ds.map (Diagnostic.rename ρ), n') ∧ Like ρ H n n') ∨
    ∃ e, m.resolve self dependencies domains allowCompositeKeys = .error e ∧
      m'.resolve (ρ self) (dependencies.map ρ) (Table.mapValues (Key.rename ρ) domains)
        allowCompositeKeys = .error e := by
  have alike := Resolution.steps_agrees inj like (Resolution.scope_within like covers)
    allowCompositeKeys ⟨[], []⟩
  unfold resolve
  dsimp only
  rw [Resolution.scope_rename inj like covers]
  rw [show Resolution.Notes.rename ρ ⟨[], []⟩ = ⟨[], []⟩ from rfl] at alike
  generalize (Resolution.steps _ allowCompositeKeys m).run ⟨[], []⟩ = r at alike ⊢
  generalize (Resolution.steps _ allowCompositeKeys m').run ⟨[], []⟩ = r' at alike ⊢
  cases alike with
  | done like => exact .inl ⟨_, _, _, rfl, rfl, like⟩
  | stuck e => exact .inr ⟨e, rfl, rfl⟩

/-- In models that look the same from a file, resolving the file does the same. -/
theorem resolve_same (like : Like id H m m') {self : VersionId} {dependencies : List VersionId}
    {domains : Table Key} (covers : Resolution.Covers H m self dependencies domains)
    {allowCompositeKeys : Bool} {ds : List Diagnostic} {n : Model}
    (done : m.resolve self dependencies domains allowCompositeKeys = .ok (ds, n)) :
    ∃ n', m'.resolve self dependencies domains allowCompositeKeys = .ok (ds, n') ∧
      Like id H n n' := by
  have table : Table.mapValues (Key.rename id) domains = domains := List.map_id' domains
  rcases resolve_like Function.injective_id like covers allowCompositeKeys with
    ⟨ds', n₁, n', done', done'', like'⟩ | ⟨e, failed, -⟩
  · rw [done] at done'
    cases done'
    rw [List.map_id, table, Diagnostic.rename_id, List.map_id] at done''
    exact ⟨n', done'', like'⟩
  · rw [done] at failed
    cases failed

end Model
end DataModel
