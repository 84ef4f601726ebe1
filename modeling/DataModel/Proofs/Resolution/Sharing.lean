import DataModel.Proofs.Resolution.Completion
import DataModel.Proofs.Resolution.Mirroring

/-!
Re-exports as a whole. What the aliases of a file take from other files depends on those files
alone, so the file ends up with its own entities in which, one after the other, the taken ones were
put in their places. Doing so once more changes nothing.
-/
namespace DataModel.Resolution
variable {v : VersionId} {m n : Model} {ks es : List Key}

section Replacing
variable {name? : Key → Option String} {k l : Key} {cs : List Key}

/-- Of two entities of one name the later one stays. -/
theorem replaceOrAppend_absorb (same : name? k = name? l) (cs : List Key) :
    replaceOrAppend name? l (replaceOrAppend name? k cs) = replaceOrAppend name? l cs := by
  induction cs with
  | nil => simp [replaceOrAppend, same]
  | cons e cs ih =>
      by_cases here : name? e = name? k
      · rw [replaceOrAppend, if_pos (beq_iff_eq.mpr here), replaceOrAppend,
          if_pos (beq_iff_eq.mpr same), replaceOrAppend, if_pos (beq_iff_eq.mpr (here.trans same))]
      · have other : name? e ≠ name? l := fun h => here (h.trans same.symm)
        rw [replaceOrAppend, if_neg (by simpa using here), replaceOrAppend,
          if_neg (by simpa using other), replaceOrAppend, if_neg (by simpa using other), ih]

/-- An entity whose name is there is put in its place before or after another one. -/
theorem replaceOrAppend_comm (apart : name? k ≠ name? l) (there : ∃ e ∈ cs, name? e = name? k) :
    replaceOrAppend name? l (replaceOrAppend name? k cs) =
      replaceOrAppend name? k (replaceOrAppend name? l cs) := by
  induction cs with
  | nil =>
      obtain ⟨e, he, -⟩ := there
      cases he
  | cons e cs ih =>
      by_cases here : name? e = name? k
      · have other : name? e ≠ name? l := fun h => apart (here.symm.trans h)
        rw [replaceOrAppend, if_pos (beq_iff_eq.mpr here), replaceOrAppend,
          if_neg (by simpa using apart), replaceOrAppend, if_neg (by simpa using other),
          replaceOrAppend, if_pos (beq_iff_eq.mpr here)]
      · have there' : ∃ e ∈ cs, name? e = name? k := by
          obtain ⟨d, hd, named⟩ := there
          rcases List.mem_cons.mp hd with rfl | later
          · exact absurd named here
          · exact ⟨d, later, named⟩
        rw [replaceOrAppend, if_neg (by simpa using here)]
        by_cases second : name? e = name? l
        · rw [replaceOrAppend, if_pos (beq_iff_eq.mpr second), replaceOrAppend,
            if_pos (beq_iff_eq.mpr second), replaceOrAppend,
            if_neg (by simpa using Ne.symm apart)]
        · rw [replaceOrAppend, if_neg (by simpa using second), replaceOrAppend,
            if_neg (by simpa using second), replaceOrAppend, if_neg (by simpa using here),
            ih there']

/-- Putting the entity that is found under its name changes nothing. -/
theorem replaceOrAppend_found (found : (cs.find? fun e => name? e == name? k) = some k) :
    replaceOrAppend name? k cs = cs := by
  induction cs with
  | nil => cases found
  | cons e cs ih =>
      rw [List.find?_cons] at found
      rw [replaceOrAppend]
      split
      · next here =>
        rw [here] at found
        rw [Option.some.inj found]
      · next other =>
        rw [Bool.eq_false_iff.mpr other] at found
        rw [ih found]

theorem find?_replaceOrAppend_self (name? : Key → Option String) (k : Key) (cs : List Key) :
    ((replaceOrAppend name? k cs).find? fun e => name? e == name? k) = some k := by
  induction cs with
  | nil => rw [replaceOrAppend, List.find?_cons, beq_self_eq_true]
  | cons e cs ih =>
      rw [replaceOrAppend]
      split
      · rw [List.find?_cons, beq_self_eq_true]
      · next other => rw [List.find?_cons, Bool.eq_false_iff.mpr other, ih]

theorem find?_replaceOrAppend_other (apart : name? l ≠ name? k) (cs : List Key) :
    ((replaceOrAppend name? l cs).find? fun e => name? e == name? k) =
      cs.find? fun e => name? e == name? k := by
  have no : (name? l == name? k) = false := beq_false_of_ne apart
  induction cs with
  | nil => rw [replaceOrAppend, List.find?_cons, no]
  | cons e cs ih =>
      rw [replaceOrAppend]
      split
      · next here =>
        rw [List.find?_cons, List.find?_cons, no, beq_iff_eq.mp here, no]
      · rw [List.find?_cons, List.find?_cons, ih]

end Replacing

section Shared

/-- A list into which entities were put one after the other. -/
def replaceAll (name? : Key → Option String) (ks cs : List Key) : List Key :=
  ks.foldl (fun cs k => replaceOrAppend name? k cs) cs

def addAll (ks cs : List Key) : List Key := ks.foldl (fun cs k => addIfNew k cs) cs

/-- A model in which a version has taken classes and endpoints. -/
def shared (m : Model) (v : VersionId) (ks es : List Key) : Model :=
  m.modify v fun ver => { ver with
    classes := replaceAll (className? m) ks ver.classes
    endpoints := replaceAll (endpointName? m) es ver.endpoints
    sharedClasses := addAll ks ver.sharedClasses
    sharedEndpoints := addAll es ver.sharedEndpoints }

@[simp] theorem shared_nil : shared m v [] [] = m := Model.modify_self fun _ _ => rfl

theorem file?_shared (w : VersionId) : (shared m v ks es).file? w = m.file? w := by
  refine file?_modify_of_same (fun ver => ?_) w
  rfl

theorem version?_shared {w : VersionId} (other : w ≠ v) :
    (shared m v ks es).version? w = m.version? w := Model.version?_modify_other other

theorem className?_shared : className? (shared m v ks es) = className? m := by
  funext k
  rw [className?, className?, class?_of_files file?_shared]

theorem endpointName?_shared : endpointName? (shared m v ks es) = endpointName? m := by
  funext k
  rw [endpointName?, endpointName?, endpoint?_of_files file?_shared]

theorem fileName_shared : (shared m v ks es).fileName = m.fileName := by
  funext w
  rw [Model.fileName, Model.fileName, file?_shared]

theorem shareClass_shared (k : Key) :
    shareClass (shared m v ks es) v k = shared m v (ks ++ [k]) es := by
  rw [shareClass, className?_shared, shared, shared, Model.modify_modify]
  simp only [replaceAll, addAll, List.foldl_append, List.foldl_cons, List.foldl_nil]

theorem shareEndpoint_shared (e : Key) :
    shareEndpoint (shared m v ks es) v e = shared m v ks (es ++ [e]) := by
  rw [shareEndpoint, endpointName?_shared, shared, shared, Model.modify_modify]
  simp only [replaceAll, addAll, List.foldl_append, List.foldl_cons, List.foldl_nil]

end Shared

section Again
variable {name? : Key → Option String} {k : Key} {cs : List Key}

theorem name_replaceAll {e : Key} (h : e ∈ cs) :
    ∃ d ∈ replaceAll name? ks cs, name? d = name? e := by
  induction ks generalizing cs e with
  | nil => exact ⟨e, h, rfl⟩
  | cons k ks ih =>
      obtain ⟨d, hd, same⟩ := name_replaceOrAppend name? (k := k) h
      obtain ⟨d', hd', same'⟩ := ih hd
      exact ⟨d', hd', same'.trans same⟩

/-- What is put again later need not be put before. -/
theorem replaceAll_skip (again : ∃ l ∈ ks, name? l = name? k) (there : ∃ e ∈ cs, name? e = name? k) :
    replaceAll name? ks (replaceOrAppend name? k cs) = replaceAll name? ks cs := by
  induction ks generalizing cs with
  | nil =>
      obtain ⟨l, hl, -⟩ := again
      cases hl
  | cons r ks ih =>
      show replaceAll name? ks (replaceOrAppend name? r (replaceOrAppend name? k cs)) =
        replaceAll name? ks (replaceOrAppend name? r cs)
      by_cases same : name? r = name? k
      · rw [replaceOrAppend_absorb same.symm]
      · rw [replaceOrAppend_comm (Ne.symm same) there]
        refine ih ?_ ?_
        · obtain ⟨l, hl, named⟩ := again
          rcases List.mem_cons.mp hl with rfl | later
          · exact absurd named same
          · exact ⟨l, later, named⟩
        · obtain ⟨e, he, named⟩ := there
          obtain ⟨d, hd, kept⟩ := name_replaceOrAppend name? (k := r) he
          exact ⟨d, hd, kept.trans named⟩

/-- A list in which the last entity of every name is found already. -/
theorem replaceAll_found (there : ∀ k ∈ ks, ∃ e ∈ cs, name? e = name? k)
    (found : ∀ before k after, ks = before ++ k :: after → (∀ l ∈ after, name? l ≠ name? k) →
      (cs.find? fun e => name? e == name? k) = some k) : replaceAll name? ks cs = cs := by
  induction ks with
  | nil => rfl
  | cons k ks ih =>
      obtain ⟨first, rest⟩ := List.forall_mem_cons.mp there
      have later : replaceAll name? ks cs = cs := ih rest fun before l after split last =>
        found (k :: before) l after (congrArg (k :: ·) split) last
      show replaceAll name? ks (replaceOrAppend name? k cs) = cs
      -- an entity whose name comes again is not found, but the later one replaces it anyway
      by_cases again : ∃ l ∈ ks, name? l = name? k
      · rw [replaceAll_skip again first, later]
      · rw [replaceOrAppend_found (found [] k ks rfl fun l hl same => again ⟨l, hl, same⟩), later]

theorem find?_replaceAll {before after : List Key} (split : ks = before ++ k :: after)
    (last : ∀ l ∈ after, name? l ≠ name? k) (cs : List Key) :
    ((replaceAll name? ks cs).find? fun e => name? e == name? k) = some k := by
  rw [split, replaceAll, List.foldl_append, List.foldl_cons]
  generalize before.foldl (fun cs k => replaceOrAppend name? k cs) cs = start
  have first := find?_replaceOrAppend_self name? k start
  generalize replaceOrAppend name? k start = here at first
  clear split
  induction after generalizing here with
  | nil => exact first
  | cons l after ih =>
      obtain ⟨apart, rest⟩ := List.forall_mem_cons.mp last
      exact ih rest _ ((find?_replaceOrAppend_other apart here).trans first)

/-- Putting the same entities once more changes nothing. -/
theorem replaceAll_again (name? : Key → Option String) (ks cs : List Key) :
    replaceAll name? ks (replaceAll name? ks cs) = replaceAll name? ks cs := by
  refine replaceAll_found (fun k hk => ?_) fun before k after split last =>
    find?_replaceAll split last cs
  obtain ⟨before, after, rfl⟩ := List.append_of_mem hk
  rw [replaceAll, List.foldl_append, List.foldl_cons]
  exact name_replaceAll (mem_replaceOrAppend_self k _)

theorem mem_addAll {k : Key} : k ∈ addAll ks cs ↔ k ∈ ks ∨ k ∈ cs := by
  induction ks generalizing cs with
  | nil => simp [addAll]
  | cons l ks ih =>
      show k ∈ addAll ks (addIfNew l cs) ↔ _
      rw [ih, mem_addIfNew, List.mem_cons]
      tauto

theorem addAll_again (ks cs : List Key) : addAll ks (addAll ks cs) = addAll ks cs := by
  have known : ∀ k ∈ ks, k ∈ addAll ks cs := fun k hk => mem_addAll.mpr (.inl hk)
  generalize addAll ks cs = all at known
  induction ks with
  | nil => rfl
  | cons k ks ih =>
      obtain ⟨first, rest⟩ := List.forall_mem_cons.mp known
      show addAll ks (addIfNew k all) = all
      rw [addIfNew, if_pos (List.contains_iff_mem.mpr first), ih rest]

/-- A file that takes the same entities once more is as it was. -/
theorem shared_again : shared (shared m v ks es) v ks es = shared m v ks es := by
  have both : shared (shared m v ks es) v ks es = (shared m v ks es).modify v fun ver => { ver with
      classes := replaceAll (className? m) ks ver.classes
      endpoints := replaceAll (endpointName? m) es ver.endpoints
      sharedClasses := addAll ks ver.sharedClasses
      sharedEndpoints := addAll es ver.sharedEndpoints } := by
    rw [shared, className?_shared, endpointName?_shared]
  rw [both, shared, Model.modify_modify]
  simp only [replaceAll_again, addAll_again]

end Again

section Own
variable {name? : Key → Option String} {k l : Key} {cs : List Key}

theorem names_replaceOrAppend (name? : Key → Option String) (k : Key) (cs : List Key) :
    (replaceOrAppend name? k cs).map name? =
      if name? k ∈ cs.map name? then cs.map name? else cs.map name? ++ [name? k] := by
  induction cs with
  | nil => simp [replaceOrAppend]
  | cons e cs ih =>
      rw [replaceOrAppend]
      by_cases here : name? e = name? k
      · rw [if_pos (beq_iff_eq.mpr here), List.map_cons, List.map_cons, here,
          if_pos List.mem_cons_self]
      · rw [if_neg (by simpa using here), List.map_cons, List.map_cons, ih]
        simp only [List.mem_cons, Ne.symm here, false_or]
        split <;> rfl

theorem nodup_replaceAll (ks : List Key) (once : (cs.map name?).Nodup) :
    ((replaceAll name? ks cs).map name?).Nodup := by
  induction ks generalizing cs with
  | nil => exact once
  | cons k ks ih =>
      refine ih ?_
      rw [names_replaceOrAppend]
      split
      · exact once
      · next new => exact List.nodup_append'.mpr ⟨once, List.nodup_singleton _, by simpa using new⟩

theorem mem_replaceOrAppend_iff (once : (cs.map name?).Nodup) :
    l ∈ replaceOrAppend name? k cs ↔ l = k ∨ l ∈ cs ∧ name? l ≠ name? k := by
  induction cs with
  | nil => simp [replaceOrAppend]
  | cons e cs ih =>
      obtain ⟨new, once⟩ := List.nodup_cons.mp once
      have apart : l ∈ cs → name? l ≠ name? e := fun member same =>
        new (List.mem_map.mpr ⟨l, member, same⟩)
      rw [replaceOrAppend]
      by_cases here : name? e = name? k
      · rw [if_pos (beq_iff_eq.mpr here), List.mem_cons, List.mem_cons]
        grind
      · rw [if_neg (by simpa using here), List.mem_cons, ih once, List.mem_cons]
        grind

/-- What was in the list stays if nothing of its name was put there. -/
theorem mem_replaceAll_of_new (once : (cs.map name?).Nodup) (new : k ∉ ks) :
    k ∈ replaceAll name? ks cs ↔ k ∈ cs ∧ ∀ l ∈ ks, name? l ≠ name? k := by
  induction ks generalizing cs with
  | nil => simp [replaceAll]
  | cons l ks ih =>
      rw [List.mem_cons, not_or] at new
      have kept : ((replaceOrAppend name? l cs).map name?).Nodup := nodup_replaceAll [l] once
      show k ∈ replaceAll name? ks (replaceOrAppend name? l cs) ↔ _
      rw [ih kept new.2, mem_replaceOrAppend_iff once, List.forall_mem_cons]
      simp only [new.1, false_or, and_assoc, ne_comm]

/-- The own classes of a file that has taken others. -/
theorem mem_ownClasses_shared {ver : Version} (known : m.version? v = some ver)
    (none : ver.sharedClasses = []) (once : (ver.classes.map (className? m)).Nodup) :
    k ∈ (shared m v ks es).ownClasses v ↔
      k ∈ ver.classes ∧ k ∉ ks ∧ ∀ l ∈ ks, className? m l ≠ className? m k := by
  have own : (shared m v ks es).ownClasses v = (replaceAll (className? m) ks ver.classes).filter
      fun k => !(addAll ks []).contains k := by
    rw [Model.ownClasses, shared, Model.version?_modify_self, known, ← none]
    rfl
  have taken : (addAll ks []).contains k = true ↔ k ∈ ks := by
    rw [List.contains_iff_mem, mem_addAll]
    simp
  rw [own, List.mem_filter, Bool.not_eq_true', ← Bool.not_eq_true, taken]
  by_cases new : k ∈ ks
  · simp [new]
  · simp [new, mem_replaceAll_of_new once new]

theorem nodup_ownClasses_shared {ver : Version} (known : m.version? v = some ver)
    (once : (ver.classes.map (className? m)).Nodup) (ks es : List Key) :
    ((shared m v ks es).ownClasses v).Nodup := by
  have own : (shared m v ks es).ownClasses v = (replaceAll (className? m) ks ver.classes).filter
      fun k => !(addAll ks ver.sharedClasses).contains k := by
    rw [Model.ownClasses, shared, Model.version?_modify_self, known]
    rfl
  rw [own]
  exact ((nodup_replaceAll ks once).of_map _).filter _

end Own

section Runs
variable {μ : Mirror} {s s' : Scope} {m' n' : Model}

/-- The files that a file uses offer the same in both runs, and none of them is the file itself. -/
structure SameOffers (s : Scope) (m m' : Model) : Prop where
  apart : ∀ {name d}, s.dependencies.get? name = some d → d ≠ s.self
  classes : ∀ {name d}, s.dependencies.get? name = some d → m'.classes d = m.classes d ∧
    ∀ k ∈ m.classes d, className? m' k = className? m k
  endpoints : ∀ {name d}, s.dependencies.get? name = some d → m'.endpoints d = m.endpoints d ∧
    ∀ k ∈ m.endpoints d, endpointName? m' k = endpointName? m k
  files : m'.fileName = m.fileName
  aliases : (m'.file? s.self).map (·.aliases) = (m.file? s.self).map (·.aliases)

/-- A class that a file used offers. -/
def Offered (s : Scope) (keys : VersionId → List Key) (k : Key) : Prop :=
  ∃ name d, s.dependencies.get? name = some d ∧ k ∈ keys d

/-- Both runs have taken the same classes and endpoints. -/
def Taken (s : Scope) (m m' n n' : Model) : Prop :=
  ∃ ks es, (∀ k ∈ ks, Offered s m.classes k) ∧ n = shared m s.self ks es ∧
    n' = shared m' s.self ks es

theorem shareListed_reflects (scopes : μ.Scopes s s') {J : Model → Model → Prop}
    (a : FileAlias) (missing : Finding) {offered offered' : Model → List Key}
    {name? : Model → Key → Option String} {share : Model → VersionId → Key → Model}
    (listed : List Reference)
    (found : ∀ n n', J n n' → ∀ name : String, ((offered' n').find? fun k => name? n' k == some name) =
      (offered n).find? fun k => name? n k == some name)
    (step : ∀ n n' k, J n n' → k ∈ offered n → J (share n s.self k) (share n' s.self k))
    (start : J n n') :
    μ.Reflects J (shareListed s a missing offered name? share listed n)
      (shareListed s' a missing offered' name? share listed n') := by
  unfold shareListed
  refine .foldlM start fun r _ n n' holds => ?_
  rw [found n n' holds r.name]
  cases taken : (offered n).find? fun k => name? n k == some r.name with
  | none =>
      refine (report_reflects scopes missing (μ.relinked (.fileAlias a)) r).bind ?_
      exact fun _ _ _ => .pure holds
  | some k =>
      rw [scopes.self]
      exact .pure (step n n' k holds (List.mem_of_find?_eq_some taken))

theorem find?_congr_names {ks : List Key} {name? name?' : Key → Option String}
    (same : ∀ k ∈ ks, name?' k = name? k) (name : String) :
    (ks.find? fun k => name?' k == some name) = ks.find? fun k => name? k == some name :=
  List.find?_congr fun k hk => by rw [same k hk]

theorem shareAlias_reflects (scopes : μ.Scopes s s') (offers : SameOffers s m m') (a : FileAlias)
    (taken : Taken s m m' n n') :
    μ.Reflects (Taken s m m') (shareAlias s n a) (shareAlias s' n' a) := by
  unfold shareAlias
  rw [scopes.dependencies]
  cases source : s.dependencies.get? a.file.name with
  | none =>
      refine (report_reflects scopes _ (μ.relinked (.fileAlias a)) a.file).bind ?_
      exact fun _ _ _ => .pure taken
  | some d =>
      have apart := offers.apart source
      have name : n'.fileName d = n.fileName d := by
        obtain ⟨ks, es, -, rfl, rfl⟩ := taken
        rw [fileName_shared, fileName_shared, offers.files]
      dsimp only
      rw [name]
      refine (markUsed_reflects _).bind fun _ _ _ => ?_
      refine (shareListed_reflects scopes a _ a.classes ?_ ?_ taken).bind fun n n' taken => ?_
      · rintro n n' ⟨ks, es, -, rfl, rfl⟩ name
        rw [Model.classes, Model.classes, version?_shared apart, version?_shared apart,
          className?_shared, className?_shared]
        obtain ⟨same, names⟩ := offers.classes source
        rw [← Model.classes, ← Model.classes, same]
        exact find?_congr_names names name
      · rintro n n' k ⟨ks, es, inside, rfl, rfl⟩ member
        rw [Model.classes, version?_shared apart, ← Model.classes] at member
        refine ⟨ks ++ [k], es, fun l hl => ?_, shareClass_shared k, shareClass_shared k⟩
        rcases List.mem_append.mp hl with before | here
        · exact inside l before
        · exact List.mem_singleton.mp here ▸ ⟨_, d, source, member⟩
      · refine shareListed_reflects scopes a _ a.endpoints ?_ ?_ taken
        · rintro n n' ⟨ks, es, -, rfl, rfl⟩ name
          rw [Model.endpoints, Model.endpoints, version?_shared apart, version?_shared apart,
            endpointName?_shared, endpointName?_shared]
          obtain ⟨same, names⟩ := offers.endpoints source
          rw [← Model.endpoints, ← Model.endpoints, same]
          exact find?_congr_names names name
        · rintro n n' e ⟨ks, es, inside, rfl, rfl⟩ -
          exact ⟨ks, es ++ [e], inside, shareEndpoint_shared e, shareEndpoint_shared e⟩

/-- The two runs take the same classes and endpoints of other files. -/
theorem shareAliases_reflects (scopes : μ.Scopes s s') (offers : SameOffers s m m') :
    μ.Reflects (Taken s m m') (shareAliases s m) (shareAliases s' m') := by
  unfold shareAliases
  rw [scopes.self, offers.aliases]
  refine .foldlM ⟨[], [], ?_, shared_nil.symm, shared_nil.symm⟩ ?_
  · exact fun k hk => absurd hk List.not_mem_nil
  · exact fun a _ n n' taken => shareAlias_reflects scopes offers a taken

end Runs
end DataModel.Resolution
