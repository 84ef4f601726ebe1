import DataModel.Proofs.Model.Version

/-!
The names of associations. A name that has an end goes through different classes on its way to it,
so the number of classes is fuel enough: more fuel gives no other name, and a name found with any
fuel is found with that much.
-/
namespace DataModel.Model
variable {m : Model}

/-- The name of an association is known by itself, or from the key of its class. -/
theorem associationName?_cases (m : Model) (a : Association) :
    (∃ name, ∀ fuel, m.associationName? (fuel + 1) a = some name) ∨
    ∃ k c key, a.target = some k ∧ m.class? k = some c ∧ c.primaryKeys = [.association key] ∧
      ∀ fuel, m.associationName? (fuel + 1) a =
        (m.associationName? fuel key).map fun name => c.name ++ name ++ a.role.getD "" := by
  simp only [associationName?]
  cases a.givenName with
  | some name => exact .inl ⟨name, fun fuel => rfl⟩
  | none =>
      cases bound : a.target with
      | none => exact .inl ⟨_, fun fuel => rfl⟩
      | some k =>
          cases found : m.class? k with
          | none =>
              simp only [Option.bind_some, found, Option.map_none]
              exact .inl ⟨_, fun fuel => rfl⟩
          | some c =>
              simp only [Option.bind_some, found, Option.map_some]
              rcases keys : c.primaryKeys with _ | ⟨p, _ | ⟨q, rest⟩⟩
              · exact .inl ⟨_, fun fuel => rfl⟩
              · cases p with
                | regular p => exact .inl ⟨_, fun fuel => rfl⟩
                | association key => exact .inr ⟨k, c, key, rfl, found, keys, fun fuel => rfl⟩
                | composition p => exact .inl ⟨_, fun fuel => rfl⟩
                | «alias» p => exact .inl ⟨_, fun fuel => rfl⟩
              · exact .inl ⟨_, fun fuel => by cases p <;> rfl⟩

theorem associationName?_succ {fuel : Nat} {a : Association} {name : String}
    (h : m.associationName? fuel a = some name) : m.associationName? (fuel + 1) a = some name := by
  induction fuel generalizing a name with
  | zero => cases h
  | succ fuel ih =>
      rcases m.associationName?_cases a with ⟨name', known⟩ | ⟨k, c, key, -, -, -, follows⟩
      · rw [known] at h ⊢
        exact h
      · rw [follows, Option.map_eq_some_iff] at h
        obtain ⟨keyName, found, rfl⟩ := h
        rw [follows, ih found, Option.map_some]

theorem associationName?_mono {fuel fuel' : Nat} {a : Association} {name : String}
    (h : m.associationName? fuel a = some name) (le : fuel ≤ fuel') :
    m.associationName? fuel' a = some name := by
  induction le with
  | refl => exact h
  | step _ ih => exact associationName?_succ ih

/-- The name of an association ends behind so many classes. -/
def EndsBehind (m : Model) (n : Nat) (a : Association) : Prop :=
  (m.associationName? (n + 1) a).isSome ∧ m.associationName? n a = none

theorem EndsBehind.le {n n' : Nat} {a : Association} (h : m.EndsBehind n a)
    (h' : m.EndsBehind n' a) : n ≤ n' := by
  rcases Nat.lt_or_ge n' n with less | le
  · obtain ⟨name, found⟩ := Option.isSome_iff_exists.mp h'.1
    have known := associationName?_mono found (Nat.succ_le_of_lt less)
    rw [h.2] at known
    cases known
  · exact le

theorem exists_endsBehind {fuel : Nat} {a : Association} {name : String}
    (h : m.associationName? fuel a = some name) : ∃ n, n < fuel ∧ m.EndsBehind n a := by
  induction fuel with
  | zero => cases h
  | succ fuel ih =>
      cases earlier : m.associationName? fuel a with
      | none => exact ⟨fuel, Nat.lt_succ_self _, by rw [h]; rfl, earlier⟩
      | some name' =>
          have same := associationName?_succ earlier
          rw [h, Option.some.injEq] at same
          obtain ⟨n, less, ends⟩ := ih (earlier.trans (congrArg some same.symm))
          exact ⟨n, Nat.lt_succ_of_lt less, ends⟩

/-- The classes that a name goes through are all different: from each on, the rest of the way is
shorter. -/
theorem EndsBehind.chain {n : Nat} {a : Association} (h : m.EndsBehind n a) :
    ∃ ks : List Key, ks.length = n ∧ ks.Nodup ∧ ∀ k ∈ ks, ∃ c key n',
      m.class? k = some c ∧ c.primaryKeys = [.association key] ∧ n' < n ∧
      m.EndsBehind n' key := by
  induction n generalizing a with
  | zero => exact ⟨[], rfl, List.nodup_nil, fun k hk => absurd hk List.not_mem_nil⟩
  | succ n ih =>
      obtain ⟨found, open'⟩ := h
      rcases m.associationName?_cases a with ⟨name, known⟩ | ⟨k, c, key, -, hk, only, follows⟩
      · rw [known] at open'
        cases open'
      · rw [follows, Option.isSome_map] at found
        rw [follows, Option.map_eq_none_iff] at open'
        obtain ⟨ks, length, once, way⟩ := ih ⟨found, open'⟩
        refine ⟨k :: ks, congrArg (· + 1) length, List.nodup_cons.mpr ⟨?_, once⟩, ?_⟩
        · intro again
          obtain ⟨c', key', n', hk', only', less, ends⟩ := way k again
          rw [hk, Option.some.injEq] at hk'
          rw [← hk', only, List.cons.injEq, Property.association.injEq] at only'
          rw [← only'.1] at ends
          have short := EndsBehind.le ⟨found, open'⟩ ends
          omega
        · intro l hl
          rcases List.mem_cons.mp hl with rfl | later
          · exact ⟨c, key, n, hk, only, Nat.lt_succ_self n, found, open'⟩
          · obtain ⟨c', key', n', hk', only', less, ends⟩ := way l later
            exact ⟨c', key', n', hk', only', Nat.lt_succ_of_lt less, ends⟩

/-- The number of classes is fuel enough for every name that has an end. -/
theorem associationName?_enough {fuel : Nat} {a : Association} {name : String}
    (h : m.associationName? fuel a = some name) :
    m.associationName? (m.classCount + 1) a = some name := by
  obtain ⟨n, less, ends⟩ := exists_endsBehind h
  obtain ⟨ks, length, once, way⟩ := ends.chain
  have fits : ks.length ≤ m.classCount := by
    refine length_le_classCount once fun k hk => ?_
    obtain ⟨c, -, -, found, -⟩ := way k hk
    rw [found]
    rfl
  obtain ⟨name', found⟩ := Option.isSome_iff_exists.mp ends.1
  have same := associationName?_mono found (Nat.succ_le_of_lt less)
  rw [h] at same
  rw [same]
  exact associationName?_mono found (by omega)

theorem associationName?_eq_some_iff {a : Association} {name : String} :
    m.associationName? (m.classCount + 1) a = some name ↔
      ∃ fuel, m.associationName? fuel a = some name :=
  ⟨fun h => ⟨_, h⟩, fun ⟨_, h⟩ => associationName?_enough h⟩

end DataModel.Model
