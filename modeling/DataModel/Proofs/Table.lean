import Mathlib.Data.List.Nodup
import Mathlib.Data.List.Perm.Basic
import DataModel.Table

/-!
Tables as partial maps with an order. Two tables without repeated keys are equal as soon as their
keys come in the same order and the same values stand under them.
-/
namespace DataModel.Table
variable {α β : Type}

@[simp] theorem keys_nil : keys ([] : Table α) = [] := rfl

@[simp] theorem keys_cons (p : String × α) (t : Table α) : keys (p :: t) = p.1 :: keys t := rfl

@[simp] theorem values_nil : values ([] : Table α) = [] := rfl

@[simp] theorem values_cons (p : String × α) (t : Table α) : values (p :: t) = p.2 :: values t :=
  rfl

theorem mem_of_get? {t : Table α} {k : String} {v : α} (h : t.get? k = some v) : (k, v) ∈ t := by
  induction t with
  | nil => cases h
  | cons p rest ih =>
      obtain ⟨k', v'⟩ := p
      rw [get?_cons] at h
      by_cases same : k = k'
      · rw [if_pos same] at h
        cases h
        exact same ▸ List.mem_cons_self
      · rw [if_neg same] at h
        exact List.mem_cons_of_mem _ (ih h)

theorem mem_keys_of_mem {t : Table α} {k : String} {v : α} (h : (k, v) ∈ t) : k ∈ t.keys :=
  List.mem_map.mpr ⟨(k, v), h, rfl⟩

theorem mem_values_of_mem {t : Table α} {k : String} {v : α} (h : (k, v) ∈ t) : v ∈ t.values :=
  List.mem_map.mpr ⟨(k, v), h, rfl⟩

theorem get?_of_mem {t : Table α} (once : t.keys.Nodup) {k : String} {v : α} (h : (k, v) ∈ t) :
    t.get? k = some v := by
  induction t with
  | nil => cases h
  | cons p rest ih =>
      obtain ⟨k', v'⟩ := p
      rw [keys_cons, List.nodup_cons] at once
      rw [get?_cons]
      rcases List.mem_cons.mp h with same | later
      · cases same
        exact if_pos rfl
      · have other : k ≠ k' := fun e => once.1 (e ▸ mem_keys_of_mem later)
        rw [if_neg other]
        exact ih once.2 later

theorem get?_eq_none_iff {t : Table α} {k : String} : t.get? k = none ↔ k ∉ t.keys := by
  induction t with
  | nil => simp
  | cons p rest ih =>
      obtain ⟨k', v'⟩ := p
      rw [get?_cons, keys_cons, List.mem_cons, not_or]
      by_cases same : k = k'
      · simp [same]
      · simp [same, ih]

theorem has_iff {t : Table α} {k : String} : t.has k = true ↔ k ∈ t.keys := by
  rw [has, Option.isSome_iff_ne_none, ne_eq, get?_eq_none_iff, not_not]

theorem exists_get? {t : Table α} {k : String} (h : k ∈ t.keys) : ∃ v, t.get? k = some v := by
  rw [← has_iff] at h
  exact Option.isSome_iff_exists.mp h

theorem mem_keys_of_get? {t : Table α} {k : String} {v : α} (h : t.get? k = some v) :
    k ∈ t.keys := mem_keys_of_mem (mem_of_get? h)

theorem mem_values_iff {t : Table α} (once : t.keys.Nodup) {v : α} :
    v ∈ t.values ↔ ∃ k, t.get? k = some v := by
  constructor
  · intro h
    obtain ⟨⟨k, _⟩, member, rfl⟩ := List.mem_map.mp h
    exact ⟨k, get?_of_mem once member⟩
  · rintro ⟨k, h⟩
    exact mem_values_of_mem (mem_of_get? h)

theorem filterMap_get?_keys {t : Table α} (once : t.keys.Nodup) :
    t.keys.filterMap t.get? = t.values := by
  rw [keys, List.filterMap_map, values, ← List.filterMap_eq_map]
  exact List.filterMap_congr fun p member => get?_of_mem once member

/-- A table is told by the order of its keys and by what stands under them. -/
theorem ext {t t' : Table α} (once : t.keys.Nodup) (same : t.keys = t'.keys)
    (h : ∀ k ∈ t.keys, t.get? k = t'.get? k) : t = t' := by
  induction t generalizing t' with
  | nil =>
      cases t' with
      | nil => rfl
      | cons p rest => cases same
  | cons p rest ih =>
      cases t' with
      | nil => cases same
      | cons p' rest' =>
          obtain ⟨k, v⟩ := p
          obtain ⟨k', v'⟩ := p'
          simp only [keys_cons, List.cons.injEq] at same
          obtain ⟨rfl, same⟩ := same
          rw [keys_cons, List.nodup_cons] at once
          have first := h k List.mem_cons_self
          rw [get?_cons, get?_cons, if_pos rfl, if_pos rfl, Option.some.injEq] at first
          rw [first, ih once.2 same]
          intro l hl
          have other : l ≠ k := fun e => once.1 (e ▸ hl)
          have next := h l (List.mem_cons_of_mem _ hl)
          rwa [get?_cons, get?_cons, if_neg other, if_neg other] at next

section Put

theorem keys_put (t : Table α) (k : String) (v : α) :
    (t.put k v).keys = if k ∈ t.keys then t.keys else t.keys ++ [k] := by
  induction t with
  | nil => simp [put]
  | cons p rest ih =>
      obtain ⟨k', v'⟩ := p
      rw [put]
      by_cases same : k' = k
      · simp [same]
      · rw [if_neg same, keys_cons, keys_cons, ih]
        have other : ¬ k = k' := fun e => same e.symm
        by_cases known : k ∈ keys rest
        · simp [known]
        · simp [known, other]

theorem keys_put_of_mem {t : Table α} {k : String} {v : α} (h : k ∈ t.keys) :
    (t.put k v).keys = t.keys := by rw [keys_put, if_pos h]

theorem put_of_not_mem {t : Table α} {k : String} {v : α} (h : k ∉ t.keys) :
    t.put k v = t ++ [(k, v)] := by
  induction t with
  | nil => rfl
  | cons p rest ih =>
      obtain ⟨l, w⟩ := p
      rw [keys_cons, List.mem_cons, not_or] at h
      rw [put, if_neg (Ne.symm h.1), ih h.2, List.cons_append]

theorem mem_keys_put {t : Table α} {k l : String} {v : α} :
    l ∈ (t.put k v).keys ↔ l = k ∨ l ∈ t.keys := by
  rw [keys_put]
  by_cases known : k ∈ t.keys
  · rw [if_pos known]
    exact ⟨Or.inr, fun h => h.elim (fun e => e ▸ known) id⟩
  · rw [if_neg known, List.mem_append, List.mem_singleton, or_comm]

theorem nodup_put {t : Table α} {k : String} {v : α} (once : t.keys.Nodup) :
    (t.put k v).keys.Nodup := by
  rw [keys_put]
  by_cases known : k ∈ t.keys
  · rwa [if_pos known]
  · rw [if_neg known]
    refine List.Nodup.append once (List.nodup_singleton k) ?_
    simpa using known

theorem mem_put {t : Table α} {k l : String} {v w : α} (h : (l, w) ∈ t.put k v) :
    (l = k ∧ w = v) ∨ (l, w) ∈ t := by
  induction t with
  | nil =>
      rw [put, List.mem_singleton] at h
      cases h
      exact .inl ⟨rfl, rfl⟩
  | cons p rest ih =>
      obtain ⟨k', v'⟩ := p
      rw [put] at h
      by_cases same : k' = k
      · rw [if_pos same] at h
        rcases List.mem_cons.mp h with here | later
        · cases here
          exact .inl ⟨rfl, rfl⟩
        · exact .inr (List.mem_cons_of_mem _ later)
      · rw [if_neg same] at h
        rcases List.mem_cons.mp h with here | later
        · exact .inr (here ▸ List.mem_cons_self)
        · exact (ih later).imp_right (List.mem_cons_of_mem _)

theorem filter_put {inside : String → Bool} {k : String} {v : α} (within : inside k = true)
    (t : Table α) :
    (t.put k v).filter (fun p => !inside p.1) = t.filter fun p => !inside p.1 := by
  induction t with
  | nil => simp [put, within]
  | cons p rest ih =>
      obtain ⟨l, w⟩ := p
      rw [put]
      by_cases same : l = k
      · simp [same, within]
      · rw [if_neg same, List.filter_cons, List.filter_cons, ih]

end Put

section Erase

theorem keys_erase (t : Table α) (k : String) : (t.erase k).keys = t.keys.filter (· != k) := by
  rw [erase, keys, keys, List.filter_map]
  rfl

theorem mem_keys_erase {t : Table α} {k l : String} :
    l ∈ (t.erase k).keys ↔ l ≠ k ∧ l ∈ t.keys := by
  rw [keys_erase, List.mem_filter, and_comm, bne_iff_ne]

theorem nodup_erase {t : Table α} {k : String} (once : t.keys.Nodup) : (t.erase k).keys.Nodup := by
  rw [keys_erase]
  exact once.filter _

theorem filter_erase {inside : String → Bool} {k : String} (within : inside k = true)
    (t : Table α) :
    (t.erase k).filter (fun p => !inside p.1) = t.filter fun p => !inside p.1 := by
  rw [erase, List.filter_filter]
  refine List.filter_congr fun p _ => ?_
  by_cases same : p.1 = k
  · simp [same, within]
  · simp [same]

end Erase

section Filter

theorem get?_filter (q : String → Bool) (t : Table α) (k : String) :
    Table.get? (t.filter fun p => q p.1) k = if q k then t.get? k else none := by
  induction t with
  | nil => simp
  | cons p rest ih =>
      obtain ⟨l, v⟩ := p
      rw [List.filter_cons]
      by_cases same : k = l
      · subst same
        by_cases inside : q k = true
        · simp [inside, get?_cons]
        · simp [inside, ih]
      · by_cases inside : q l = true
        · simp [inside, get?_cons, same, ih]
        · simp [inside, get?_cons, same, ih]

/-- Tables of the same keys that agree about some of them are the same there. -/
theorem filter_eq {q : String → Bool} {t t' : Table α} (once : t.keys.Nodup)
    (keys : t.keys = t'.keys) (h : ∀ k ∈ t.keys, q k = true → t.get? k = t'.get? k) :
    t.filter (fun p => q p.1) = t'.filter fun p => q p.1 := by
  have filtered : ∀ t : Table α, Table.keys (t.filter fun p => q p.1) = t.keys.filter q := by
    intro t
    rw [Table.keys, Table.keys, List.filter_map]
    rfl
  refine ext ?_ ?_ fun k hk => ?_
  · rw [filtered]
    exact once.filter _
  · rw [filtered, filtered, keys]
  · rw [filtered, List.mem_filter] at hk
    rw [get?_filter, get?_filter, if_pos hk.2, if_pos hk.2]
    exact h k hk.1 hk.2

end Filter

section MapValues

/-- The same keys with other values under them. -/
def mapValues (f : α → β) (t : Table α) : Table β := t.map fun p => (p.1, f p.2)

@[simp] theorem mapValues_nil (f : α → β) : mapValues f ([] : Table α) = [] := rfl

@[simp] theorem mapValues_cons (f : α → β) (p : String × α) (t : Table α) :
    mapValues f (p :: t) = (p.1, f p.2) :: mapValues f t := rfl

@[simp] theorem get?_mapValues (f : α → β) (t : Table α) (k : String) :
    (mapValues f t).get? k = (t.get? k).map f := by
  induction t with
  | nil => rfl
  | cons p rest ih =>
      obtain ⟨k', v'⟩ := p
      rw [mapValues_cons, get?_cons, get?_cons, ih]
      split <;> rfl

@[simp] theorem keys_mapValues (f : α → β) (t : Table α) : (mapValues f t).keys = t.keys := by
  rw [keys, keys, mapValues, List.map_map]
  rfl

theorem values_mapValues (f : α → β) (t : Table α) : (mapValues f t).values = t.values.map f := by
  rw [values, values, mapValues, List.map_map, List.map_map]
  rfl

theorem put_mapValues (f : α → β) (t : Table α) (k : String) (v : α) :
    (mapValues f t).put k (f v) = mapValues f (t.put k v) := by
  induction t with
  | nil => rfl
  | cons p rest ih =>
      obtain ⟨k', v'⟩ := p
      rw [mapValues_cons, put, put]
      split
      · rfl
      · rw [mapValues_cons, ih]

theorem has_mapValues (f : α → β) (t : Table α) (k : String) :
    (mapValues f t).has k = t.has k := by
  rw [has, has, get?_mapValues, Option.isSome_map]

end MapValues

section OfList

theorem foldl_put_mapValues (f : α → β) (pairs : List (String × α)) (t : Table α) :
    (pairs.map fun p => (p.1, f p.2)).foldl (fun t p => t.put p.1 p.2) (mapValues f t) =
      mapValues f (pairs.foldl (fun t p => t.put p.1 p.2) t) := by
  induction pairs generalizing t with
  | nil => rfl
  | cons p rest ih =>
      rw [List.map_cons, List.foldl_cons, List.foldl_cons, put_mapValues, ih]

theorem ofList_mapValues (f : α → β) (pairs : List (String × α)) :
    ofList (pairs.map fun p => (p.1, f p.2)) = mapValues f (ofList pairs) :=
  foldl_put_mapValues f pairs []

theorem get?_foldl_put (pairs : List (String × α)) (t : Table α) (k : String) :
    (pairs.foldl (fun t p => t.put p.1 p.2) t).get? k = ((ofList pairs).get? k).or (t.get? k) := by
  induction pairs generalizing t with
  | nil => rfl
  | cons p rest ih =>
      rw [ofList, List.foldl_cons, List.foldl_cons, ih, ih, get?_put, get?_put, Option.or_assoc]
      split
      · rfl
      · rfl

/-- Of two lists of pairs the later one counts. -/
theorem get?_ofList_append (pairs more : List (String × α)) (k : String) :
    (ofList (pairs ++ more)).get? k = ((ofList more).get? k).or ((ofList pairs).get? k) := by
  rw [ofList, List.foldl_append, get?_foldl_put]
  rfl

/-- A table of pairs from several places takes a key from the last place that has it. -/
theorem get?_ofList_flatMap (entries : β → List (String × α)) (xs : List β) (k : String) :
    (ofList (xs.flatMap entries)).get? k =
      xs.reverse.findSome? fun x => (ofList (entries x)).get? k := by
  induction xs with
  | nil => rfl
  | cons x xs ih =>
      rw [List.flatMap_cons, get?_ofList_append, ih, List.reverse_cons, List.findSome?_append]
      congr 1
      rw [List.findSome?_singleton]

theorem get?_ofList_single (key : String) (value : α) (k : String) :
    (ofList [(key, value)]).get? k = if key = k then some value else none := by
  rw [ofList, List.foldl_cons, List.foldl_nil, put, get?_cons, get?_nil]
  simp only [eq_comm]

/-- The last pair of a key counts. -/
theorem get?_ofList_map (key : β → String) (value : β → α) (xs : List β) (k : String) :
    (ofList (xs.map fun x => (key x, value x))).get? k =
      (xs.reverse.find? (key · == k)).map value := by
  induction xs with
  | nil => rfl
  | cons x xs ih =>
      rw [List.map_cons, ← List.singleton_append, get?_ofList_append, ih, get?_ofList_single,
        List.reverse_cons, List.find?_append, Option.map_or]
      congr 1
      by_cases same : key x = k <;> simp [same]

theorem mem_foldl_put {pairs : List (String × α)} {t : Table α} {k : String} {v : α}
    (h : (k, v) ∈ pairs.foldl (fun t p => t.put p.1 p.2) t) : (k, v) ∈ pairs ∨ (k, v) ∈ t := by
  induction pairs generalizing t with
  | nil => exact .inr h
  | cons p rest ih =>
      rcases ih h with later | before
      · exact .inl (List.mem_cons_of_mem _ later)
      · rcases mem_put before with ⟨rfl, rfl⟩ | old
        · exact .inl List.mem_cons_self
        · exact .inr old

theorem mem_ofList {pairs : List (String × α)} {k : String} {v : α}
    (h : (k, v) ∈ ofList pairs) : (k, v) ∈ pairs :=
  (mem_foldl_put h).resolve_right List.not_mem_nil

theorem mem_of_get?_ofList {pairs : List (String × α)} {k : String} {v : α}
    (h : (ofList pairs).get? k = some v) : (k, v) ∈ pairs := mem_ofList (mem_of_get? h)

/-- Entries that do not count can go, wherever they come from. -/
theorem get?_ofList_filter {keep : β → Bool} {entries : β → List (String × α)} (lost : α → Prop)
    (gone : ∀ x, keep x = false → ∀ p ∈ entries x, lost p.2) {xs : List β}
    {more : List (String × α)} {k : String}
    (counts : ∀ v, (ofList (xs.flatMap entries ++ more)).get? k = some v → ¬ lost v) :
    (ofList ((xs.filter keep).flatMap entries ++ more)).get? k =
      (ofList (xs.flatMap entries ++ more)).get? k := by
  induction xs with
  | nil => rfl
  | cons x xs ih =>
      rw [List.flatMap_cons, List.append_assoc, get?_ofList_append] at counts
      have rest := ih fun v later => counts v (by rw [later]; rfl)
      rw [List.filter_cons, List.flatMap_cons, List.append_assoc, get?_ofList_append (entries x)]
      cases kept : keep x with
      | true =>
          rw [if_pos rfl, List.flatMap_cons, List.append_assoc, get?_ofList_append (entries x), rest]
      | false =>
          rw [if_neg Bool.false_ne_true, rest]
          cases later : (ofList (xs.flatMap entries ++ more)).get? k with
          | some v => rfl
          | none =>
              cases here : (ofList (entries x)).get? k with
              | none => rfl
              | some v =>
                  refine absurd (gone x kept _ (mem_of_get?_ofList here)) (counts v ?_)
                  rw [later, here]
                  rfl

theorem mem_keys_foldl_put {pairs : List (String × α)} {t : Table α} {k : String} :
    k ∈ (pairs.foldl (fun t p => t.put p.1 p.2) t).keys ↔
      k ∈ pairs.map Prod.fst ∨ k ∈ t.keys := by
  induction pairs generalizing t with
  | nil => simp
  | cons p rest ih =>
      rw [List.foldl_cons, ih, mem_keys_put, List.map_cons, List.mem_cons]
      tauto

theorem mem_keys_ofList {pairs : List (String × α)} {k : String} :
    k ∈ (ofList pairs).keys ↔ k ∈ pairs.map Prod.fst := by
  rw [ofList, mem_keys_foldl_put, keys_nil]
  simp

end OfList

section Update

/-- A key gets a value or goes. -/
def change (t : Table α) (p : String × Option α) : Table α :=
  match p.2 with
  | none => t.erase p.1
  | some v => t.put p.1 v

/-- A table with a list of changes made. -/
def update (t : Table α) (changes : Table (Option α)) : Table α := changes.foldl change t

theorem get?_change (t : Table α) (k l : String) (c : Option α) :
    (t.change (k, c)).get? l = if l = k then c else t.get? l := by
  cases c with
  | none => exact get?_erase t k l
  | some v => exact get?_put t k l v

/-- Under a key stands what it was changed to, or else what stood there. -/
theorem get?_update {changes : Table (Option α)} (once : changes.keys.Nodup) (t : Table α)
    (k : String) : (t.update changes).get? k = (changes.get? k).getD (t.get? k) := by
  induction changes generalizing t with
  | nil => rfl
  | cons p rest ih =>
      obtain ⟨l, c⟩ := p
      rw [keys_cons, List.nodup_cons] at once
      rw [update, List.foldl_cons, ← update, ih once.2, get?_change, get?_cons]
      by_cases same : k = l
      · subst same
        rw [if_pos rfl, if_pos rfl, get?_eq_none_iff.mpr once.1]
        rfl
      · rw [if_neg same, if_neg same]

/-- Under a key that is not changed stands what stood there. -/
theorem get?_update_of_not_mem {changes : Table (Option α)} {k : String} (free : k ∉ changes.keys)
    (t : Table α) : (t.update changes).get? k = t.get? k := by
  induction changes generalizing t with
  | nil => rfl
  | cons p rest ih =>
      obtain ⟨l, c⟩ := p
      rw [keys_cons, List.mem_cons, not_or] at free
      rw [update, List.foldl_cons, ← update, ih free.2, get?_change, if_neg free.1]

theorem nodup_update {changes : Table (Option α)} {t : Table α} (once : t.keys.Nodup) :
    (t.update changes).keys.Nodup := by
  induction changes generalizing t with
  | nil => exact once
  | cons p rest ih =>
      obtain ⟨k, c⟩ := p
      refine ih ?_
      cases c with
      | none => exact nodup_erase once
      | some v => exact nodup_put once

theorem mem_update {changes : Table (Option α)} {t : Table α} {k : String} {v : α}
    (h : (k, v) ∈ t.update changes) : (k, some v) ∈ changes ∨ (k, v) ∈ t := by
  induction changes generalizing t with
  | nil => exact .inr h
  | cons p rest ih =>
      obtain ⟨l, c⟩ := p
      rcases ih h with later | before
      · exact .inl (List.mem_cons_of_mem _ later)
      · cases c with
        | none => exact .inr (List.mem_of_mem_filter before)
        | some w =>
            rcases mem_put before with ⟨rfl, rfl⟩ | old
            · exact .inl List.mem_cons_self
            · exact .inr old

/-- A key that is not taken away stays. -/
theorem mem_keys_update {changes : Table (Option α)} {t : Table α} {k : String} (there : k ∈ t.keys)
    (stays : (k, none) ∉ changes) : k ∈ (t.update changes).keys := by
  induction changes generalizing t with
  | nil => exact there
  | cons p rest ih =>
      obtain ⟨l, c⟩ := p
      rw [List.mem_cons, not_or] at stays
      refine ih ?_ stays.2
      cases c with
      | none =>
          have other : k ≠ l := fun same => stays.1 (same ▸ rfl)
          exact mem_keys_erase.mpr ⟨other, there⟩
      | some v => exact mem_keys_put.mpr (.inr there)

theorem update_append (t : Table α) (changes changes' : Table (Option α)) :
    t.update (changes ++ changes') = (t.update changes).update changes' := List.foldl_append

/-- Whether a key goes. -/
def removes (changes : Table (Option α)) (k : String) : Bool := (changes.get? k).any (·.isNone)

theorem keys_change (t : Table α) (k : String) (c : Option α) :
    (t.change (k, c)).keys = t.keys.filter (fun l => !(l == k && c.isNone)) ++
      [k].filter fun l => !t.keys.contains l && c.isSome := by
  cases c with
  | none => simpa [change, bne] using keys_erase t k
  | some v =>
      rw [change, keys_put]
      by_cases known : k ∈ t.keys
      · simp [known]
      · simp [known]

/-- A key keeps its place if it is not removed, and new keys come behind in the order of the
changes. -/
theorem keys_update {changes : Table (Option α)} (once : changes.keys.Nodup) (t : Table α) :
    (t.update changes).keys = t.keys.filter (fun k => !removes changes k) ++
      changes.keys.filter fun k => !t.keys.contains k && !removes changes k := by
  induction changes generalizing t with
  | nil => simp [update, removes]
  | cons p rest ih =>
      obtain ⟨l, c⟩ := p
      rw [keys_cons, List.nodup_cons] at once
      have gone : removes rest l = false := by
        rw [removes, get?_eq_none_iff.mpr once.1]
        rfl
      have first : ∀ k, removes ((l, c) :: rest) k = (k == l && c.isNone || removes rest k) := by
        intro k
        rw [removes, get?_cons]
        by_cases same : k = l
        · subst same
          simp [gone]
        · simp [same, removes]
      have tail : (keys rest).filter (fun k => !(t.change (l, c)).keys.contains k &&
            !removes rest k) =
          (keys rest).filter fun k => !t.keys.contains k && !removes ((l, c) :: rest) k := by
        refine List.filter_congr fun k hk => ?_
        have other : k ≠ l := fun e => once.1 (e ▸ hk)
        have apart : (k == l) = false := beq_false_of_ne other
        rw [first, keys_change, apart]
        simp [other]
      rw [update, List.foldl_cons, ← update, ih once.2, tail, keys_change, List.filter_append,
        List.filter_filter, List.append_assoc, keys_cons]
      congr 1
      · refine List.filter_congr fun k _ => ?_
        rw [first, Bool.not_or, Bool.and_comm]
      · simp only [List.filter_cons, List.filter_nil, first l, gone]
        cases c with
        | none => simp
        | some v =>
            by_cases known : l ∈ t.keys
            · simp [known]
            · simp [known, gone]

/-- Changes of some keys leave the others alone. -/
theorem filter_update {changes : Table (Option α)} {inside : String → Bool}
    (h : ∀ k ∈ changes.keys, inside k = true) (t : Table α) :
    (t.update changes).filter (fun p => !inside p.1) = t.filter fun p => !inside p.1 := by
  induction changes generalizing t with
  | nil => rfl
  | cons p rest ih =>
      obtain ⟨k, c⟩ := p
      rw [update, List.foldl_cons, ← update, ih fun l hl => h l (List.mem_cons_of_mem _ hl)]
      have within := h k List.mem_cons_self
      cases c with
      | none => exact filter_erase within t
      | some v => exact filter_put within t

/-- Putting new keys at the end of a table. -/
theorem update_new {t more : Table α} (once : (t ++ more).keys.Nodup) :
    t.update (mapValues some more) = t ++ more := by
  induction more generalizing t with
  | nil => exact (List.append_nil t).symm
  | cons p rest ih =>
      obtain ⟨k, v⟩ := p
      have new : k ∉ t.keys := by
        rw [keys, List.map_append, List.nodup_append'] at once
        exact fun member => once.2.2 member List.mem_cons_self
      have put : t.put k v = t ++ [(k, v)] := put_of_not_mem new
      rw [List.append_cons] at once ⊢
      rw [← ih once, ← put]
      rfl

end Update

end DataModel.Table
