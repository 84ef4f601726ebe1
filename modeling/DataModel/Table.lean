/-!
Tables: pairs in the order in which their keys first came. Putting a value under a known key
keeps the key's place; erasing gives the place up.
-/
namespace DataModel

abbrev Table (α : Type) := List (String × α)

namespace Table
variable {α β : Type}

def get? (t : Table α) (key : String) : Option α := t.lookup key

def has (t : Table α) (key : String) : Bool := (t.get? key).isSome

def put : Table α → String → α → Table α
  | [], key, value => [(key, value)]
  | (k, v) :: rest, key, value =>
    if k = key then (key, value) :: rest else (k, v) :: put rest key value

def erase (t : Table α) (key : String) : Table α := t.filter fun p => p.1 != key

def keys (t : Table α) : List String := t.map (·.1)

def values (t : Table α) : List α := t.map (·.2)

/-- Later pairs win, first keys keep their place. -/
def ofList (pairs : List (String × α)) : Table α :=
  pairs.foldl (fun t p => t.put p.1 p.2) []

@[simp] theorem get?_nil (key : String) : get? ([] : Table α) key = none := rfl

theorem get?_cons (k : String) (v : α) (t : Table α) (key : String) :
    get? ((k, v) :: t) key = if key = k then some v else get? t key := by
  by_cases h : key = k
  · simp [get?, h]
  · simp [get?, List.lookup_cons, h, beq_false_of_ne h]

theorem get?_put (t : Table α) (k key : String) (v : α) :
    get? (t.put k v) key = if key = k then some v else get? t key := by
  induction t with
  | nil => rw [put, get?_cons]
  | cons p rest ih =>
    obtain ⟨k', v'⟩ := p
    rw [put]
    split
    · next h => subst h; rw [get?_cons, get?_cons]; split <;> rfl
    · next h =>
      rw [get?_cons, get?_cons, ih]
      split
      · next e => subst e; rw [if_neg h]
      · rfl

theorem get?_erase (t : Table α) (k key : String) :
    get? (t.erase k) key = if key = k then none else get? t key := by
  induction t with
  | nil => simp [erase]
  | cons p rest ih =>
    obtain ⟨k', v'⟩ := p
    rw [erase, List.filter_cons]
    by_cases h : k' = k
    · subst h
      simp only [bne_self_eq_false, Bool.false_eq_true, ↓reduceIte]
      rw [show rest.filter (fun p => p.1 != k') = Table.erase rest k' from rfl, ih, get?_cons]
      split <;> rfl
    · simp only [bne_iff_ne, ne_eq, h, not_false_eq_true, ↓reduceIte]
      rw [show rest.filter (fun p => p.1 != k) = Table.erase rest k from rfl, get?_cons, get?_cons,
        ih]
      split
      · next e => subst e; rw [if_neg h]
      · rfl

end Table
end DataModel
