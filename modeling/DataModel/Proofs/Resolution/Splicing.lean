import DataModel.Proofs.Resolution.Spreading

/-!
Placeholders replaced by hand, one after the other. Whichever of a list's placeholders get copies,
and in whatever order, the copies of each stand where it stood, so that collapsing gives the list
back.
-/
namespace DataModel.Resolution
variable {ps qs : List Property} {made : Placeholder → Option (List Property)}
  {turns : List (Placeholder × List Property)}

/-- Copies of fields that a placeholder made, at least one. -/
def Replaces (a : Placeholder) (new : List Property) : Prop :=
  new ≠ [] ∧ ∀ c ∈ new, ∃ name location p, p.isField = true ∧ c = copyField a name location p

/-- Puts copies in the places of placeholders, one turn after the other. -/
def splices (turns : List (Placeholder × List Property)) (ps : List Property) : List Property :=
  turns.foldl (fun ps t => splice t.1 t.2 ps) ps

/-- The same at a site of a model. -/
def Site.puts (site : Site) (turns : List (Placeholder × List Property)) (m : Model) : Model :=
  turns.foldl (fun m t => site.put m t.1 t.2) m

theorem list?_puts (site : Site) (turns : List (Placeholder × List Property)) (m : Model) :
    site.list? (site.puts turns m) = (site.list? m).map (splices turns) := by
  induction turns generalizing m with
  | nil => exact Option.map_id'.symm
  | cons t turns ih =>
      have rest := ih (site.put m t.1 t.2)
      rw [list?_put_self, Option.map_map] at rest
      exact rest

theorem Replaces.copyOf {a : Placeholder} {new : List Property} (h : Replaces a new) :
    ∀ c ∈ new, CopyOf a c := by
  intro c member
  obtain ⟨name, location, p, field, rfl⟩ := h.2 c member
  exact copyField_copyOf a name location field

/-- One turn after the other keeps a list spread, and no placeholder gets no copy at all. -/
theorem Spreads.splices (spreads : Spreads made ps qs) (copied : ∀ a, made a ≠ some [])
    (once : (ps.filterMap Property.alias?).Nodup) (apart : (turns.map Prod.fst).Nodup)
    (waiting : ∀ t ∈ turns, .alias t.1 ∈ ps ∧ made t.1 = none ∧ Replaces t.1 t.2) :
    ∃ made', Spreads made' ps (splices turns qs) ∧ ∀ a, made' a ≠ some [] := by
  induction turns generalizing made qs with
  | nil => exact ⟨made, spreads, copied⟩
  | cons t turns ih =>
      obtain ⟨a, new⟩ := t
      rw [List.map_cons, List.nodup_cons] at apart
      obtain ⟨⟨there, unmade, replaces⟩, later⟩ := List.forall_mem_cons.mp waiting
      have member : a ∈ ps.filterMap Property.alias? := List.mem_filterMap.mpr ⟨_, there, rfl⟩
      refine ih (spreads.update once member unmade replaces.copyOf) (fun b => ?_) apart.2 ?_
      · by_cases here : b = a
        · rw [here, Function.update_self]
          exact fun none => replaces.1 (Option.some.inj none)
        · rw [Function.update_of_ne here]
          exact copied b
      · intro t inside
        obtain ⟨there', unmade', replaces'⟩ := later t inside
        have other : t.1 ≠ a := fun same => apart.1 (List.mem_map.mpr ⟨t, inside, same⟩)
        exact ⟨there', (Function.update_of_ne other ..).trans unmade', replaces'⟩

/-- Collapsing undoes splicing: where no property of a list is a copy and no placeholder comes
twice, placeholders of it may be replaced by copies in any order, and collapsing gives the list
back. The same holds of the properties of a class and of the parameters of an endpoint. -/
theorem collapse_splices (original : ∀ p ∈ ps, p.origin? = none)
    (once : (ps.filterMap Property.alias?).Nodup) (apart : (turns.map Prod.fst).Nodup)
    (replaces : ∀ t ∈ turns, .alias t.1 ∈ ps ∧ Replaces t.1 t.2) :
    collapse (splices turns ps) = ps ∧
      ∀ (m : Model) (site : Site), site.list? m = some ps →
        (site.list? (site.puts turns m)).map collapse = some ps := by
  have back : collapse (splices turns ps) = ps := by
    obtain ⟨made, spreads, copied⟩ := (Spreads.start ps).splices (fun _ none => by cases none) once
      apart fun t inside => ⟨(replaces t inside).1, rfl, (replaces t inside).2⟩
    exact spreads.collapse_of_some original once fun a _ => copied a
  refine ⟨back, fun m site held => ?_⟩
  rw [list?_puts, held, Option.map_some, Option.map_some, back]

namespace Swapped
open Model.Copying Model.Mixing

/-- Two placeholders side by side. -/
def neighbours : List Property := [plain "k", .alias including, .alias excluding]

/-- Copies for the second placeholder, then for the first one. -/
def backwards : List (Placeholder × List Property) :=
  [(excluding, [copyField excluding "i" excluding.location key]),
    (including, [copyField including "n" ⟨"n", 4, 70⟩ field,
      copyField including "i" ⟨"i", 4, 73⟩ key])]

theorem replaces : ∀ t ∈ backwards, .alias t.1 ∈ neighbours ∧ Replaces t.1 t.2 := by
  rw [backwards, List.forall_mem_cons, List.forall_mem_singleton]
  refine ⟨⟨by decide, by decide, ?_⟩, ⟨by decide, by decide, ?_⟩⟩
  · exact List.forall_mem_singleton.mpr ⟨"i", excluding.location, key, rfl, rfl⟩
  · exact List.forall_mem_cons.mpr ⟨⟨"n", _, field, rfl, rfl⟩,
      List.forall_mem_singleton.mpr ⟨"i", _, key, rfl, rfl⟩⟩

end Swapped
open Swapped Model.Copying Model.Mixing

theorem collapse_splices_swapped :
    (neighbours.filterMap Property.alias?).Nodup ∧ (backwards.map Prod.fst).Nodup ∧
      (splices backwards neighbours).map Property.alias? = [none, none, none, none] ∧
      collapse (splices backwards neighbours) = neighbours ∧
      ((Site.ofClass ⟨1, 0⟩).list? ((Site.ofClass ⟨1, 0⟩).puts backwards
        (loaded [key, field] neighbours))).map collapse = some neighbours := by
  have back := collapse_splices (by decide) (by decide) (by decide) replaces
  exact ⟨by decide, by decide, by decide, back.1, back.2 _ _ rfl⟩

end DataModel.Resolution
