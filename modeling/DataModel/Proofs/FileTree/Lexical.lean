import DataModel.Proofs.FileTree.Spelling
import DataModel.Settings

/-!
Places where no links are. A path then leads to the place that its components spell, and the
logical name of a file below the model root, with the suffix of model files behind it, spells the
way from the root to that place. So the names tell the files apart.
-/
namespace DataModel

namespace FileTree
variable {t : FileTree} {here : Place} {parts : List String} {current p place : Path}

/-- A tree without links. -/
def Linkless (t : FileTree) : Prop := ∀ place target, t.node? place ≠ some (.link target)

/-- One component on: a double dot leads back. -/
def onward (here : Place) (name : String) : Place :=
  if name = ".." then here.dropLast else here ++ [name]

/-- Where components lead if no links are on the way. -/
def lexical (here : Place) (parts : List String) : Place := parts.foldl onward here

theorem lexical_append (here : Place) (parts more : List String) :
    lexical here (parts ++ more) = lexical (lexical here parts) more := List.foldl_append

theorem lexical_plain (plain : ∀ name ∈ parts, name ≠ "..") : lexical here parts = here ++ parts := by
  induction parts generalizing here with
  | nil => exact (List.append_nil here).symm
  | cons name parts ih =>
      obtain ⟨first, rest⟩ := List.forall_mem_cons.mp plain
      show lexical (onward here name) parts = _
      rw [ih rest, onward, if_neg first, List.append_assoc]
      rfl

/-- What is on the way to a place comes from the components, and is no double dot. -/
theorem mem_lexical {name : String} (member : name ∈ lexical here parts) :
    name ∈ here ∨ name ∈ parts ∧ name ≠ ".." := by
  induction parts generalizing here with
  | nil => exact .inl member
  | cons first rest ih =>
      rcases ih member with before | ⟨later, plain⟩
      · unfold onward at before
        split at before
        · exact .inl (List.dropLast_subset here before)
        · next plain =>
          rcases List.mem_append.mp before with old | new
          · exact .inl old
          · obtain rfl := List.mem_singleton.mp new
            exact .inr ⟨List.mem_cons_self, plain⟩
      · exact .inr ⟨List.mem_cons_of_mem first later, plain⟩

theorem Linkless.withoutLinks (linkless : t.Linkless) (depth : Nat) (opened : List Place)
    (here : Place) (parts : List String) :
    t.withoutLinks depth opened here parts = (lexical here parts, true) := by
  induction parts generalizing here with
  | nil => rw [FileTree.withoutLinks, lexical, List.foldl_nil]
  | cons name rest ih =>
      have step : lexical here (name :: rest) = lexical (onward here name) rest := rfl
      rw [FileTree.withoutLinks, step, onward]
      split
      · exact ih _
      · dsimp only
        split
        · next target found => exact absurd found (linkless _ target)
        · exact ih _

theorem Linkless.locate (linkless : t.Linkless) (follow : Bool) (links : Nat) (here : Place)
    (parts : List String) : t.locate follow links here parts ≠ .error .linkLoop := by
  induction parts generalizing here with
  | nil => simp [FileTree.locate]
  | cons name rest ih =>
      rw [FileTree.locate]
      split
      · exact ih _
      · split
        · simp
        · dsimp only
          split
          · simp
          · exact ih _
          · split <;> simp
          · next target found => exact absurd found (linkless _ target)

/-- Without links a path leads where its components say, unless it names nothing in any tree. -/
theorem Linkless.resolve (linkless : t.Linkless) (current p : Path) :
    t.resolve current p = named p (lexical [] (p.under current).parts) := by
  have plain : ∀ name ∈ lexical [] (p.under current).parts, name ≠ ".." := fun name member =>
    ((mem_lexical member).resolve_left List.not_mem_nil).2
  unfold FileTree.resolve named
  cases p.firstNameFault? with
  | some f => rfl
  | none =>
      simp only [linkless.withoutLinks, collapseDots_plain plain]
      split
      · next loop => exact absurd loop (linkless.locate true maxLinks [] _)
      · rfl

theorem Linkless.resolve_eq_ok (linkless : t.Linkless) :
    t.resolve current p = .ok place ↔
      p.firstNameFault? = none ∧ place = ⟨"/", lexical [] (p.under current).parts⟩ := by
  rw [linkless.resolve, named]
  cases p.firstNameFault? with
  | some f => exact ⟨fun refused => (nomatch refused), fun both => (nomatch both.1)⟩
  | none =>
      simp only [Except.ok.injEq, true_and]
      exact eq_comm

end FileTree

namespace Path
open Text
variable {p : Path}

theorem mem_codesOf_intercalate {parts : List (List Char)} {part : List Char} {code : Nat}
    (paired : ∀ part ∈ parts, isPaired part = true) (member : part ∈ parts)
    (inside : code ∈ codesOf part) : code ∈ codesOf (['/'].intercalate parts) := by
  induction parts with
  | nil => cases member
  | cons first rest ih =>
      obtain ⟨here, later⟩ := List.forall_mem_cons.mp paired
      cases rest with
      | nil =>
          rw [List.mem_singleton.mp member] at inside
          rwa [List.intercalate_singleton]
      | cons second rest =>
          rw [List.intercalate_cons_cons, List.append_assoc, codesOf_append here,
            codesOf_append isFine_slash.1]
          rcases List.mem_cons.mp member with rfl | behind
          · exact List.mem_append_left _ inside
          · exact List.mem_append_right _ (List.mem_append_right _ (ih later behind))

/-- A path that a text spells names nothing just if one of its components does. -/
theorem Spelt.firstNameFault?_eq_none (spelt : p.Spelt) :
    p.firstNameFault? = none ↔ ∀ name ∈ p.parts, DataModel.nameFault? name = none := by
  have paired : ∀ part ∈ p.parts.map String.toList, isPaired part = true := by
    intro part inside
    obtain ⟨name, member, rfl⟩ := List.mem_map.mp inside
    exact (spelt.parts name member).coded.paired
  have slashes := isFine_slashes spelt.root
  constructor
  · intro free name member
    have some' : p.parts ≠ [] := List.ne_nil_of_mem member
    -- the path itself is the last one on the way to it
    have whole : p ∈ p.onTheWay := by
      refine List.mem_map.mpr ⟨p.parts.length - 1, ?_, ?_⟩
      · rw [List.mem_range]
        have long := List.length_pos_iff.mpr some'
        omega
      · rw [Nat.sub_add_cancel (List.length_pos_iff.mpr some'), List.take_length]
    have fine := nameFault?_eq_none.mp (List.findSome?_eq_none_iff.mp free p whole)
    rw [codes, toList_toString some', codesOf_append slashes.1] at fine
    refine nameFault?_eq_none.mpr fun code inside => fine code (List.mem_append_right _ ?_)
    exact mem_codesOf_intercalate paired (List.mem_map_of_mem member) inside
  · intro free
    by_cases none' : p.parts = []
    · rw [firstNameFault?, onTheWay, none']
      rfl
    · refine Path.firstNameFault?_eq_none (nameFault?_eq_none.mpr ?_)
      have parts : IsFine (['/'].intercalate (p.parts.map String.toList)) := by
        refine isFine_intercalate fun part inside => ⟨paired part inside, ?_⟩
        obtain ⟨name, member, rfl⟩ := List.mem_map.mp inside
        exact nameFault?_eq_none.mp (free name member)
      have fine := slashes.append parts
      rw [← toList_toString none'] at fine
      exact fine.2

end Path

namespace Settings
open FileTree Text
variable {settings : Settings} {t : FileTree} {current place root : Path} {text : String}
  {below : List String}

/-- A text leads to a place below the model root that has the suffix of model files. -/
structure LeadsTo (settings : Settings) (t : FileTree) (current : Path) (text : String)
    (place : Path) : Prop where
  coded : IsCoded text.toList
  resolved : t.resolve current (.ofString text) = .ok place
  inside : ∃ root below, t.resolve current settings.modelRoot = .ok root ∧ below ≠ [] ∧
    place.parts = root.parts ++ below
  suffix : modelSuffix.toList <:+ (place.name?.getD "").toList

/-- The components of such a place are names that a text can spell. -/
theorem LeadsTo.components (linkless : t.Linkless) (here : current.Spelt)
    (named : current.firstNameFault? = none) (leads : settings.LeadsTo t current text place) :
    ∀ name ∈ place.parts, IsComponent name ∧ nameFault? name = none ∧ name ≠ ".." := by
  have spelt := Path.spelt_ofString leads.coded
  obtain ⟨faultless, rfl⟩ := linkless.resolve_eq_ok.mp leads.resolved
  intro name member
  obtain ⟨inside, plain⟩ := (mem_lexical member).resolve_left List.not_mem_nil
  have either : name ∈ current.parts ∨ name ∈ (Path.ofString text).parts := by
    unfold Path.under at inside
    split at inside
    · exact .inr inside
    · exact List.mem_append.mp inside
  rcases either with base | own
  · exact ⟨here.parts name base, here.firstNameFault?_eq_none.mp named name base, plain⟩
  · exact ⟨spelt.parts name own, spelt.firstNameFault?_eq_none.mp faultless name own, plain⟩

/-- The name of such a place and the suffix spell the way to it from the model root. -/
theorem LeadsTo.fileName (linkless : t.Linkless) (leads : settings.LeadsTo t current text place)
    (rooted : t.resolve current settings.modelRoot = .ok root) :
    ∃ below, below ≠ [] ∧ place = ⟨"/", root.parts ++ below⟩ ∧
      settings.fileName t current (.ofString text) =
        .ok (Path.withoutSuffix modelSuffix (⟨"", below⟩ : Path).toString) ∧
      Path.withoutSuffix modelSuffix (⟨"", below⟩ : Path).toString ++ modelSuffix =
        (⟨"", below⟩ : Path).toString := by
  obtain ⟨coded, resolved, ⟨root', below, rooted', some', split⟩, suffix⟩ := leads
  obtain rfl := Except.ok.inj (rooted'.symm.trans rooted)
  obtain ⟨-, top⟩ := linkless.resolve_eq_ok.mp rooted
  have slash : root'.root = "/" := by rw [top]
  have whole : place = ⟨"/", root'.parts ++ below⟩ := by
    obtain ⟨-, at'⟩ := linkless.resolve_eq_ok.mp resolved
    rw [← split, at']
  have inside : place.relativeTo? root' = some ⟨"", below⟩ := by
    simp [Path.relativeTo?, whole, slash]
  refine ⟨below, some', whole, ?_, Path.withoutSuffix_append ?_⟩
  · have places : settings.places t current (.ofString text) = .ok (root', place) := by
      rw [Settings.places, resolved, rooted]
      rfl
    rw [Settings.fileName, places]
    show Except.ok (logicalName root' place _) = _
    rw [logicalName, inside, Option.getD_some]
  · obtain ⟨before, last, rfl⟩ := (List.eq_nil_or_concat below).resolve_left some'
    have ending : place.name? = some last := by
      rw [Path.name?, split, List.concat_eq_append, ← List.append_assoc, List.getLast?_concat]
    rw [ending, Option.getD_some] at suffix
    have text : (⟨"", before ++ [last]⟩ : Path).toString.toList =
        ['/'].intercalate ((before ++ [last]).map String.toList) :=
      Path.toList_toString (List.append_ne_nil_of_right_ne_nil _ (List.cons_ne_nil _ _))
    rw [List.concat_eq_append, text, List.map_append, List.map_singleton]
    exact suffix.trans (Path.intercalate_suffix _ _)

/-- Components behind those of a path lead from the place of the path. -/
theorem resolve_below (linkless : t.Linkless) {p : Path} (spelt : p.Spelt)
    (resolved : t.resolve current p = .ok root)
    (named : ∀ name ∈ below, IsComponent name ∧ nameFault? name = none ∧ name ≠ "..") :
    t.resolve current ((⟨"", below⟩ : Path).under p) = .ok ⟨"/", root.parts ++ below⟩ := by
  obtain ⟨faultless, rfl⟩ := linkless.resolve_eq_ok.mp resolved
  have behind : (⟨"", below⟩ : Path).under p = ⟨p.root, p.parts ++ below⟩ := rfl
  have spelt' : (⟨p.root, p.parts ++ below⟩ : Path).Spelt :=
    ⟨spelt.root, List.forall_mem_append.mpr ⟨spelt.parts, fun name member => (named name member).1⟩⟩
  rw [behind, linkless.resolve_eq_ok, spelt'.firstNameFault?_eq_none, List.forall_mem_append]
  refine ⟨⟨spelt.firstNameFault?_eq_none.mp faultless, fun name member => (named name member).2.1⟩,
    congrArg (Path.mk "/") ?_⟩
  have parts : ((⟨p.root, p.parts ++ below⟩ : Path).under current).parts =
      (p.under current).parts ++ below := by
    rw [Path.under, Path.under, Path.isAbsolute, Path.isAbsolute]
    split
    · rfl
    · exact (List.append_assoc ..).symm
  rw [parts, lexical_append, lexical_plain fun name member => (named name member).2.2]

/-- From the model root the name and the suffix lead to the place. -/
theorem LeadsTo.resolve_name (linkless : t.Linkless) (here : current.Spelt)
    (named : current.firstNameFault? = none) (spelt : settings.modelRoot.Spelt)
    (leads : settings.LeadsTo t current text place) {name : String}
    (known : settings.fileName t current (.ofString text) = .ok name) :
    t.resolve current ((Path.ofString (name ++ modelSuffix)).under settings.modelRoot) =
      .ok place := by
  obtain ⟨root, -, rooted, -, -⟩ := leads.inside
  obtain ⟨below, some', rfl, result, spelling⟩ := leads.fileName linkless rooted
  have components := leads.components linkless here named
  have names : ∀ name ∈ below, IsComponent name ∧ nameFault? name = none ∧ name ≠ ".." :=
    fun name member => components name (List.mem_append_right _ member)
  obtain rfl := Except.ok.inj (known.symm.trans result)
  rw [spelling, Path.ofString_toString some' fun name member => (names name member).1]
  exact resolve_below linkless spelt rooted names

/-- Logical names determine the files below the model root, where there are no links. However a text
spells the way to such a file, its name with the suffix of model files leads from the model root to
that file; so two texts have one name just if they lead to one place. -/
theorem fileName_determines (linkless : t.Linkless) (here : current.Spelt)
    (named : current.firstNameFault? = none) (spelt : settings.modelRoot.Spelt)
    (leads : settings.LeadsTo t current text place) :
    ∃ name, settings.fileName t current (.ofString text) = .ok name ∧
      t.resolve current ((Path.ofString (name ++ modelSuffix)).under settings.modelRoot) =
        .ok place ∧
      ∀ text' place', settings.LeadsTo t current text' place' →
        (settings.fileName t current (.ofString text') = .ok name ↔ place' = place) := by
  obtain ⟨root, -, rooted, -, -⟩ := leads.inside
  obtain ⟨below, -, whole, known, -⟩ := leads.fileName linkless rooted
  have back := leads.resolve_name linkless here named spelt known
  refine ⟨_, known, back, fun text' place' leads' => ⟨fun known' => ?_, ?_⟩⟩
  · have back' := leads'.resolve_name linkless here named spelt known'
    exact Except.ok.inj (back'.symm.trans back)
  · rintro rfl
    obtain ⟨below', -, whole', known', -⟩ := leads'.fileName linkless rooted
    rw [whole] at whole'
    rw [known', List.append_cancel_left (congrArg Path.parts whole')]

namespace Dotted

/-- No files at all. -/
def bare : FileTree := ⟨[], 0, 0⟩

def workspace : Path := ⟨"/", ["ws"]⟩

def relative : Settings := ⟨"App", .ofString "m", false, []⟩

/-- A file whose name is a dot and the suffix. -/
def dotted : Path := ⟨"/", ["ws", "m", "..tmd"]⟩

theorem linkless : bare.Linkless := by
  intro place target found
  unfold node? at found
  split at found <;> cases found

theorem rooted : bare.resolve workspace relative.modelRoot = .ok ⟨"/", ["ws", "m"]⟩ :=
  linkless.resolve_eq_ok.mpr ⟨by with_unfolding_all rfl, by with_unfolding_all rfl⟩

theorem leads_around : relative.LeadsTo bare workspace "/ws/./m//x/../..tmd" dotted where
  coded := ⟨"/ws/./m//x/../..tmd".toList.map Char.toNat, by decide, by decide⟩
  resolved := linkless.resolve_eq_ok.mpr ⟨by with_unfolding_all rfl, by with_unfolding_all rfl⟩
  inside := ⟨_, ["..tmd"], rooted, List.cons_ne_nil _ _, rfl⟩
  suffix := by decide

theorem leads_straight : relative.LeadsTo bare workspace "m/..tmd" dotted where
  coded := ⟨"m/..tmd".toList.map Char.toNat, by decide, by decide⟩
  resolved := linkless.resolve_eq_ok.mpr ⟨by with_unfolding_all rfl, by with_unfolding_all rfl⟩
  inside := ⟨_, ["..tmd"], rooted, List.cons_ne_nil _ _, rfl⟩
  suffix := by decide

theorem spelt_workspace : workspace.Spelt := by
  have spelt : (Path.ofString "/ws").Spelt :=
    Path.spelt_ofString ⟨"/ws".toList.map Char.toNat, by decide, by decide⟩
  exact spelt

theorem spelt_root : relative.modelRoot.Spelt :=
  Path.spelt_ofString ⟨"m".toList.map Char.toNat, by decide, by decide⟩

end Dotted
open Dotted

theorem fileName_determines_dotted :
    bare.Linkless ∧ workspace.Spelt ∧ workspace.firstNameFault? = none ∧
      relative.modelRoot.Spelt ∧
      relative.LeadsTo bare workspace "/ws/./m//x/../..tmd" dotted ∧
      ∃ name, relative.fileName bare workspace (.ofString "/ws/./m//x/../..tmd") = .ok name ∧
        bare.resolve workspace ((Path.ofString (name ++ modelSuffix)).under relative.modelRoot) =
          .ok dotted ∧
        relative.fileName bare workspace (.ofString "m/..tmd") = .ok name := by
  have faultless : workspace.firstNameFault? = none := by with_unfolding_all rfl
  obtain ⟨name, known, back, same⟩ :=
    fileName_determines linkless spelt_workspace faultless spelt_root leads_around
  exact ⟨linkless, spelt_workspace, faultless, spelt_root, leads_around, name, known, back,
    (same _ _ leads_straight).mpr rfl⟩

end Settings
end DataModel
