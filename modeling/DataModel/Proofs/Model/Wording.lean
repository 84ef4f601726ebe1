import DataModel.Model.Diagnostic
import Mathlib.Algebra.Order.BigOperators.Group.List
import Mathlib.Algebra.Order.Group.Nat
import Mathlib.Data.List.Chain
import Mathlib.Data.List.Infix

/-!
The wording of diagnostics. The sentence of a finding consists of fixed texts, of names, and of the
place where the reference is quoted. A template has the names in it already and a mark in that
place, and the marks are filled in the whole text. Fixed texts keep the names apart and share no
character with the mark, so every name is filled for itself; it comes out as it was if no mark
stands in it.
-/
namespace DataModel

/-- The text that stands for the name of the reference in a template. -/
def referenceMark : String := "\x7b0\x7d"

/-- A text with a mark in it. -/
def IsMarked (text : String) : Prop := referenceMark.toList <:+: text.toList

theorem referenceMark_toList : referenceMark.toList = ['\x7b', '0', '\x7d'] := by decide

section FillingMarks
variable {name text rest : List Char} {c : Char}

theorem fillMarks_mark (name rest : List Char) :
    fillMarks name (referenceMark.toList ++ rest) = name ++ fillMarks name rest := by
  rw [referenceMark_toList]
  rfl

theorem fillMarks_cons (name : List Char) (other : ¬ referenceMark.toList <+: c :: rest) :
    fillMarks name (c :: rest) = c :: fillMarks name rest := by
  refine fillMarks.eq_2 name c rest ?_
  rintro tail rfl rfl
  exact other (referenceMark_toList ▸ ⟨tail, rfl⟩)

/-- Filling goes from mark to mark, and passes what does not begin a mark. -/
theorem fillMarks_induction {P : List Char → Prop} (nil : P [])
    (filled : ∀ rest, P rest → P (referenceMark.toList ++ rest))
    (passed : ∀ c rest, ¬ referenceMark.toList <+: c :: rest → P rest → P (c :: rest))
    (text : List Char) : P text := by
  induction text using fillMarks.induct with
  | case1 rest ih => exact filled rest ih
  | case2 c rest other ih =>
      refine passed c rest ?_ ih
      rw [referenceMark_toList]
      rintro ⟨tail, same⟩
      cases same
      exact other tail rfl rfl
  | case3 => exact nil

/-- A mark that goes on beyond a text has the character there in it. -/
theorem prefix_of_prefix_append (apart : c ∉ referenceMark.toList)
    (begins : referenceMark.toList <+: text ++ c :: rest) : referenceMark.toList <+: text := by
  rcases List.prefix_or_prefix_of_prefix begins (List.prefix_append text _) with
    inside | ⟨beyond, whole⟩
  · exact inside
  · rw [← whole, List.prefix_append_right_inj] at begins
    cases beyond with
    | nil => exact ⟨[], by rw [← whole, List.append_nil, List.append_nil]⟩
    | cons d beyond =>
        cases (List.cons_prefix_cons.mp begins).1
        exact absurd (whole ▸ List.mem_append_right _ List.mem_cons_self) apart

theorem fillMarks_append (name text rest : List Char) (apart : c ∉ referenceMark.toList) :
    fillMarks name (text ++ c :: rest) = fillMarks name text ++ fillMarks name (c :: rest) := by
  induction text using fillMarks_induction with
  | nil => rfl
  | filled text ih => rw [List.append_assoc, fillMarks_mark, fillMarks_mark, ih, List.append_assoc]
  | passed d text other ih =>
      have other' : ¬ referenceMark.toList <+: d :: (text ++ c :: rest) := fun begins =>
        other (prefix_of_prefix_append apart begins)
      rw [List.cons_append, fillMarks_cons name other', fillMarks_cons name other, ih,
        List.cons_append]

theorem fillMarks_plain (name rest : List Char) (plain : ∀ c ∈ text, c ∉ referenceMark.toList) :
    fillMarks name (text ++ rest) = text ++ fillMarks name rest := by
  induction text with
  | nil => rfl
  | cons c text ih =>
      obtain ⟨first, plain⟩ := List.forall_mem_cons.mp plain
      have other : ¬ referenceMark.toList <+: c :: (text ++ rest) := by
        intro begins
        rw [referenceMark_toList] at begins first
        exact first (List.mem_cons.mpr (.inl (List.cons_prefix_cons.mp begins).1.symm))
      rw [List.cons_append, fillMarks_cons name other, ih plain, List.cons_append]

/-- Every mark that is filled changes the length alike. -/
theorem length_fillMarks (name text : List Char) : ∃ count,
    (fillMarks name text).length + count * referenceMark.toList.length =
      text.length + count * name.length := by
  induction text using fillMarks_induction with
  | nil => exact ⟨0, by rw [Nat.zero_mul, Nat.zero_mul]; rfl⟩
  | filled text ih =>
      obtain ⟨count, same⟩ := ih
      refine ⟨count + 1, ?_⟩
      rw [fillMarks_mark, List.length_append, List.length_append, Nat.succ_mul, Nat.succ_mul]
      omega
  | passed c text other ih =>
      obtain ⟨count, same⟩ := ih
      refine ⟨count, ?_⟩
      rw [fillMarks_cons name other, List.length_cons, List.length_cons]
      omega

/-- Filling leaves a text as it is if the name is the mark itself, or no mark is there. -/
theorem fillMarks_eq_self_iff : fillMarks name text = text ↔
    name = referenceMark.toList ∨ ¬ referenceMark.toList <:+: text := by
  induction text using fillMarks_induction with
  | nil => exact iff_of_true rfl (.inr (by decide))
  | filled text ih =>
      rw [fillMarks_mark]
      constructor
      · intro same
        have lengths := congrArg List.length same
        rw [List.length_append, List.length_append] at lengths
        obtain ⟨count, sum⟩ := length_fillMarks name text
        have fits : (count + 1) * name.length = (count + 1) * referenceMark.toList.length := by
          rw [Nat.succ_mul, Nat.succ_mul]
          omega
        exact .inl (List.append_inj same (Nat.eq_of_mul_eq_mul_left count.succ_pos fits)).1
      · rintro (here | none)
        · rw [ih.mpr (.inl here), here]
        · exact absurd (List.prefix_append _ text).isInfix none
  | passed c text other ih =>
      rw [fillMarks_cons name other, List.cons.injEq, List.infix_cons_iff]
      tauto

end FillingMarks

/-- A part of a sentence. -/
inductive Phrase where
  | fixed (text : String)
  | name (text : String)
  /-- The place of the reference. -/
  | reference

namespace Phrase

def name? : Phrase → Option String
  | .name text => some text
  | _ => none

/-- A part with a text for the reference, which is quoted as it is. -/
def spelt (quoted : String) : Phrase → String
  | .fixed text | .name text => text
  | .reference => quoted

/-- What filling in a text makes of a part that has the mark for the reference. -/
def filled (quoted : String) : Phrase → String
  | .fixed text => text
  | .name text => .ofList (fillMarks quoted.toList text.toList)
  | .reference => quoted

/-- A fixed text says something and has no character of the mark. -/
def isPlain : Phrase → Bool
  | .fixed text => text != "" && text.toList.all (!referenceMark.toList.contains ·)
  | _ => true

/-- Behind a name stands a fixed text. -/
def Apart : Phrase → Phrase → Prop
  | .name _, .name _ | .name _, .reference => False
  | _, _ => True

/-- Names in a row, with a text between any two. -/
def row (between : String) : List String → List Phrase
  | [] => []
  | first :: rest => .name first :: rest.flatMap fun text => [.fixed between, .name text]

end Phrase

namespace Finding

/-- The sentence of a finding. -/
def sentence : Finding → List Phrase
  | .missingFile => [.fixed "The referenced file '", .reference, .fixed "' cannot be found."]
  | .missingClass =>
    [.fixed "Class '", .reference, .fixed "' cannot be found in the file or its dependencies."]
  | .missingDomain => [.fixed "Domain '", .reference, .fixed "' cannot be found."]
  | .missingDecorator =>
    [.fixed "Decorator '", .reference,
      .fixed "' cannot be found in the file or its dependencies."]
  | .missingProperty className =>
    [.fixed "Property '", .reference, .fixed "' cannot be found on class '", .name className,
      .fixed "'."]
  | .associationKey =>
    [.fixed "Class '", .reference,
      .fixed "' must have exactly one primary key to be the target of an association."]
  | .missingAliasFile =>
    [.fixed "File '", .reference, .fixed "' cannot be found in the dependencies of the file."]
  | .classNotInFile file =>
    [.fixed "Class '", .reference, .fixed "' cannot be found in file '", .name file, .fixed "'."]
  | .endpointNotInFile file =>
    [.fixed "Endpoint '", .reference, .fixed "' cannot be found in file '", .name file,
      .fixed "'."]
  | .compositeKey className keys =>
    .fixed "Class '" :: .name className :: .fixed "' must have a single primary key (" ::
      (Phrase.row ", " keys ++ [.fixed " found)."])
  | .duplicateProperty property className =>
    [.fixed "Property '", .name property, .fixed "' is declared more than once in class '",
      .name className, .fixed "'."]
  | .unusedUse => [.fixed "Import '", .reference, .fixed "' is not used."]
  | .unsortedUse => [.fixed "Import '", .reference, .fixed "' is out of order."]
  | .circularDependency names =>
    .fixed "Circular dependency between model files: " :: (Phrase.row " -> " names ++ [.fixed "."])

/-- The names in the sentence of a finding, but for that of the reference. -/
def names (f : Finding) : List String := f.sentence.filterMap Phrase.name?

/-- The sentence of a finding with every name in it as it is. -/
def wording (f : Finding) (r : Option Reference) : String :=
  .join (f.sentence.map (Phrase.spelt ((r.map (·.name)).getD referenceMark)))

/-- No name of the sentence has a mark in it, unless it is the mark that is filled in. -/
def Unmarked (f : Finding) (r : Option Reference) : Prop :=
  ∀ q, r = some q → q.name = referenceMark ∨ ∀ text ∈ f.names, ¬ IsMarked text

end Finding

section Sentences

theorem join_row (quoted between : String) (names : List String) :
    String.join ((Phrase.row between names).map (Phrase.spelt quoted)) =
      between.intercalate names := by
  cases names with
  | nil => rfl
  | cons first rest =>
      induction rest generalizing first with
      | nil => exact String.join_cons.trans String.append_empty
      | cons second rest ih =>
          rw [String.intercalate_cons_cons, ← ih second]
          simp only [Phrase.row, List.flatMap_cons, List.map_cons, List.cons_append,
            List.nil_append, String.join_cons, Phrase.spelt, String.append_assoc]

/-- A template is the sentence with the mark for the reference. -/
theorem Finding.template_eq (f : Finding) : f.template = f.wording none := by
  cases f with
  | compositeKey className keys =>
      simp only [wording, sentence, List.map_cons, List.map_append, String.join_cons,
        String.join_append, join_row, Phrase.spelt, List.map_nil, String.join_nil,
        String.append_empty, ← String.append_assoc]
      rfl
  | circularDependency names =>
      simp only [wording, sentence, List.map_cons, List.map_append, String.join_cons,
        String.join_append, join_row, Phrase.spelt, List.map_nil, String.join_nil,
        String.append_empty, ← String.append_assoc]
      rfl
  | _ => rfl

theorem plain_row {between : String} (names : List String)
    (plain : (Phrase.fixed between).isPlain) : (Phrase.row between names).all Phrase.isPlain := by
  cases names with
  | nil => rfl
  | cons first rest =>
      have name : ∀ text, (Phrase.name text).isPlain := fun _ => rfl
      simp [Phrase.row, List.all_flatMap, name, plain]

theorem apart_row (between last : String) (names : List String) :
    (Phrase.row between names ++ [Phrase.fixed last]).IsChain Phrase.Apart := by
  cases names with
  | nil => exact List.isChain_singleton _
  | cons first rest =>
      induction rest generalizing first with
      | nil => exact List.isChain_pair.mpr trivial
      | cons second rest ih =>
          refine List.isChain_cons_cons.mpr ⟨trivial, ?_⟩
          exact List.isChain_cons_cons.mpr ⟨trivial, ih second⟩

theorem Finding.plain (f : Finding) : f.sentence.all Phrase.isPlain := by
  cases f with
  | compositeKey className keys =>
      have row : (Phrase.row ", " keys).all Phrase.isPlain := plain_row keys rfl
      simp only [sentence, List.all_cons, List.all_append, row]
      rfl
  | circularDependency names =>
      have row : (Phrase.row " -> " names).all Phrase.isPlain := plain_row names rfl
      simp only [sentence, List.all_cons, List.all_append, row]
      rfl
  | _ => rfl

theorem Finding.apart (f : Finding) : f.sentence.IsChain Phrase.Apart := by
  cases f with
  | compositeKey className keys =>
      refine List.isChain_cons_cons.mpr ⟨trivial, List.isChain_cons_cons.mpr ⟨trivial, ?_⟩⟩
      exact List.isChain_cons.mpr ⟨fun _ _ => trivial, apart_row ", " " found)." keys⟩
  | circularDependency names =>
      exact List.isChain_cons.mpr ⟨fun _ _ => trivial, apart_row " -> " "." names⟩
  | _ => simp [sentence, Phrase.Apart]

end Sentences

section Filling
variable {quoted : String} {phrases : List Phrase}

theorem Phrase.isPlain_fixed {text : String} (plain : (Phrase.fixed text).isPlain) :
    ∃ c rest, text.toList = c :: rest ∧ c ∉ referenceMark.toList ∧
      ∀ d ∈ text.toList, d ∉ referenceMark.toList := by
  obtain ⟨said, plain⟩ := Bool.and_eq_true_iff.mp plain
  have apart : ∀ d ∈ text.toList, d ∉ referenceMark.toList := by simpa using plain
  cases whole : text.toList with
  | nil => exact absurd (String.toList_eq_nil_iff.mp whole) (bne_iff_ne.mp said)
  | cons c rest =>
      rw [whole] at apart
      exact ⟨c, rest, rfl, apart c List.mem_cons_self, apart⟩

/-- Every part of a sentence is filled for itself. -/
theorem fillMarks_phrases (plain : phrases.all Phrase.isPlain)
    (apart : phrases.IsChain Phrase.Apart) :
    fillMarks quoted.toList (phrases.flatMap fun p => (p.spelt referenceMark).toList) =
      phrases.flatMap fun p => (p.filled quoted).toList := by
  induction phrases with
  | nil => rfl
  | cons p phrases ih =>
      obtain ⟨here, behind⟩ := Bool.and_eq_true_iff.mp plain
      have later := ih behind apart.tail
      rw [List.flatMap_cons, List.flatMap_cons, ← later]
      cases p with
      | fixed text =>
          obtain ⟨-, -, -, -, clear⟩ := Phrase.isPlain_fixed here
          exact fillMarks_plain quoted.toList _ clear
      | reference => exact fillMarks_mark quoted.toList _
      | name text =>
          simp only [Phrase.spelt, Phrase.filled, String.toList_ofList]
          cases phrases with
          | nil => simp [fillMarks]
          | cons q phrases =>
              -- Behind the name a fixed text begins, with a character that ends every mark.
              cases q with
              | fixed next =>
                  obtain ⟨c, rest, whole, clear, -⟩ :=
                    Phrase.isPlain_fixed (Bool.and_eq_true_iff.mp behind).1
                  rw [List.flatMap_cons]
                  change fillMarks _ (_ ++ (next.toList ++ _)) = _ ++ fillMarks _ (next.toList ++ _)
                  rw [whole]
                  exact fillMarks_append _ _ _ clear
              | _ => exact (List.isChain_cons_cons.mp apart).1.elim

/-- Two texts for each of some things agree if they make the same whole and none of the first ones
is longer. -/
theorem eq_of_flatMap_eq {α β : Type} {f g : α → List β} {xs : List α}
    (le : ∀ x ∈ xs, (f x).length ≤ (g x).length) (same : xs.flatMap f = xs.flatMap g) :
    ∀ x ∈ xs, f x = g x := by
  induction xs with
  | nil => exact fun x none => absurd none List.not_mem_nil
  | cons x xs ih =>
      obtain ⟨first, le⟩ := List.forall_mem_cons.mp le
      have rest : (xs.flatMap f).length ≤ (xs.flatMap g).length := by
        rw [List.length_flatMap, List.length_flatMap]
        exact List.sum_le_sum le
      rw [List.flatMap_cons, List.flatMap_cons] at same
      have lengths := congrArg List.length same
      rw [List.length_append, List.length_append] at lengths
      obtain ⟨here, later⟩ := List.append_inj same (by omega)
      exact List.forall_mem_cons.mpr ⟨here, ih le later⟩

theorem Phrase.filled_eq_spelt_iff (p : Phrase) : p.filled quoted = p.spelt quoted ↔
    quoted = referenceMark ∨ ∀ text, p.name? = some text → ¬ IsMarked text := by
  cases p with
  | name text =>
      rw [Phrase.filled, Phrase.spelt, ← String.toList_inj, String.toList_ofList,
        fillMarks_eq_self_iff, String.toList_inj]
      simp [Phrase.name?, IsMarked]
  | _ => simp [Phrase.filled, Phrase.spelt, Phrase.name?]

theorem Phrase.length_filled (quoted : String) (p : Phrase) : ∃ count,
    (p.filled quoted).toList.length + count * referenceMark.toList.length =
      (p.spelt quoted).toList.length + count * quoted.toList.length := by
  cases p with
  | name text =>
      rw [Phrase.filled, Phrase.spelt, String.toList_ofList]
      exact length_fillMarks quoted.toList text.toList
  | _ => exact ⟨0, by rw [Nat.zero_mul, Nat.zero_mul]; rfl⟩

/-- What is filled makes a sentence come out as it is spelt if it does so with each part, since all
parts grow, or none does. -/
theorem filled_phrases_eq_iff :
    (phrases.flatMap fun p => (p.filled quoted).toList) =
        (phrases.flatMap fun p => (p.spelt quoted).toList) ↔
      ∀ p ∈ phrases, p.filled quoted = p.spelt quoted := by
  constructor
  · intro same p hp
    rw [← String.toList_inj]
    rcases Nat.le_total quoted.toList.length referenceMark.toList.length with short | long
    · refine eq_of_flatMap_eq (fun p _ => ?_) same p hp
      obtain ⟨count, sum⟩ := p.length_filled quoted
      have grown := Nat.mul_le_mul_left count short
      omega
    · refine (eq_of_flatMap_eq (fun p _ => ?_) same.symm p hp).symm
      obtain ⟨count, sum⟩ := p.length_filled quoted
      have grown := Nat.mul_le_mul_left count long
      omega
  · intro each
    exact List.flatMap_congr fun p hp => congrArg String.toList (each p hp)

end Filling

namespace Finding

/-- A diagnostic quotes every name as it is exactly if no name in its sentence has a mark. -/
theorem message_eq_wording_iff (f : Finding) (v : VersionId) (t : Subject) (r : Option Reference) :
    (f.diagnostic v t r).message = f.wording r ↔ f.Unmarked r := by
  cases r with
  | none => exact iff_of_true f.template_eq (fun q none => nomatch none)
  | some r =>
      have filled : (f.diagnostic v t (some r)).message.toList =
          f.sentence.flatMap fun p => (p.filled r.name).toList := by
        have phrases : f.template.toList =
            f.sentence.flatMap fun p => (p.spelt referenceMark).toList := by
          rw [f.template_eq, wording, String.toList_join, List.flatMap_map]
          rfl
        rw [← fillMarks_phrases f.plain f.apart, ← phrases]
        exact String.toList_ofList
      rw [← String.toList_inj, filled, wording, String.toList_join, List.flatMap_map]
      refine filled_phrases_eq_iff.trans ?_
      constructor
      · rintro each q here
        cases here
        by_cases self : r.name = referenceMark
        · exact .inl self
        · refine .inr fun text member => ?_
          obtain ⟨p, hp, named⟩ := List.mem_filterMap.mp member
          exact ((p.filled_eq_spelt_iff.mp (each p hp)).resolve_left self) text named
      · intro unmarked p hp
        refine p.filled_eq_spelt_iff.mpr ((unmarked r rfl).imp_right fun none text named => ?_)
        exact none text (List.mem_filterMap.mpr ⟨p, hp, named⟩)

end Finding
end DataModel
