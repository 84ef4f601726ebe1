import DataModel.Proofs.Store.Keys
import DataModel.Proofs.Store.Steady

/-!
What the committed files refer to, and the classes that the store says they can refer to. A file
binds its references before it takes what its aliases list. So a class that gives its place to a
re-exported one may have been referred to before; any other class that a file refers to is one that
it can refer to.
-/
namespace DataModel
open Resolution

namespace Store
variable {s : Store} {v : VersionId} {t : Key}

/-- A class that an own class or endpoint of a version is bound to, as what a class extends or as
the target of a property that is no copy. -/
inductive Binds (s : Store) (v : VersionId) (t : Key) : Prop
  | parent {k : Key} {c : Class} (own : k ∈ s.model.ownClasses v)
    (found : s.model.class? k = some c) (bound : c.parent = some t)
  | ofClass {k : Key} {c : Class} {p : Property} (own : k ∈ s.model.ownClasses v)
    (found : s.model.class? k = some c) (member : p ∈ c.properties) (declared : p.origin? = none)
    (bound : p.target? = some t)
  | ofEndpoint {k : Key} {e : Endpoint} {p : Property} (own : k ∈ s.model.ownEndpoints v)
    (found : s.model.endpoint? k = some e) (member : p ∈ e.properties) (declared : p.origin? = none)
    (bound : p.target? = some t)

/-- A class of a version whose name an alias of the version lists. -/
def GivesPlace (s : Store) (v : VersionId) (t : Key) : Prop :=
  t.version = v ∧ ∃ f, s.model.file? v = some f ∧ ∃ a ∈ f.aliases, ∃ r ∈ a.classes,
    className? s.model t = some r.name

/-- The classes that a committed file can refer to are classes of the store. -/
theorem mem_classes_of_available {name : String}
    (known : s.committed.get? name = some v) (available : t ∈ s.availableClasses v) :
    t ∈ s.classes := by
  rw [mem_classes]
  rcases List.mem_append.mp available with ofDependency | own
  · obtain ⟨d, dependency, offered⟩ := List.mem_flatMap.mp ofDependency
    obtain ⟨use, -, known'⟩ := committed_of_dependency dependency
    exact ⟨d, Table.mem_values_of_mem (Table.mem_of_get? known'), offered⟩
  · exact ⟨v, Table.mem_values_of_mem (Table.mem_of_get? known), Model.classes_of_own own⟩

namespace Made
variable {f : ModelFile} {m n : Model} {ds : List Diagnostic}

/-- What a file is bound to is what its names meant when it was resolved. -/
theorem means (h : s.Made v f m n ds) (binds : s.Binds v t) :
    ∃ name, (Scope.of m v (s.dependencies v) s.domains).Means name t := by
  have aims := (Model.resolve_outcome h.fresh h.loaded.declared h.done).aims
  have answered : ∀ {r : Option Reference} {k : Option Key},
      Answers (Scope.of m v (s.dependencies v) s.domains).Means k r → k = some t →
        ∃ name, (Scope.of m v (s.dependencies v) s.domains).Means name t := by
    intro r k answers bound
    obtain ⟨r, -, meant⟩ := answers t bound
    exact ⟨r.name, meant⟩
  have ofClass : ∀ {k : Key} {c : Class}, k ∈ s.model.ownClasses v → s.model.class? k = some c →
      c.Meant (.of m v (s.dependencies v) s.domains) := by
    intro k c own found
    have home := (h.own_class own).1
    refine aims.classes k c home ?_
    rw [← found]
    exact (Model.class?_congr (home ▸ h.result)).symm
  cases binds with
  | parent own found bound => exact answered (ofClass own found).parent bound
  | ofClass own found member declared bound =>
      exact answered ((ofClass own found).properties _ member declared) bound
  | @ofEndpoint k e p own found member declared bound =>
      have home := (h.own_endpoint own).1
      refine answered (aims.endpoints k e home ?_ p member declared) bound
      rw [← found]
      exact (Model.endpoint?_congr (home ▸ h.result)).symm

/-- A class that a name meant is one that the file can refer to, unless the file has given its
place to another one since. -/
theorem available (h : s.Made v f m n ds) (settled : s.Settled) {name file : String}
    (known : s.committed.get? file = some v)
    (means : (Scope.of m v (s.dependencies v) s.domains).Means name t)
    (stays : ¬ s.GivesPlace v t) : t ∈ s.availableClasses v := by
  obtain ⟨o, found, rfl⟩ := means
  rcases List.mem_append.mp (Table.mem_of_get?_ofList found) with ofDependency | own
  · obtain ⟨d, dependency, offered⟩ := List.mem_flatMap.mp ofDependency
    refine List.mem_append_left _ (List.mem_flatMap.mpr ⟨d, dependency, ?_⟩)
    have other : d ≠ v := by
      rintro rfl
      obtain ⟨rank, falls⟩ := settled.falls
      exact Nat.lt_irrefl _ (falls known d dependency)
    rw [Model.classes, h.below (.single dependency) other, ← Model.classes]
    exact (mem_offeredClasses offered).1
  · refine List.mem_append_right _ ?_
    have own' : o.key ∈ m.ownClasses v := (mem_offeredClasses own).1
    have outcome := Model.resolve_outcome h.fresh h.loaded.declared h.done
    have home := (Model.homed_of_fresh h.fresh).classes o.key own'
    have kept : o.key ∈ n.ownClasses v := by
      refine outcome.kept o.key own' fun f' declared a ha r hr named => stays ⟨home, ?_⟩
      obtain ⟨f'', now, same⟩ := h.evolves.keepsShape.aliases declared
      refine ⟨f'', (Model.file?_congr h.result).trans now, a, same ▸ ha, r, hr, ?_⟩
      rw [className?, h.className (home ▸ .refl), ← named, className?]
    rw [Model.ownClasses, h.result]
    exact kept

end Made
end Store

/-- After a steady history a committed file can refer to each class that it is bound to, and the
class is one of the store's, unless it is a class of the file itself that gave its place to a
re-exported one. -/
theorem bound_available (settings : Settings) (history : List Moment)
    (steady : Steady settings history) :
    let s := Store.after settings history
    ∀ name v, s.file? name = some v → ∀ t, s.Binds v t → ¬ s.GivesPlace v t →
      t ∈ s.availableClasses v ∧ t ∈ s.classes := by
  intro s name v known t binds stays
  have settled : s.Settled := steady.settled
  obtain ⟨f, m, n, ds, made⟩ := settled.made known
  obtain ⟨_, means⟩ := made.means binds
  have available := made.available settled known means stays
  exact ⟨available, Store.mem_classes_of_available known available⟩

namespace Yielding
open Relinking (settings path unlinked)

/-- A file with a class. -/
def declaration : String := "module: M\n---\nclass: {name: X, comment: c}\n"

/-- A file with a class that extends that of the first. -/
def extending : String := "module: M\nuses: G\n---\nclass: {name: Y, comment: c, extends: X}\n"

/-- A file with a class of the same name, which another one extends and which gives its place to
that of the first file. -/
def yielding : String := "module: M\nuses: G\n---\nclass: {name: X, comment: c}\n---\n" ++
  "class: {name: Y, comment: c, extends: X}\n---\nalias: {file: G, classes: X}\n"

section Files

def plain (line : Nat) : Class :=
  ⟨"X", "c", none, none, none, .none, false, none, none, none, none, [], [], [],
    some ⟨"a", "M"⟩, some ⟨"class", line, 1⟩⟩

def child (parent : Option Key) (line : Nat) : Class :=
  ⟨"Y", "c", none, none, none, .none, false, none, none, some ⟨"X", line, 39⟩, parent, [], [], [],
    some ⟨"a", "M"⟩, some ⟨"class", line, 1⟩⟩

def declaring : ModelFile :=
  ⟨"G", "/m/G.tmd", "M", declaration, [], [], [], [], [plain 3], [], []⟩

def extends' (parent : Option Key) : ModelFile :=
  ⟨"F", "/m/F.tmd", "M", extending, [], [⟨"G", 2, 7⟩], [], [], [child parent 4], [], []⟩

def yields (parent : Option Key) : ModelFile :=
  ⟨"F", "/m/F.tmd", "M", yielding, [], [⟨"G", 2, 7⟩], [], [], [plain 4, child parent 6], [],
    [⟨⟨"G", 8, 15⟩, [⟨"X", 8, 27⟩], [], some ⟨"alias", 8, 1⟩⟩]⟩

set_option maxRecDepth 2000 in
theorem load_declaration :
    Grammar.loadText settings.app ⟨"G", (path "G.tmd").toString, declaration⟩ =
      .ok (some declaring) := by
  cbv

set_option maxRecDepth 2000 in
theorem load_extending :
    Grammar.loadText settings.app ⟨"F", (path "F.tmd").toString, extending⟩ =
      .ok (some (extends' none)) := by
  cbv

-- the text is too long for one evaluation; its tokens come first
set_option maxRecDepth 4000 in
theorem load_yielding :
    Grammar.loadText settings.app ⟨"F", (path "F.tmd").toString, yielding⟩ =
      .ok (some (yields none)) := by
  unfold Grammar.loadText Source.Reader.ofText Source.events Yaml.EventStream.ofText
  dsimp only
  generalize scanned : Yaml.TokenStream.ofText yielding = stream
  cbv at scanned
  subst scanned
  cbv

end Files

section Runs

def begun : List Moment := [⟨.change (path "G.tmd") (some declaration), unlinked, []⟩]

def changes (text : String) : List Moment :=
  begun ++ [⟨.change (path "F.tmd") (some text), unlinked, []⟩]

def declared : Version := ⟨declaring, [⟨0, 0⟩], [], [], []⟩

def first : Store := ⟨settings, [], ⟨#[declared]⟩, [("G", 0)], [], []⟩

/-- The store after the change of the second file. -/
def second (ver : Version) : Store :=
  ⟨settings, [], ⟨#[declared, ver]⟩, [("G", 0), ("F", 1)], [], []⟩

/-- The class extends that of the first file. -/
def extended : Version := ⟨extends' (some ⟨0, 0⟩), [⟨1, 0⟩], [], [], []⟩

/-- The class extends that of its own file, which has given its place to that of the first. -/
def yielded : Version := ⟨yields (some ⟨1, 0⟩), [⟨0, 0⟩, ⟨1, 1⟩], [], [⟨0, 0⟩], []⟩

theorem name_first : settings.fileName unlinked ⟨"/", []⟩ (path "G.tmd") = .ok "G" :=
  Relinking.name_unlinked rfl (by with_unfolding_all rfl) (by decide) rfl

theorem name_second : settings.fileName unlinked ⟨"/", []⟩ (path "F.tmd") = .ok "F" :=
  Relinking.name_unlinked rfl (by with_unfolding_all rfl) (by decide) rfl

theorem after_begun : Store.after settings begun = first := by
  have next : (Moment.staging (.new settings []) "G" (path "G.tmd") declaring).nextBatch
      unlinked = .ok ⟨first.model, [("G", 0)], [0]⟩ := rfl
  have done : Batch.resolve ⟨first.model, [("G", 0)], [0]⟩ settings =
      .ok ⟨first.model, [(0, [])], [0]⟩ := rfl
  have steps : begun = [] ++ [⟨.change (path "G.tmd") (some declaration), unlinked, []⟩] := rfl
  have start : Store.after settings [] = .new settings [] := rfl
  rw [steps, Store.after_snoc, start,
    Moment.run_change (s := .new settings []) name_first load_declaration next done
      (by simp [Resolution.Clean])]
  rfl

theorem after_steady {text : String} {f : ModelFile} {ver : Version}
    (loaded : Grammar.loadText settings.app ⟨"F", (path "F.tmd").toString, text⟩ = .ok (some f))
    (next : (Moment.staging first "F" (path "F.tmd") f).nextBatch unlinked =
      .ok ⟨(first.model.add f).1, [("G", 0), ("F", 1)], [1]⟩)
    (done : Batch.resolve ⟨(first.model.add f).1, [("G", 0), ("F", 1)], [1]⟩ settings =
      .ok ⟨(second ver).model, [(1, [])], [1]⟩)
    (commit : (Moment.staging first "F" (path "F.tmd") f).commit
      ⟨(first.model.add f).1, [("G", 0), ("F", 1)], [1]⟩ = [("G", 0), ("F", 1)]) :
    Store.after settings (changes text) = second ver := by
  rw [changes, Store.after_snoc, after_begun,
    Moment.run_change (s := first) name_second loaded next done (by simp [Resolution.Clean]),
    commit]
  rfl

theorem after_extending : Store.after settings (changes extending) = second extended :=
  after_steady load_extending rfl (by with_unfolding_all rfl) rfl

theorem after_yielding : Store.after settings (changes yielding) = second yielded :=
  after_steady load_yielding rfl (by with_unfolding_all rfl) rfl

theorem steady_keeps {text : String} {f : ModelFile}
    (loaded : Grammar.loadText settings.app ⟨"F", (path "F.tmd").toString, text⟩ = .ok (some f))
    (names : (Moment.staging first "F" (path "F.tmd") f).batchNames = ["F"]) :
    Steady settings (changes text) := by
  have steps : changes text = [] ++ [⟨.change (path "G.tmd") (some declaration), unlinked, []⟩] ++
      [⟨.change (path "F.tmd") (some text), unlinked, []⟩] := rfl
  have start : Store.after settings [] = .new settings [] := rfl
  have whole : Store.after settings ([] ++
      [⟨.change (path "G.tmd") (some declaration), unlinked, []⟩]) = first := after_begun
  rw [steps]
  refine ((Steady.nil settings).snoc ?_).snoc ?_
  · rw [start, Moment.load_change (s := .new settings []) name_first load_declaration]
    intro name _ _ v file known
    cases known
  · rw [whole, Moment.load_change (s := first) name_second loaded]
    intro name inside free
    rw [names] at inside
    exact absurd inside free

end Runs
end Yielding
open Yielding

theorem bound_available_extended :
    let s := Store.after Relinking.settings (changes extending)
    Steady Relinking.settings (changes extending) ∧ s.file? "F" = some 1 ∧ s.Binds 1 ⟨0, 0⟩ ∧
      ¬ s.GivesPlace 1 ⟨0, 0⟩ ∧ (⟨0, 0⟩ : Key) ∈ s.availableClasses 1 ∧ (⟨0, 0⟩ : Key) ∈ s.classes := by
  have steady' : Steady Relinking.settings (changes extending) := steady_keeps load_extending rfl
  have known : (Store.after Relinking.settings (changes extending)).file? "F" = some 1 := by
    rw [after_extending]
    rfl
  have binds : (Store.after Relinking.settings (changes extending)).Binds 1 ⟨0, 0⟩ := by
    rw [after_extending]
    exact .parent (k := ⟨1, 0⟩) (List.mem_singleton_self _) rfl rfl
  have stays : ¬ (Store.after Relinking.settings (changes extending)).GivesPlace 1 ⟨0, 0⟩ := by
    rintro ⟨home, -⟩
    cases home
  exact ⟨steady', known, binds, stays,
    bound_available _ _ steady' "F" 1 known ⟨0, 0⟩ binds stays⟩

/-- A class can extend one that its file cannot refer to and the store does not list. -/
theorem unavailable_of_yielding :
    let s := Store.after Relinking.settings (changes yielding)
    Steady Relinking.settings (changes yielding) ∧ s.file? "F" = some 1 ∧ s.Binds 1 ⟨1, 0⟩ ∧
      (⟨1, 0⟩ : Key) ∉ s.availableClasses 1 ∧ (⟨1, 0⟩ : Key) ∉ s.classes := by
  refine ⟨steady_keeps load_yielding rfl, ?_⟩
  rw [after_yielding]
  refine ⟨rfl, .parent (k := ⟨1, 1⟩) (List.mem_singleton_self _) rfl rfl, ?_, ?_⟩
  · decide
  · decide

end DataModel
