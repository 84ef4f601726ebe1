import DataModel.Proofs.CommandLine.Checking
import DataModel.Proofs.Text.Decoding
import DataModel.Proofs.Yaml.Building

/-!
Reporting a bad configuration. A configuration file that is text, in which every number and time has
a value, and whose model root can be found, either gives settings or is refused with a fault of its
own; and such a fault ends every command with one line and the code one. Bytes that are no text do
not.
-/
namespace DataModel
open DataModel.Text
open DataModel.Yaml (Document HoldsOversized)

namespace FileTree
variable {t : FileTree} {p : Path}

/-- Where a path names no fault, only the tree keeps it from being read. -/
theorem read_named (named : p.nameFault? = none) (f : NameFault) : t.read p ≠ .error (.name f) := by
  intro failed
  unfold read find checkPath at failed
  rw [named] at failed
  by_cases long : p.isLong
  · rw [if_pos long] at failed
    cases failed
  · rw [if_neg long] at failed
    cases located : t.locate true maxLinks [] p.parts with
    | error cause =>
        rw [located] at failed
        cases failed
    | ok place =>
        rw [located] at failed
        cases node : t.node? place with
        | none =>
            simp only [node] at failed
            cases failed
        | some n =>
            simp only [node] at failed
            cases n <;> cases failed

end FileTree

namespace Configuration
variable {t : FileTree} {current path : Path} {text : String} {f : Fault}

/-- The text of a file, with the line ends of all systems as line feeds. -/
def written (cs : List Char) : String := String.ofList (withLineFeeds (ofChars cs).toList)

/-- A text in which every number is small enough, and every text that is read for a type has a value
of it. If it gives a model root, there is a path without links for that. -/
structure Meaningful (t : FileTree) (current path : Path) (text : String) : Prop where
  sized : ¬ HoldsOversized (charsOf text)
  valued : ∀ d, Document.first? text = .ok (some d) → d.Valued
  rooted : ∀ settings, parse text = .ok settings → settings.modelRoot.isAbsolute = false →
    ∃ root, t.resolve current (settings.modelRoot.under path.parent) = .ok root

/-- A configuration file that can be understood, be it right or wrong. It need not be there. -/
structure Legible (t : FileTree) (current path : Path) : Prop where
  named : (path.under current).nameFault? = none
  decoded : ∀ bytes, t.read (path.under current) = .ok bytes →
    ∃ cs, bytes = Utf8.bytesOf cs ∧ Meaningful t current path (written cs)

section Reports
variable {α β ε : Type}

/-- Something ends, or fails with a fault that is reported. -/
def Reports (r : Except Fault α) : Prop := ∀ f, r = .error f → f.isReported = true

theorem Reports.ok (a : α) : Reports (.ok a) := nofun

theorem Reports.error (reported : f.isReported = true) : Reports (α := α) (.error f) :=
  fun _ same => Except.error.inj same ▸ reported

theorem Reports.bind {r : Except Fault α} {k : α → Except Fault β} (first : Reports r)
    (next : ∀ a, r = .ok a → Reports (k a)) : Reports (r >>= k) := by
  cases r with
  | ok a => exact next a rfl
  | error f => exact .error (first f rfl)

theorem Reports.mapError {r : Except ε α} {g : ε → Fault}
    (each : ∀ e, r = .error e → (g e).isReported = true) : Reports (r.mapError g) := by
  cases r with
  | ok a => exact .ok a
  | error e => exact .error (each e rfl)

/-- What is wrong with a document is reported, unless it is a value. -/
theorem ofYaml_reported {e : Yaml.Failure} (other : ∀ f, e ≠ .value f) :
    (ofYaml text e).isReported = true := by
  cases e with
  | fault f => rfl
  | unacceptable code index => rfl
  | value f => exact absurd rfl (other f)

theorem parse_reports (sized : ¬ HoldsOversized (charsOf text))
    (valued : ∀ d, Document.first? text = .ok (some d) → d.Valued) : Reports (parse text) := by
  refine .bind (.mapError fun e failed => ofYaml_reported ?_) fun found first => ?_
  · rintro f rfl
    exact sized (Document.first?_failure failed)
  cases found with
  | none => exact .error rfl
  | some d =>
      have valued := valued d (ok_of_mapError first)
      refine .bind (.mapError fun e failed => ofYaml_reported ?_) fun built _ => ?_
      · rintro f rfl
        exact Document.build_fine valued f failed
      split
      · exact .mapError fun _ _ => rfl
      · exact .error rfl

theorem notRead_reported {f : FileFault} (other : ∀ g, f ≠ .name g) :
    (notRead path f).isReported = true := by
  unfold notRead
  split
  · rfl
  · rfl
  · rfl
  · rfl
  · exact absurd rfl (other _)

/-- A configuration file that can be understood gives settings or is refused for a fault of its
own. -/
theorem load_reports (legible : Legible t current path) : Reports (load t current path) := by
  refine .bind (.mapError fun f failed => notRead_reported ?_) fun bytes read => ?_
  · rintro g rfl
    exact FileTree.read_named legible.named g failed
  have read := ok_of_mapError read
  obtain ⟨cs, rfl, meaningful⟩ := legible.decoded bytes read
  have decoded := Utf8.decode_bytesOf cs
  refine .bind (.mapError fun f failed => ?_) fun text here => ?_
  · rw [decoded] at failed
    cases failed
  obtain rfl := Except.ok.inj (decoded.symm.trans (ok_of_mapError here))
  refine .bind (parse_reports meaningful.sized meaningful.valued) fun settings parsed => ?_
  split
  · exact .ok _
  · next relative =>
    obtain ⟨root, resolved⟩ :=
      meaningful.rooted settings parsed (Bool.eq_false_of_not_eq_true relative)
    rw [resolved]
    exact .ok _

end Reports

theorem load_undecodable {bytes : List UInt8} {f : Utf8.Fault}
    (read : t.read (path.under current) = .ok bytes) (stops : Utf8.decode bytes = .error f) :
    load t current path = .error (.undecodable f) := by
  simp only [load, read, stops, Except.mapError, bind, Except.bind]

end Configuration

namespace CommandLine
open DataModel.Configuration (Legible load_reports)
variable {t : FileTree} {current here : Path} {args : List String} {verbose : Bool}
  {command : Command} {configuration : String} {f : Configuration.Fault}

/-- Every command ends at a reported fault with one line and the code one. -/
theorem run_refused (home : t.directory current = .ok here)
    (request : parse args = .ok (.run verbose command configuration))
    (refused : Configuration.load t here (.ofString configuration) = .error f)
    (reported : f.isReported = true) (happenings : List Happening) :
    run t current args happenings =
      .ok (⟨1, "", s!"Error: {f.message (.ofString configuration)}\n"⟩, []) := by
  have opens : openStore t here configuration =
      .ok (.error (failed (f.message (.ofString configuration)))) := by
    unfold openStore
    dsimp only
    rw [refused]
    exact if_pos reported
  simp only [run, home, request, opens, Except.mapError, bind, Except.bind]
  rfl

/-- No command expects another fault. -/
theorem run_crashes (home : t.directory current = .ok here)
    (request : parse args = .ok (.run verbose command configuration))
    (refused : Configuration.load t here (.ofString configuration) = .error f)
    (unreported : f.isReported = false) (happenings : List Happening) :
    run t current args happenings = .error (.configuration (.ofString configuration) f) := by
  have opens : openStore t here configuration =
      .error (.configuration (.ofString configuration) f) := by
    unfold openStore
    dsimp only
    rw [refused]
    exact if_neg (Bool.not_eq_true _ ▸ unreported)
  simp only [run, home, request, opens, Except.mapError, bind, Except.bind]

/-- No command expects a configuration that is not text. -/
theorem run_undecodable {bytes : List UInt8} (home : t.directory current = .ok here)
    (request : parse args = .ok (.run verbose command configuration))
    (read : t.read ((Path.ofString configuration).under here) = .ok bytes)
    (invalid : ∀ cs, bytes ≠ Utf8.bytesOf cs) (happenings : List Happening) :
    ∃ f, Configuration.load t here (.ofString configuration) = .error (.undecodable f) ∧
      run t current args happenings =
        .error (.configuration (.ofString configuration) (.undecodable f)) := by
  obtain ⟨cs, b, rest, stops⟩ := Utf8.exists_stops invalid
  obtain ⟨length, reason, stops⟩ := stops.decode
  have failed := Configuration.load_undecodable read stops
  exact ⟨_, failed, run_crashes home request failed rfl happenings⟩

/-- A configuration that can be understood is opened, or is reported as bad. -/
theorem configuration_reported (home : t.directory current = .ok here)
    (request : parse args = .ok (.run verbose command configuration))
    (legible : Legible t here (.ofString configuration)) (happenings : List Happening) :
    (∃ settings, Configuration.load t here (.ofString configuration) = .ok settings) ∨
    ∃ f, Configuration.load t here (.ofString configuration) = .error f ∧ f.isReported = true ∧
      run t current args happenings =
        .ok (⟨1, "", s!"Error: {f.message (.ofString configuration)}\n"⟩, []) := by
  have reports := load_reports legible
  cases loaded : Configuration.load t here (.ofString configuration) with
  | ok settings => exact .inl ⟨settings, rfl⟩
  | error f =>
      have reported := reports f loaded
      exact .inr ⟨f, rfl, reported, run_refused home request loaded reported happenings⟩

namespace Misconfigured
open DataModel.Configuration (Meaningful written)
open DataModel.Yaml (Event EventStream HasValue)
open Orderly (directory_top read_configuration)

/-- A disk with nothing but a configuration. -/
def disk (bytes : List UInt8) : FileTree := ⟨[(["c"], .file bytes (.time 0))], 0, 0⟩

theorem read_disk (bytes : List UInt8) : (disk bytes).read ⟨"/", ["c"]⟩ = .ok bytes :=
  read_configuration rfl

/-- A byte that begins no character is not reported. -/
theorem configuration_undecodable :
    let f : Configuration.Fault := .undecodable ⟨0, 0xff, 1, .invalidStart⟩
    Configuration.load (disk [0xff]) ⟨"/", []⟩ (.ofString "/c") = .error f ∧ f.isReported = false ∧
      ∀ command ∈ Command.all, run (disk [0xff]) ⟨"/", []⟩ [command.name, "/c"] [] =
        .error (.configuration (.ofString "/c") f) := by
  have failed : Configuration.load (disk [0xff]) ⟨"/", []⟩ (.ofString "/c") =
      .error (.undecodable ⟨0, 0xff, 1, .invalidStart⟩) :=
    Configuration.load_undecodable (read_disk [0xff]) rfl
  refine ⟨failed, rfl, fun command _ => ?_⟩
  have request : parse [command.name, "/c"] = .ok (.run false command "/c") := by
    cases command <;> rfl
  exact run_crashes (directory_top _) request failed rfl []

/-- The text of a configuration with a number for a name. -/
def numbered : List Char := "'app': 7\n".toList

def events : List Event :=
  [⟨.streamStart, .start⟩, ⟨.documentStart, .start⟩, ⟨.mappingStart .none, .start⟩,
    ⟨.scalar .none "app" false, .start⟩, ⟨.scalar .none "7" true, ⟨7, 0, 7⟩⟩,
    ⟨.mappingEnd, ⟨9, 1, 0⟩⟩, ⟨.documentEnd, ⟨9, 1, 0⟩⟩, ⟨.streamEnd, ⟨9, 1, 0⟩⟩]

def document : Document :=
  ⟨#[⟨Yaml.Tag.mapping, .mapping [(1, 2)], .start⟩, ⟨Yaml.Tag.text, .scalar "app", .start⟩,
    ⟨Yaml.Tag.integer, .scalar "7", ⟨7, 0, 7⟩⟩], 0⟩

def values : List (Yaml.NodeId × Yaml.Value) := [(2, .integer 7), (1, .text "app")]

theorem document_numbered : Document.first? (written numbered) = .ok (some document) := by
  have stream : EventStream.ofText "'app': 7\n" = ⟨events, none⟩ := by cbv
  have composed : Yaml.Compose.document.run ⟨events, none, #[], []⟩ =
      .ok (some 0, ⟨[⟨.documentEnd, ⟨9, 1, 0⟩⟩, ⟨.streamEnd, ⟨9, 1, 0⟩⟩], none,
        document.nodes, []⟩) := rfl
  rw [show written numbered = "'app': 7\n" from rfl]
  unfold Document.first?
  rw [stream]
  dsimp only
  rw [composed]
  rfl

theorem parse_numbered :
    Configuration.parse (written numbered) = .error (.invalid [⟨"app", none, .noText⟩]) := by
  have built : document.build = .ok ⟨document, values⟩ := rfl
  have read : Configuration.ofPairs ⟨document, values⟩ [(1, 2)] =
      .error [⟨"app", none, .noText⟩] := rfl
  have root : Yaml.Built.value ⟨document, values⟩ 0 = .mapping [(1, 2)] := rfl
  simp only [Configuration.parse, document_numbered, built, Except.mapError, bind, Except.bind]
  rw [show document.root = 0 from rfl, root]
  dsimp only
  rw [read]

theorem pair_numbered (key value : Yaml.NodeId) (pair : document.IsPair key value) :
    key = 1 ∧ value = 2 := by
  obtain ⟨id, member⟩ := pair
  cases id with
  | zero => exact Prod.mk.inj (List.mem_singleton.mp member)
  | succ id =>
      match id, member with
      | 0, member => cases member
      | 1, member => cases member
      | _ + 2, member => cases member

/-- The only text that is read for a type is that of the number. -/
theorem valued_numbered : document.Valued where
  texts id text reads := by
    have own := reads.scalar fun key value pair => by
      rw [(pair_numbered key value pair).1]
      decide
    match id, own with
    | 0, own => cases own
    | 1, _ => exact .untyped text (by decide)
    | 2, own =>
        cases own
        exact ⟨fun same => absurd same (by decide), fun _ => ⟨.integer 7, rfl⟩,
          fun same => absurd same (by decide), fun same => absurd same (by decide)⟩
    | n + 3, _ =>
        rw [show document.tagOf (n + 3) = "" from rfl]
        exact .untyped text (by decide)
  times id tag mapping := by
    match id, tag with
    | 0, tag => exact absurd tag (by decide)
    | 1, tag => exact absurd tag (by decide)
    | 2, tag => exact absurd tag (by decide)
    | n + 3, tag =>
        rw [show document.tagOf (n + 3) = "" from rfl] at tag
        exact absurd tag (by decide)

theorem meaningful_numbered (t : FileTree) (current path : Path) :
    Meaningful t current path (written numbered) where
  sized := Yaml.not_holdsOversized (by decide)
  valued d found := by
    rw [document_numbered] at found
    cases found
    exact valued_numbered
  rooted settings parsed := by
    rw [parse_numbered] at parsed
    cases parsed

theorem load_numbered :
    Configuration.load (disk (Utf8.bytesOf numbered)) ⟨"/", []⟩ (.ofString "/c") =
      .error (.invalid [⟨"app", none, .noText⟩]) := by
  have place : (Path.ofString "/c").under ⟨"/", []⟩ = ⟨"/", ["c"]⟩ := rfl
  have parsed : Configuration.parse
      (String.ofList (Configuration.withLineFeeds (ofChars numbered).toList)) =
      .error (.invalid [⟨"app", none, .noText⟩]) := parse_numbered
  simp only [Configuration.load, place, read_disk, Utf8.decode_bytesOf, parsed, Except.mapError,
    bind, Except.bind]

theorem legible_numbered :
    Legible (disk (Utf8.bytesOf numbered)) ⟨"/", []⟩ (.ofString "/c") where
  named := rfl
  decoded bytes read := by
    rw [show (Path.ofString "/c").under ⟨"/", []⟩ = ⟨"/", ["c"]⟩ from rfl, read_disk] at read
    cases read
    exact ⟨numbered, rfl, meaningful_numbered _ _ _⟩

theorem configuration_reported_numbered :
    ((disk (Utf8.bytesOf numbered)).directory ⟨"/", []⟩ = .ok ⟨"/", []⟩ ∧
      parse ["check", "/c"] = .ok (.run false .check "/c") ∧
      Legible (disk (Utf8.bytesOf numbered)) ⟨"/", []⟩ (.ofString "/c")) ∧
    run (disk (Utf8.bytesOf numbered)) ⟨"/", []⟩ ["check", "/c"] [] = .ok
      (⟨1, "", "Error: Invalid configuration /c: 1 validation error for ModelConfig\n"⟩, []) := by
  refine ⟨⟨directory_top _, Orderly.parse_check, legible_numbered⟩, ?_⟩
  rcases configuration_reported (directory_top _) Orderly.parse_check legible_numbered [] with
    ⟨settings, loaded⟩ | ⟨f, failed, -, ended⟩
  · rw [load_numbered] at loaded
    cases loaded
  · rw [load_numbered] at failed
    cases failed
    exact ended

end Misconfigured
end CommandLine
end DataModel
