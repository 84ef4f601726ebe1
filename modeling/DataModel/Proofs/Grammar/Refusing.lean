import DataModel.Proofs.Grammar.Loading
import DataModel.Proofs.Yaml.Lexing
import DataModel.Proofs.Yaml.Parsing
import DataModel.Source.Encoding

/-!
How texts and bytes are refused. A text without oversized numbers is read or rejected, and what is
wrong with some bytes does not depend on the file that they are found in.
-/
namespace DataModel
open DataModel.Text DataModel.Yaml

namespace Source

theorem ofYaml_error {e : Yaml.Event} {f : Failure} (h : Event.ofYaml e = .error f) :
    ∃ r, f = .rejected r := by
  unfold Event.ofYaml at h
  split at h
  · cases h
  · cases h
    exact ⟨_, rfl⟩

theorem mapM_ofYaml_error {es : List Yaml.Event} {f : Failure}
    (h : es.mapM Event.ofYaml = .error f) : ∃ r, f = .rejected r := by
  induction es with
  | nil => cases h
  | cons e rest ih =>
      rw [List.mapM_cons] at h
      cases first : Event.ofYaml e with
      | error f' =>
          rw [first] at h
          cases h
          exact ofYaml_error first
      | ok e' =>
          rw [first] at h
          cases others : rest.mapM Event.ofYaml with
          | error f' =>
              rw [others] at h
              cases h
              exact ih others
          | ok es' =>
              rw [others] at h
              cases h

theorem events_value {text : String} {f : ValueFault} (h : events text = .error (.value f)) :
    HoldsOversized (charsOf text) := by
  unfold events at h
  cases read : (EventStream.ofText text).events.mapM Event.ofYaml with
  | error failure =>
      obtain ⟨r, rfl⟩ := mapM_ofYaml_error read
      simp only [read, bind, Except.bind] at h
      cases h
  | ok es =>
      simp only [read, bind, Except.bind] at h
      cases ended : (EventStream.ofText text).failure with
      | none =>
          rw [ended] at h
          cases h
      | some failure =>
          rw [ended] at h
          cases failure with
          | fault _ => cases h
          | unacceptable _ _ => cases h
          | value f' => exact TokenStream.ofText_failure (EventStream.ofTokens_failure ended)

/-- A text without oversized numbers has events, or it is rejected. -/
theorem events_rejects {text : String} (sized : ¬ HoldsOversized (charsOf text)) :
    (∃ es, events text = .ok es) ∨ ∃ r, events text = .error (.rejected r) := by
  cases read : events text with
  | ok es => exact .inl ⟨es, rfl⟩
  | error failure =>
      cases failure with
      | rejected r => exact .inr ⟨r, rfl⟩
      | value f => exact absurd (events_value read) sized

end Source

namespace Grammar
open Source

/-- A text without oversized numbers holds a file, or none, or it is rejected. -/
theorem loadText_rejects (app : String) (identity : FileIdentity)
    (sized : ¬ HoldsOversized (charsOf identity.source)) :
    (∃ f, loadText app identity = .ok f) ∨ ∃ r, loadText app identity = .error (.rejected r) := by
  rw [loadText_eq, Reader.ofText]
  rcases events_rejects sized with ⟨es, read⟩ | ⟨r, read⟩
  · rw [read]
    cases ended : ((readFile app identity).run (.ofEvents es)).1 with
    | ok f =>
        refine .inl ⟨f, ?_⟩
        simp only [Except.map, Except.bind, ended, Except.mapError]
    | error r =>
        refine .inr ⟨r, ?_⟩
        simp only [Except.map, Except.bind, ended, Except.mapError]
  · rw [read]
    exact .inr ⟨r, rfl⟩

/-- Why bytes cannot be loaded as a file, if they are rejected. -/
def refusal? (app : String) (bytes : List UInt8) : Option Rejection :=
  match decodeText bytes with
  | .error r => some r
  | .ok text =>
    match loadText app ⟨"", "", text⟩ with
    | .error (.rejected r) => some r
    | _ => none

theorem loadText_error_iff {app name path text : String} {e : Source.Failure} :
    loadText app ⟨name, path, text⟩ = .error e ↔ loadText app ⟨"", "", text⟩ = .error e := by
  rw [loadText_relabel app ⟨"", "", text⟩ name path]
  cases loadText app ⟨"", "", text⟩ <;> simp [Except.map]

/-- Bytes that are refused are no text, or a text that is rejected under any name. -/
theorem refusal?_cases {app : String} {bytes : List UInt8} {r : Rejection}
    (refused : refusal? app bytes = some r) : decodeText bytes = .error r ∨
      ∃ text, decodeText bytes = .ok text ∧
        ∀ name path, loadText app ⟨name, path, text⟩ = .error (.rejected r) := by
  unfold refusal? at refused
  cases decoded : decodeText bytes with
  | error r' =>
      rw [decoded] at refused
      cases refused
      exact .inl rfl
  | ok text =>
      rw [decoded] at refused
      dsimp only at refused
      split at refused
      · next r' rejected =>
        cases refused
        exact .inr ⟨text, rfl, fun _ _ => loadText_error_iff.mpr rejected⟩
      · cases refused

end Grammar
end DataModel
