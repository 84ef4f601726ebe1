import DataModel.Grammar.File
import DataModel.Proofs.Model.Linked
import DataModel.Proofs.Model.Renaming
import DataModel.Proofs.Source.Reading

/-!
What a file holds when it was just loaded: the name, the path and the text that it was loaded
from, and no key at all, since a reader only writes down references. Whether a text holds a file
does not depend on what the file is called, and what the file holds does not depend on where it was
found.
-/
namespace DataModel

namespace Grammar
open Source Source.Read

section Sections

theorem variant_yields {slot : Nat} {key : String} {read : Reference → Read Property}
    (h : variant? slot key = some read) (location : Reference) :
    Yields (·.Declared slot) (read location) := by
  unfold variant? at h
  split at h
  · cases h
    refine .andThen fun _ => .andThen fun _ => .andThen fun _ => .andThen fun _ => .andThen fun _ =>
      .pure ⟨⟨.none, fun _ made => by cases made⟩, rfl, fun _ given => by cases given⟩
  · cases h
    refine .andThen fun _ => .andThen fun _ => .andThen fun _ => .andThen fun _ =>
      .pure ⟨⟨.none, fun _ made => by cases made⟩, rfl, fun _ given => by cases given⟩
  · cases h
    refine .andThen fun _ => .andThen fun _ => .andThen fun _ => .andThen fun _ => .andThen fun _ =>
      .pure ⟨⟨.none, .none⟩, rfl, fun _ given => by cases given⟩
  · cases h
    refine .andThen fun _ => .andThen fun _ => .andThen fun _ => .pure ⟨Answers.none, rfl, ?_⟩
    rintro _ ⟨⟩
    rfl
  · cases h

theorem readProperty_yields (slot : Nat) : Yields (·.Declared slot) (readProperty slot) := by
  unfold readProperty
  refine .andThen fun _ => ?_
  split
  · refine .andThen fun _ => .andThen fun leading => ?_
    split
    · next read found =>
      split
      · exact variant_yields found _
      · exact .reject _ _
    · exact .reject _ _
  · refine .andThen fun leading => ?_
    split
    · next read found =>
      split
      · exact variant_yields found _
      · exact .reject _ _
    · exact .reject _ _

theorem readProperties_yields {before : List Property} (h : Declares before) :
    Yields Declares (readProperties before) := by
  refine eachItem_yields (fun _ ps declared => ?_) h
  exact (readProperty_yields ps.length).bind fun p new => .pure (declared.snoc new)

theorem readClass_yields :
    Yields (fun c => c.Linked .none ∧ Declares c.properties) readClass := by
  have fields : Yields (fun d : ClassDraft => Declares d.properties)
      (Read.fields "class" classFields {}) := by
    refine fields_yields ?_ .nil
    intro key read known d declared
    unfold classFields at known
    split at known
    all_goals cases known
    all_goals first
      | exact (readProperties_yields declared).bind fun ps new => .pure new
      | exact .andThen fun _ => .pure declared
  refine .andThen fun _ => fields.bind fun d declared => .andThen fun _ => .andThen fun _ => ?_
  exact .pure ⟨⟨.none, .nil, fun p hp => (declared.forall p hp).1⟩, declared⟩

theorem readEndpoint_yields :
    Yields (fun e => e.Linked .none ∧ Declares e.params ∧
      ∀ p, e.returns = some p → p.origin? = none) readEndpoint := by
  have fields : Yields (fun d : EndpointDraft => Declares d.params ∧
      ∀ p, d.returns = some p → p.Declared 0) (Read.fields "endpoint" endpointFields {}) := by
    refine fields_yields ?_ ⟨.nil, fun p given => by cases given⟩
    intro key read known d declared
    unfold endpointFields at known
    split at known
    all_goals cases known
    all_goals first
      | exact (readProperties_yields declared.1).bind fun ps new => .pure ⟨new, declared.2⟩
      | exact (readProperty_yields 0).bind fun p new => .pure ⟨declared.1, by rintro _ ⟨⟩; exact new⟩
      | exact .andThen fun _ => .pure declared
  refine .andThen fun _ => fields.bind fun d declared => ?_
  exact .andThen fun _ => .andThen fun _ => .andThen fun _ =>
    .pure ⟨⟨fun p hp => (declared.1.forall p hp).1, fun p given => (declared.2 p given).unlinked⟩,
      declared.1, fun p given => (declared.2 p given).original⟩

theorem readConverter_yields : Yields (·.Linked .none) readConverter := by
  have fields : Yields (fun c : Converter => c.targets = [])
      (Read.fields "domain converter" converterFields ⟨[], [], []⟩) := by
    refine fields_yields ?_ rfl
    intro key read known d unbound
    unfold converterFields at known
    split at known
    · cases known
      exact .andThen fun _ => .pure unbound
    · split at known
      · cases known
        exact .andThen fun _ => .pure unbound
      · cases known
  refine .andThen fun _ => fields.bind fun c unbound => ?_
  split
  · exact .reject _ _
  · refine .pure ?_
    unfold Converter.Linked
    rw [unbound]
    exact .nil

theorem readDomain_yields : Yields (·.Linked .none) readDomain := by
  have fields : Yields (fun d : DomainDraft => ∀ c ∈ d.converters, c.Linked .none)
      (Read.fields "domain" domainFields {}) := by
    refine fields_yields ?_ fun c hc => absurd hc List.not_mem_nil
    intro key read known d linked
    unfold domainFields at known
    split at known
    all_goals try split at known
    all_goals cases known
    all_goals first
      | exact .andThen fun _ => .pure linked
      | refine (eachItem_yields (fun _ cs linked => ?_) linked).bind fun cs new => .pure new
        refine readConverter_yields.bind fun c new => .pure ?_
        exact List.forall_mem_append.mpr ⟨linked, List.forall_mem_singleton.mpr new⟩
  exact .andThen fun _ => fields.bind fun d linked => .andThen fun _ => .pure linked

/-- A section as it stands in the file, without a key or a copy in it. -/
def Section.Declared : Section → Prop
  | .domain d => d.Linked .none
  | .class c => c.Linked .none ∧ Declares c.properties
  | .endpoint e => e.Linked .none ∧ Declares e.params ∧ ∀ p, e.returns = some p → p.origin? = none
  | .decorator _ | .alias _ => True

theorem section_yields {home : Namespace} {location : Reference} {key : String}
    {read : Read Section} (h : section? home location key = some read) :
    Yields Section.Declared read := by
  unfold section? at h
  split at h
  · cases h
    exact readDomain_yields.bind fun d linked => .pure linked
  · cases h
    exact .andThen fun d => .pure trivial
  · cases h
    exact readClass_yields.bind fun c declared => .pure ⟨⟨declared.1.parent,
      declared.1.decorators, declared.1.properties⟩, declared.2⟩
  · cases h
    exact readEndpoint_yields.bind fun e declared => .pure ⟨⟨declared.1.params,
      declared.1.returns⟩, declared.2⟩
  · cases h
    exact .andThen fun a => .pure trivial
  · cases h

theorem readSection_yields (home : Namespace) : Yields Section.Declared (readSection home) := by
  unfold readSection
  refine .andThen fun _ => .andThen fun key => ?_
  split
  · exact .reject _ _
  · next read found =>
    exact (section_yields found).bind fun s declared => .andThen fun _ => .pure declared

end Sections

section Files

/-- A file just loaded from a place and a text. -/
structure LoadedFrom (identity : FileIdentity) (f : ModelFile) : Prop where
  name : f.name = identity.name
  path : f.path = identity.path
  source : f.source = identity.source
  declared : f.Declared

theorem LoadedFrom.addTo {identity : FileIdentity} {f : ModelFile} (h : LoadedFrom identity f)
    {s : Section} (declared : s.Declared) : LoadedFrom identity (s.addTo f) := by
  obtain ⟨⟨domains, classes, endpoints⟩, ofClasses, ofEndpoints⟩ := h.declared
  cases s with
  | domain d =>
      have linked := List.forall_mem_append.mpr ⟨domains, List.forall_mem_singleton.mpr declared⟩
      exact ⟨h.name, h.path, h.source, ⟨linked, classes, endpoints⟩, ofClasses, ofEndpoints⟩
  | decorator d =>
      exact ⟨h.name, h.path, h.source, ⟨domains, classes, endpoints⟩, ofClasses, ofEndpoints⟩
  | «class» c =>
      have linked := List.forall_mem_append.mpr ⟨classes, List.forall_mem_singleton.mpr declared.1⟩
      exact ⟨h.name, h.path, h.source, ⟨domains, linked, endpoints⟩,
        List.forall_mem_append.mpr ⟨ofClasses, List.forall_mem_singleton.mpr declared.2⟩,
        ofEndpoints⟩
  | endpoint e =>
      have linked := List.forall_mem_append.mpr
        ⟨endpoints, List.forall_mem_singleton.mpr declared.1⟩
      exact ⟨h.name, h.path, h.source, ⟨domains, classes, linked⟩, ofClasses,
        List.forall_mem_append.mpr ⟨ofEndpoints, List.forall_mem_singleton.mpr declared.2⟩⟩
  | «alias» a =>
      exact ⟨h.name, h.path, h.source, ⟨domains, classes, endpoints⟩, ofClasses, ofEndpoints⟩

theorem readHeader_yields (identity : FileIdentity) :
    Yields (LoadedFrom identity) (readHeader identity) := by
  unfold readHeader
  refine .andThen fun _ => .andThen fun _ => .andThen fun d => .andThen fun _ => .andThen fun _ => ?_
  exact .pure ⟨rfl, rfl, rfl, ⟨fun _ h => absurd h List.not_mem_nil,
    fun _ h => absurd h List.not_mem_nil, fun _ h => absurd h List.not_mem_nil⟩,
    fun _ h => absurd h List.not_mem_nil, fun _ h => absurd h List.not_mem_nil⟩

theorem readSections_yields {identity : FileIdentity} (home : Namespace) (fuel : Nat)
    {f : ModelFile} (h : LoadedFrom identity f) :
    Yields (LoadedFrom identity) (readSections home fuel f) := by
  induction fuel generalizing f with
  | zero => exact .andThen fun _ => .reject _ _
  | succ fuel ih =>
      rw [readSections]
      refine .andThen fun start => ?_
      split
      · refine (readSection_yields home).bind fun s declared => .andThen fun _ => ?_
        exact ih (h.addTo declared)
      · exact .pure h

theorem readFile_yields (app : String) (identity : FileIdentity) :
    Yields (fun o => ∀ f, o = some f → LoadedFrom identity f) (readFile app identity) := by
  unfold readFile
  refine .andThen fun _ => .andThen fun empty => ?_
  split
  · exact .pure fun _ given => by cases given
  · refine (readHeader_yields identity).bind fun f header => .andThen fun fuel => ?_
    refine (readSections_yields _ fuel header).bind fun f' whole => .andThen fun _ => .pure ?_
    rintro _ ⟨⟩
    exact whole

/-- Loading stops where reading starts to fail, or rejects what the reader does not take. -/
theorem loadText_eq (app : String) (identity : FileIdentity) :
    loadText app identity = (Reader.ofText identity.source).bind fun reader =>
      (((readFile app identity).run reader).1).mapError .rejected := by
  unfold loadText
  cases Reader.ofText identity.source with
  | error e => rfl
  | ok reader =>
      simp only [bind, Except.bind]
      cases ((readFile app identity).run reader).1 <;> rfl

theorem loadText_run {app : String} {identity : FileIdentity} {o : Option ModelFile}
    (h : loadText app identity = .ok o) : ∃ reader, Reader.ofText identity.source = .ok reader ∧
      ((readFile app identity).run reader).1 = .ok o := by
  rw [loadText_eq] at h
  cases known : Reader.ofText identity.source with
  | error e =>
      rw [known] at h
      cases h
  | ok reader =>
      refine ⟨reader, rfl, ?_⟩
      rw [known, Except.bind] at h
      cases done : ((readFile app identity).run reader).1 with
      | error r =>
          rw [done] at h
          cases h
      | ok o' =>
          rw [done] at h
          cases h
          rfl

theorem loadText_loadedFrom {app : String} {identity : FileIdentity} {f : ModelFile}
    (h : loadText app identity = .ok (some f)) : LoadedFrom identity f := by
  obtain ⟨reader, -, done⟩ := loadText_run h
  exact readFile_yields app identity reader (some f) done f rfl

end Files

section Renaming

/-- A file as it would be under another name and at another place. -/
def relabel (name path : String) (f : ModelFile) : ModelFile := { f with name, path }

theorem Section.addTo_relabel (s : Section) (f : ModelFile) (name path : String) :
    s.addTo (relabel name path f) = relabel name path (s.addTo f) := by
  cases s <;> rfl

theorem readHeader_relabel (identity : FileIdentity) (name path : String) :
    readHeader { identity with name, path } = relabel name path <$> readHeader identity := by
  simp [readHeader, relabel]

theorem readSections_relabel (home : Namespace) (name path : String) (fuel : Nat) (f : ModelFile) :
    readSections home fuel (relabel name path f) =
      relabel name path <$> readSections home fuel f := by
  induction fuel generalizing f with
  | zero => rfl
  | succ fuel ih =>
      simp only [readSections, map_bind]
      refine bind_congr fun start => ?_
      split
      · simp only [map_bind, Section.addTo_relabel, ih]
      · simp

theorem readFile_relabel (app : String) (identity : FileIdentity) (name path : String) :
    readFile app { identity with name, path } =
      Option.map (relabel name path) <$> readFile app identity := by
  simp only [readFile, map_bind, readHeader_relabel, bind_map_left]
  refine bind_congr fun _ => bind_congr fun empty => ?_
  split
  · simp
  · simp only [map_bind]
    refine bind_congr fun f => bind_congr fun fuel => ?_
    rw [readSections_relabel]
    simp [relabel]

/-- What a text holds does not depend on where it is found and what it is called there. -/
theorem loadText_relabel (app : String) (identity : FileIdentity) (name path : String) :
    loadText app { identity with name, path } =
      (loadText app identity).map (Option.map (relabel name path)) := by
  rw [loadText_eq, loadText_eq]
  cases Reader.ofText identity.source with
  | error e => rfl
  | ok reader =>
      have same : ((readFile app { identity with name, path }).run reader).1 =
          (((readFile app identity).run reader).1).map (Option.map (relabel name path)) := by
        rw [readFile_relabel, ExceptT.run_map]
        rfl
      dsimp only [Except.bind]
      rw [same]
      cases ((readFile app identity).run reader).1 <;> rfl

/-- A text that holds a file holds one under any name and at any place. -/
theorem loadText_again {app : String} {identity : FileIdentity} {f : ModelFile}
    (h : loadText app identity = .ok (some f)) {name path source : String}
    (same : source = identity.source) :
    loadText app ⟨name, path, source⟩ = .ok (some (relabel name path f)) := by
  rw [same, loadText_relabel app identity name path, h]
  rfl

theorem loadText_ne_none {app : String} {identity identity' : FileIdentity} {f : ModelFile}
    (h : loadText app identity = .ok (some f)) (same : identity'.source = identity.source) :
    loadText app identity' ≠ .ok none := by
  rw [show identity' = ⟨identity'.name, identity'.path, identity'.source⟩ from rfl,
    loadText_again h same]
  nofun

/-- A text holds the same file wherever it is found. -/
theorem loadText_movedTo {app : String} {identity : FileIdentity} {f : ModelFile}
    (h : loadText app identity = .ok (some f)) (path : String) :
    loadText app { identity with path } = .ok (some (f.movedTo path)) := by
  have named := (loadText_loadedFrom h).name
  rw [loadText_relabel app identity identity.name path, h, ← named]
  rfl

end Renaming
end Grammar
end DataModel
