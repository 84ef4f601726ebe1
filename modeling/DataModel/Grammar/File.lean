import DataModel.Grammar.Section

/-!
The grammar of model files. The first document is the header; each further one is a mapping with
one key, which tells the kind of the section that its value holds.
-/
namespace DataModel.Grammar
open DataModel.Source

structure HeaderDraft where
  module : Option String := none
  tags : List String := []
  uses : List Reference := []

/-- Adds the tags that are not there yet. -/
def addTags (tags more : List String) : List String :=
  more.foldl (fun ts t => if ts.contains t then ts else ts ++ [t]) tags

def headerFields : Read.Fields HeaderDraft
  | "module" => some fun d => return { d with module := ← Read.string }
  | "tags" => some fun d => return { d with tags := addTags d.tags (← Read.strings) }
  | "uses" => some fun d => return { d with uses := ← readReferences }
  | _ => none

/-- Where a file is, what it is called, and its text. -/
structure FileIdentity where
  name : String
  path : String
  source : String

def readHeader (file : FileIdentity) : Read ModelFile := do
  discard (Read.expect [.documentStart])
  let start ← Read.current
  let d ← Read.fields "file header" headerFields {}
  discard (Read.expect [.documentEnd])
  let module ← Read.require d.module "module" "file header" start
  return {
    name := file.name, path := file.path, source := file.source, module, tags := d.tags
    uses := d.uses, domains := [], decorators := [], classes := [], endpoints := [], aliases := [] }

/-- What a section adds to its file. -/
inductive Section where
  | domain (d : Domain)
  | decorator (d : Decorator)
  | class (c : Class)
  | endpoint (e : Endpoint)
  | alias (a : FileAlias)

def Section.addTo (file : ModelFile) : Section → ModelFile
  | .domain d => { file with domains := file.domains ++ [d] }
  | .decorator d => { file with decorators := file.decorators ++ [d] }
  | .class c => { file with classes := file.classes ++ [c] }
  | .endpoint e => { file with endpoints := file.endpoints ++ [e] }
  | .alias a => { file with aliases := file.aliases ++ [a] }

/-- The reader of a section's value, by the section's key. -/
def section? (home : Namespace) (location : Reference) : String → Option (Read Section)
  | "domain" => some do return .domain { ← readDomain with location }
  | "decorator" => some do return .decorator { ← readDecorator with location }
  | "class" => some do return .class { ← readClass with location, home }
  | "endpoint" => some do return .endpoint { ← readEndpoint with location, home }
  | "alias" => some do return .alias { ← readFileAlias with location }
  | _ => none

def readSection (home : Namespace) : Read Section := do
  discard (Read.expect [.mappingStart])
  let key ← Read.scalar
  match section? home (reference key) key.value with
  | none => Read.reject (.unknownSection key.value) key
  | some read =>
    let s ← read
    discard (Read.expect [.mappingEnd])
    return s

/-- Reads the documents after the header. -/
def readSections (home : Namespace) : Nat → ModelFile → Read ModelFile
  | 0, _ => do Read.reject .endless (← Read.current)
  | fuel + 1, file => do
    if (← Read.accept .documentStart).isSome then
      let s ← readSection home
      discard (Read.expect [.documentEnd])
      readSections home fuel (s.addTo file)
    else return file

/-- Reads a whole file; a text without any document is none. -/
def readFile (app : String) (identity : FileIdentity) : Read (Option ModelFile) := do
  discard (Read.expect [.streamStart])
  if ← Read.check [.streamEnd] then return none
  let file ← readHeader identity
  let file ← readSections ⟨app, file.module⟩ (← Read.bound) file
  discard (Read.expect [.streamEnd])
  return some file

/-- The model file that a text holds. -/
def loadText (app : String) (identity : FileIdentity) : Except Failure (Option ModelFile) := do
  let reader ← Reader.ofText identity.source
  match ((readFile app identity).run reader).1 with
  | .ok file => return file
  | .error r => throw (.rejected r)

end DataModel.Grammar
