import DataModel.Path.Fault

/-!
A tree of files with links. An entry stands at the components of its place below the root, and
all its parents are directories. A path is followed component by component; links on the way are
replaced by their targets, up to a bound that only circles reach.
-/
namespace DataModel
open DataModel.Text

/-- When an entry was last changed. Only equality of stamps says something. -/
inductive Stamp where
  | time (t : Rat)
  /-- A directory's, by the number of changes of the tree before. -/
  | changes (n : Nat)
  deriving DecidableEq

inductive Node where
  | file (bytes : List UInt8) (stamp : Stamp)
  | directory (stamp : Stamp)
  | link (target : String)
  deriving DecidableEq

inductive FileFault.Cause where
  | missing
  | exists
  | notDirectory
  | isDirectory
  | nameTooLong
  | linkLoop
  deriving DecidableEq

def FileFault.Cause.number : FileFault.Cause → Nat
  | .missing => 2
  | .exists => 17
  | .notDirectory => 20
  | .isDirectory => 21
  | .nameTooLong => 36
  | .linkLoop => 40

def FileFault.Cause.text : FileFault.Cause → String
  | .missing => "No such file or directory"
  | .exists => "File exists"
  | .notDirectory => "Not a directory"
  | .isDirectory => "Is a directory"
  | .nameTooLong => "File name too long"
  | .linkLoop => "Too many levels of symbolic links"

/-- Why a path gives no file. -/
inductive FileFault where
  | system (cause : FileFault.Cause) (path : String)
  /-- A time that could not be set; no report of it names the path. -/
  | time (cause : FileFault.Cause)
  | name (f : NameFault)
  deriving DecidableEq

def FileFault.message : FileFault → String
  | .system cause path => s!"[Errno {cause.number}] {cause.text}: {quoted path}"
  | .time cause => s!"[Errno {cause.number}] {cause.text}"
  | .name f => f.message

def FileFault.cause? : FileFault → Option FileFault.Cause
  | .system cause _ | .time cause => some cause
  | .name _ => none

abbrev Place := List String

structure FileTree where
  entries : List (Place × Node)
  /-- The number of writes and touches, which is the time of the next one. -/
  writes : Nat
  /-- The number of changes. -/
  changes : Nat

namespace FileTree

def node? (t : FileTree) (p : Place) : Option Node :=
  if p.isEmpty then some (.directory (.changes 0)) else t.entries.lookup p

/-- The links that a path may follow. -/
def maxLinks : Nat := 40

/-- Follows components from a directory to an existing place. A link at the end is followed only
if `follow` says so. -/
def locate (t : FileTree) (follow : Bool) (links : Nat) (here : Place) (parts : List String) :
    Except FileFault.Cause Place :=
  match parts with
  | [] => .ok here
  | name :: rest =>
    if name = ".." then t.locate follow links here.dropLast rest
    else if Path.isLongName name then .error .nameTooLong
    else
      let next := here ++ [name]
      match t.node? next with
      | none => .error .missing
      | some (.directory _) => t.locate follow links next rest
      | some (.file ..) => if rest.isEmpty then .ok next else .error .notDirectory
      | some (.link target) =>
        if rest.isEmpty && !follow then .ok next
        else
          match links with
          | 0 => .error .linkLoop
          | links + 1 =>
            let p := Path.ofString target
            t.locate follow links (if p.isAbsolute then [] else here) (p.parts ++ rest)
  termination_by (links, parts.length)

/-- The limits that hold for every path, whatever is in the tree. -/
def checkPath (p : Path) : Except FileFault Unit :=
  match p.nameFault? with
  | some f => .error (.name f)
  | none => if p.isLong then .error (.system .nameTooLong p.toString) else .ok ()

def find (t : FileTree) (p : Path) : Except FileFault (Place × Node) := do
  checkPath p
  match t.locate true maxLinks [] p.parts with
  | .error cause => throw (.system cause p.toString)
  | .ok place =>
    match t.node? place with
    | some node => return (place, node)
    | none => throw (.system .missing p.toString)

/-- What is at a path, if anything is. Nothing can be said of names that are too long. -/
def find? (t : FileTree) (p : Path) : Except FileFault (Option Node) :=
  match t.find p with
  | .ok (_, node) => .ok (some node)
  | .error f => if f.cause? = some .nameTooLong then .error f else .ok none

def exists? (t : FileTree) (p : Path) : Except FileFault Bool := (t.find? p).map (·.isSome)

def isDirectory (t : FileTree) (p : Path) : Except FileFault Bool :=
  (t.find? p).map fun
    | some (.directory _) => true
    | _ => false

/-- The directory that a path leads to, from the root on. -/
def directory (t : FileTree) (p : Path) : Except FileFault Path := do
  match ← t.find p with
  | (place, .directory _) => return ⟨"/", place⟩
  | _ => throw (.system .notDirectory p.toString)

def read (t : FileTree) (p : Path) : Except FileFault (List UInt8) := do
  match ← t.find p with
  | (_, .file bytes _) => return bytes
  | _ => throw (.system .isDirectory p.toString)

def stamp (t : FileTree) (p : Path) : Except FileFault Stamp := do
  match ← t.find p with
  | (_, .file _ s) | (_, .directory s) => return s
  | (_, .link _) => throw (.system .linkLoop p.toString)

/-- Replaces the links in components by their targets, whether the places exist or not. `opened`
are the links on the way that are not replaced yet; meeting one of them again ends the walk, and
the flag is false. -/
def withoutLinks (t : FileTree) (depth : Nat) (opened : List Place) (here : Place)
    (parts : List String) : Place × Bool :=
  match parts with
  | [] => (here, true)
  | name :: rest =>
    if name = ".." then t.withoutLinks depth opened here.dropLast rest
    else
      let next := here ++ [name]
      match t.node? next with
      | some (.link target) =>
        match depth with
        | 0 => (next ++ rest, false)
        | depth' + 1 =>
          if opened.contains next then (next ++ rest, false)
          else
            let p := Path.ofString target
            let (real, known) :=
              t.withoutLinks depth' (next :: opened) (if p.isAbsolute then [] else here) p.parts
            if known then t.withoutLinks (depth' + 1) opened real rest else (real ++ rest, false)
      | _ => t.withoutLinks depth opened next rest
  termination_by (depth, parts.length)

/-- The absolute path without links and dots that a path stands for. -/
def resolve (t : FileTree) (current p : Path) : Except PathFault Path :=
  match p.firstNameFault? with
  | some f => .error (.name f)
  | none =>
    let (place, _) := t.withoutLinks (t.entries.length + 1) [] [] (p.under current).parts
    let real : Path := ⟨"/", Path.collapseDots place⟩
    match t.locate true maxLinks [] real.parts with
    | .error .linkLoop => .error (.linkLoop real.toString)
    | _ => .ok real

/-- The entries below a directory whose names end in the suffix of model files; linked directories
are not entered. -/
def modelFiles (t : FileTree) (root : Path) : Except FileFault (List Path) := do
  if !(← t.isDirectory root) then return []
  let (place, _) ← t.find root
  let below := t.entries.filterMap fun (p, _) =>
    if place.isPrefixOf p && place.length < p.length then some (p.drop place.length) else none
  let named := below.filter fun p =>
    modelSuffix.toList.isSuffixOf ((p.getLast?.getD "").toList)
  return (named.map fun p => { root with parts := root.parts ++ p }).mergeSort Path.le

end FileTree
end DataModel
