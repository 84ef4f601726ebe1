/-!
Paths as texts name them: a root and components. Empty and single-dot components mean nothing and
are dropped; double dots are kept, since a link may stand before them.
-/
namespace DataModel

/-- The suffix of model files. -/
def modelSuffix : String := ".tmd"

structure Path where
  /-- Empty for a relative path; two slashes at the start of a path are a root of their own. -/
  root : String
  parts : List String
  deriving DecidableEq, Inhabited

namespace Path

/-- The components between slashes, the empty ones included. -/
def splitSlashes : List Char → List (List Char)
  | [] => [[]]
  | c :: rest =>
    match splitSlashes rest with
    | [] => [[]]
    | part :: parts => if c == '/' then [] :: part :: parts else (c :: part) :: parts

def rootOf (text : List Char) : String :=
  match text.takeWhile (· == '/') with
  | [] => ""
  | ['/', '/'] => "//"
  | _ => "/"

def ofString (s : String) : Path :=
  let parts := (splitSlashes s.toList).map String.ofList
  ⟨rootOf s.toList, parts.filter fun p => p != "" && p != "."⟩

def isAbsolute (p : Path) : Bool := p.root != ""

/-- The text of a path; that of the empty path is a dot. -/
def toString (p : Path) : String :=
  if p.root == "" && p.parts.isEmpty then "." else p.root ++ "/".intercalate p.parts

/-- A path as seen from another one. -/
def under (p base : Path) : Path :=
  if p.isAbsolute then p else ⟨base.root, base.parts ++ p.parts⟩

def child (p : Path) (name : String) : Path := { p with parts := p.parts ++ [name] }

def parent (p : Path) : Path := { p with parts := p.parts.dropLast }

def name? (p : Path) : Option String := p.parts.getLast?

/-- The components of a path below another one. -/
def relativeTo? (p base : Path) : Option Path :=
  if base.root == p.root && base.parts.isPrefixOf p.parts then
    some ⟨"", p.parts.drop base.parts.length⟩
  else none

/-- Paths are compared component by component. -/
def le (p q : Path) : Bool :=
  let key (r : Path) := if r.root == "" then r.parts else r.root :: r.parts
  !(key q < key p)

/-- A double dot takes back the component before it, if there is one. -/
def collapseDots (parts : List String) : List String :=
  let back := parts.foldl (fun (back : List String) p => if p == ".." then back.tail else p :: back) []
  back.reverse

/-- A text without a suffix that it ends with. -/
def withoutSuffix (suffix text : String) : String :=
  if suffix.toList.isSuffixOf text.toList then
    String.ofList (text.toList.take (text.length - suffix.length))
  else text

end Path
end DataModel
