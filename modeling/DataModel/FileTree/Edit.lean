import DataModel.FileTree

/-!
Changes of a tree of files. Writing creates the directories on the way; every write and every
touch has a time of its own, unless it is given one.
-/
namespace DataModel.FileTree

/-- What is put at a place. -/
inductive Content where
  | bytes (b : List UInt8)
  | directory
  | link (target : String)

inductive Edit where
  | write (path : Path) (content : Content) (time : Option Rat)
  | delete (path : Path)
  | touch (path : Path) (time : Option Rat)

/-- The time of the first write is one later. -/
def startTime : Nat := 1000

/-- A tree that holds nothing but a directory. -/
def empty (root : Path) : FileTree :=
  ⟨root.onTheWay.map fun p => (p.parts, .directory (.changes 0)), startTime, 0⟩

def put (t : FileTree) (p : Place) (n : Node) : FileTree :=
  { t with entries := t.entries.filter (fun e => e.1 != p) ++ [(p, n)] }

/-- Marks a directory as changed. -/
def markChanged (t : FileTree) (p : Place) : FileTree :=
  match t.node? p with
  | some (.directory _) => if p.isEmpty then t else t.put p (.directory (.changes t.changes))
  | _ => t

/-- Puts a new entry into its directory. -/
def add (t : FileTree) (p : Place) (n : Node) : FileTree :=
  (t.put p n).markChanged p.dropLast

/-- Makes the missing directories of a path, from the root on. -/
def makeDirectories (t : FileTree) (p : Path) : Except FileFault FileTree := do
  checkPath p
  p.onTheWay.foldlM (fun t q =>
    match t.locate true maxLinks [] q.parts with
    | .ok place =>
      match t.node? place with
      | some (.directory _) => .ok t
      | _ => .error (.system .exists p.toString)
    | .error .missing =>
      match t.locate true maxLinks [] q.parent.parts with
      | .ok parent =>
        .ok (t.add (parent ++ [q.name?.getD ""]) (.directory (.changes t.changes)))
      | .error cause => .error (.system cause p.toString)
    | .error .nameTooLong => .error (.system .nameTooLong q.toString)
    | .error cause => .error (.system cause p.toString)) t

/-- The place that writing to a path creates or replaces. -/
def target (t : FileTree) (p : Path) : Except FileFault Place := do
  checkPath p
  match t.locate true maxLinks [] p.parts with
  | .ok place =>
    match t.node? place with
    | some (.directory _) => throw (.system .isDirectory p.toString)
    | _ => return place
  | .error .missing =>
    let (place, _) := t.withoutLinks (t.entries.length + 1) [] [] p.parts
    match t.locate true maxLinks [] place.dropLast with
    | .ok parent => return parent ++ [place.getLast?.getD ""]
    | .error cause => throw (.system cause p.toString)
  | .error cause => throw (.system cause p.toString)

/-- The tree with the next time, and that time or the given one. -/
def tick (t : FileTree) (time : Option Rat) : FileTree × Stamp :=
  ({ t with writes := t.writes + 1 }, .time (time.getD (t.writes + 1)))

def write (t : FileTree) (p : Path) (content : Content) (time : Option Rat) :
    Except FileFault FileTree := do
  match content with
  | .bytes b =>
    let t ← t.makeDirectories p.parent
    let place ← t.target p
    let (t, stamp) := t.tick time
    let file := Node.file b stamp
    return if (t.node? place).isSome then t.put place file else t.add place file
  | .directory => t.makeDirectories p
  | .link target =>
    let t ← t.makeDirectories p.parent
    checkPath p
    match t.locate true maxLinks [] p.parent.parts with
    | .error cause => throw (.system cause p.toString)
    | .ok parent =>
      let place := parent ++ [p.name?.getD ""]
      if (t.node? place).isSome then throw (.system .exists p.toString)
      return t.add place (.link target)

/-- Deletes an entry with everything below it; a missing one needs no deleting. -/
def delete (t : FileTree) (p : Path) : FileTree :=
  match t.locate false maxLinks [] p.parts with
  | .error _ => t
  | .ok place =>
    if place.isEmpty then t
    else ({ t with entries := t.entries.filter fun e => !place.isPrefixOf e.1 }).markChanged
      place.dropLast

def touch (t : FileTree) (p : Path) (time : Option Rat) : Except FileFault FileTree := do
  let (place, node) ← (t.find p).mapError fun
    | .system cause _ => .time cause
    | f => f
  let (t, stamp) := t.tick time
  match node with
  | .file b _ => return t.put place (.file b stamp)
  | .directory _ => return t.put place (.directory stamp)
  | .link _ => return t

def edit (t : FileTree) (e : Edit) : Except FileFault FileTree :=
  let t := { t with changes := t.changes + 1 }
  match e with
  | .write p content time => t.write p content time
  | .delete p => .ok (t.delete p)
  | .touch p time => t.touch p time

end DataModel.FileTree
