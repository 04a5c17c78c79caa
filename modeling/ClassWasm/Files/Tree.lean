/-
  A tree of files in memory: nodes with their places, a place being the names on the way from the
  root.
-/
import ClassWasm.Files
import ClassWasm.Path

namespace ClassWasm

inductive FileNode where
  | file (data : Bytes)
  | directory
deriving DecidableEq

abbrev FilePlace := List Text

structure FileTree where
  /-- All files and directories but the root. -/
  nodes : List (FilePlace × FileNode) := []
  /-- Where relative paths start. -/
  current : FilePlace := []
deriving DecidableEq

namespace FileTree

def node? (t : FileTree) (p : FilePlace) : Option FileNode :=
  if p = [] then some .directory else t.nodes.lookup p

def insert (t : FileTree) (p : FilePlace) (n : FileNode) : FileTree :=
  { t with nodes := t.nodes ++ [(p, n)] }

def erase (t : FileTree) (p : FilePlace) : FileTree :=
  { t with nodes := t.nodes.filter fun (q, _) => q ≠ p }

/-- Puts a node at a place, with directories on the way to it. -/
def add (t : FileTree) (p : FilePlace) (n : FileNode) : FileTree :=
  let t := ((List.range p.length).map fun i => p.take i).foldl (fun t q =>
    if (t.node? q).isSome then t else t.insert q .directory) t
  (t.erase p).insert p n

/-- Whether anything lies directly in a directory. -/
def hasChildren (t : FileTree) (p : FilePlace) : Bool :=
  t.nodes.any fun (q, _) => q ≠ [] && q.dropLast = p

/-- The longest name that a file can have. -/
def maxName : Nat := 255

/-- The longest path that is looked at. -/
def maxPath : Nat := 4095

/-- Where the parts of a path lead. Every place on the way is a directory; the last one need not
exist. -/
def walk (t : FileTree) : FilePlace → List Text → Except FileReason FilePlace
  | p, [] => .ok p
  | p, part :: rest =>
    match t.node? p with
    | none => .error .missing
    | some (.file _) => .error .notDirectory
    | some .directory =>
      if part.isEmpty ∨ part = "." then walk t p rest
      else if part = ".." then walk t p.dropLast rest
      else if part.length > maxName then .error .nameTooLong
      else walk t (p ++ [part]) rest

def place (t : FileTree) (path : Text) : Except FileReason FilePlace :=
  if path.isEmpty then .error .missing
  else if path.length > maxPath then .error .nameTooLong
  else walk t (if Path.isAbsolute path then [] else t.current) (Path.parts path)

/-- The place of a path and what is there. -/
def find (t : FileTree) (path : Text) : Except FileReason (FilePlace × FileNode) := do
  let p ← t.place path
  match t.node? p with
  | none => .error .missing
  | some n => .ok (p, n)

/-- The place of a path where nothing is. -/
def vacant (t : FileTree) (path : Text) : Except FileReason FilePlace := do
  let p ← t.place path
  if (t.node? p).isSome then .error .present else .ok p

def kind (t : FileTree) (path : Text) : Except FileReason FileKind := do
  match (← t.find path).2 with
  | .file _ => .ok .file
  | .directory => .ok .directory

/-- The order of places: by the first names that differ, a directory before what is in it. -/
def placeLe : FilePlace → FilePlace → Bool
  | [], _ => true
  | _ :: _, [] => false
  | a :: p, b :: q => if a = b then placeLe p q else Text.le a b

def filesBelow (t : FileTree) (p : FilePlace) : List (FilePlace × Bytes) :=
  let files := t.nodes.filterMap fun (q, n) =>
    match n with
    | .file data => if p.isPrefixOf q then some (q.drop p.length, data) else none
    | .directory => none
  files.mergeSort fun a b => placeLe a.1 b.1

def makeDirectory (t : FileTree) (path : Text) : Except FileReason FileTree := do
  return t.insert (← t.vacant path) .directory

/-- The marker that stands for the varying part of a temporary name, so often that the name is
new. -/
def freshPath (t : FileTree) (directory stem : Text) : Text :=
  let path (n : Nat) : Text :=
    Path.child directory (stem ++ ⟨List.replicate (n + 1) 0x2A⟩)
  let taken (n : Nat) : Bool := match t.find (path n) with
    | .ok _ => true
    | .error _ => false
  path (((List.range t.nodes.length).find? fun n => !taken n).getD t.nodes.length)

def createFile (t : FileTree) (path : Text) (data : Bytes) : Except FileReason FileTree := do
  return t.insert (← t.vacant path) (.file data)

def rename (t : FileTree) (old new : Text) : Except FileReason FileTree := do
  let (p, n) ← t.find old
  match t.kind new with
  | .ok .directory => .error .present
  | _ =>
    let q ← t.place new
    return ((t.erase p).erase q).insert q n

def remove (t : FileTree) (path : Text) : Except FileReason FileTree := do
  let (p, n) ← t.find path
  if n = .directory ∧ t.hasChildren p then .error .notEmpty else return t.erase p

/-- A step that may change the tree; one that fails leaves it as it is. -/
def change (action : Text) (paths : List Text) (f : FileTree → Except FileReason FileTree) :
    StateM FileTree (Except FileFault Unit) := fun t =>
  match f t with
  | .ok t => (.ok (), t)
  | .error reason => (.error ⟨action, paths, reason⟩, t)

def look {α : Type} (action path : Text) (f : FileTree → Except FileReason α) :
    StateM FileTree (Except FileFault α) := fun t =>
  ((f t).mapError fun reason => ⟨action, [path], reason⟩, t)

instance : Files (StateM FileTree) where
  currentDirectory := fun t => ("/" ++ Text.join "/" t.current, t)
  kind path := look "stat" path fun t => t.kind path
  read path := fun t =>
    match t.find path with
    | .ok (_, .file data) => (.ok data, t)
    | .ok (_, .directory) => (.error ⟨"read", [path], .isDirectory⟩, t)
    | .error reason => (.error ⟨"open", [path], reason⟩, t)
  below path := look "open" path fun t => do return t.filesBelow (← t.find path).1
  makeDirectory path := change "mkdir" [path] fun t => t.makeDirectory path
  createTemporary directory stem data := do
    let t ← get
    let path := t.freshPath directory stem
    let done ← change "open" [path] fun t => t.createFile path data
    return done.map fun _ => path
  rename old new := change "rename" [old, new] fun t => t.rename old new
  remove path := change "remove" [path] fun t => t.remove path

end FileTree

end ClassWasm
