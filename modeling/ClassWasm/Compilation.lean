/-
  A whole compilation: containers are read, their classes linked into one module, and the module
  written together with its link map and the resources of the input.
-/
import ClassWasm.Archive
import ClassWasm.ClassFile.Parser
import ClassWasm.Link.Linker
import ClassWasm.Settings
import ClassWasm.Compilation.Staging

namespace ClassWasm

namespace Compilation

inductive Error where
  | noInput
  | container (path : Text) (e : Archive.Error)
  | malformedClass (entry : Text) (e : ClassFile.Error)
  | rejectedClass (entry : Text) (e : Link.Error)
  | link (e : Link.Error)
  | resources (path : Text) (e : Archive.WriteError)
  | output (e : Staging.Error)

def Error.message : Error → Text
  | noInput => Settings.invalidText ++ "no input path"
  | container path e => path ++ ": " ++ e.message
  | malformedClass entry e => "class " ++ entry ++ ": " ++ e.message
  | rejectedClass entry e => "class " ++ entry ++ ": " ++ e.message
  | link (.crash index) => Lowering.crashText index
  | link e => "link: " ++ e.message
  | resources path e => path ++ ": " ++ e.message
  | output e => e.message

def Error.causes : Error → List Cause
  | noInput => [.invalidSettings]
  | container _ e => .file :: e.causes
  | malformedClass _ e => .classFile :: e.causes
  | rejectedClass _ e => .classFile :: e.causes
  | link e => e.causes
  | resources _ _ => [.file]
  | output e => Fault.causes e

instance : Fault Error := ⟨Error.message, Error.causes⟩

/-- What was read: classes with the names of their entries, and the other entries of the main
container. -/
structure Input where
  classes : List (Text × ClassFile) := []
  resources : List Archive.Entry := []

namespace Input

/-- Sorts the entries of a container into classes and resources. -/
def add (i : Input) (withResources : Bool) (entries : List Archive.Entry) : Except Error Input :=
  entries.foldlM (fun i e =>
    if e.isClass then do
      let c ← (ClassFile.parse e.data).mapError (.malformedClass e.name)
      .ok { i with classes := i.classes ++ [(e.name, c)] }
    else .ok (if withResources then { i with resources := i.resources ++ [e] } else i)) i

def files (i : Input) : List ClassFile := i.classes.map Prod.snd

end Input

variable {m : Type → Type} [Monad m] [Files m]

def readContainer (i : Input) (withResources : Bool) (path : Text) : ExceptT Error m Input := do
  match ← (Archive.readAll path : m _) with
  | .error e => throw (.container path e)
  | .ok entries => i.add withResources entries

/-- Reads the input and then its libraries, whose resources are left aside. -/
def read (s : Settings) : ExceptT Error m Input := do
  if s.input.path.isEmpty then throw .noInput
  let i ← readContainer {} true s.input.path
  s.input.libraries.foldlM (readContainer · false) i

/-- Links classes and says which entry is at fault if one cannot be added. -/
def linkInput (options : Link.Options) (i : Input) :
    Except Error (Wasm.Module × Link.LinkMap) := do
  let l ← i.classes.foldlM (fun (l : Link.Linker) (entry, c) =>
    (l.add c).mapError (.rejectedClass entry)) { options }
  let (declared, l) := l.declare
  declared.mapError .link
  let (emitted, l) := l.emit
  emitted.mapError .link
  return (l.module, l.linkMap.getD {})

/-- What a finished compilation has made. -/
structure Summary where
  classes : Nat
  functions : Nat
  globals : Nat
  resources : Nat
deriving DecidableEq

def Summary.text (r : Summary) (s : Settings) : Text :=
  s.output.module ++ s!": {r.classes} classes, {r.functions} functions, {r.globals} globals"
    ++ (if r.resources = 0 then Text.empty
      else s!", {r.resources} resources in " ++ s.output.assets)

/-- The archive of resources, if there is one to write, with the number of its entries. -/
def resourceArchive (s : Settings) (i : Input) : Except Error (Option (Nat × Bytes)) :=
  if s.output.assets.isEmpty || i.resources.isEmpty then .ok none
  else do
    let w ← (Archive.Writer.addAll {} i.resources).mapError (.resources s.output.assets)
    return some (w.length, w.encode)

/-- The files that a compilation writes, in order. -/
def outputs (s : Settings) (archive : Option (Nat × Bytes)) (module : Wasm.Module)
    (map : Link.LinkMap) : List (Text × Bytes) :=
  (archive.map fun (_, data) => (s.output.assets, data)).toList
    ++ [(s.output.module, module.encode)]
    ++ (if s.output.linkMap.isEmpty then [] else [(s.output.linkMap, map.encode)])

/-- Runs a compilation. -/
def compile (s : Settings) : ExceptT Error m Summary := do
  let i ← read s
  let (module, map) ← linkInput s.linkOptions i
  let archive ← resourceArchive s i
  match ← (Staging.writeAll (outputs s archive module map) : m _) with
  | .error e => throw (.output e)
  | .ok _ => return ⟨i.classes.length, map.functions.length, map.globals.length,
      (archive.map Prod.fst).getD 0⟩

end Compilation

end ClassWasm
