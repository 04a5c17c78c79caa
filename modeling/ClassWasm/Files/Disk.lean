/-
  The files of the system a command runs on.
-/
import ClassWasm.Files
import ClassWasm.Path

namespace ClassWasm

namespace Disk

/-- A path for the system; one that is not UTF-8 is none of its paths. -/
def systemPath (t : Text) : IO String :=
  match String.fromUTF8? (ByteArray.mk t.bytes.toArray) with
  | some s => pure s
  | none => throw (.invalidArgument none 22 "invalid argument")

def reasonOf : IO.Error → FileReason
  | .noFileOrDirectory .. => .missing
  | .alreadyExists .. => .present
  | .inappropriateType _ code _ => if code = 21 then .isDirectory else .notDirectory
  | .unsatisfiedConstraints .. => .notEmpty
  | .permissionDenied .. => .other "permission denied"
  | .invalidArgument _ code _ =>
    if code = 36 then .nameTooLong else .other "invalid argument"
  | e => .other (toString e)

/-- An action on paths, with its failure as a fault. -/
def attempt {α : Type} (action : Text) (paths : List Text) (x : IO α) :
    IO (Except FileFault α) := do
  try return .ok (← x)
  catch e => return .error ⟨action, paths, reasonOf e⟩

/-- Whether a directory is at a path; fails if nothing is there. -/
def isDirectory (path : Text) : IO Bool := do
  if path.isEmpty then throw (.noFileOrDirectory "" 2 "")
  let here ← IO.currentDir
  let found ← (here / (← systemPath path)).metadata
  return found.type == .dir

def readFile (path : String) : IO Bytes := do
  return (← IO.FS.readBinFile path).data.toList

/-- No path has more parts than this. -/
def maxParts : Nat := 4096

/-- The files below a directory, with parts of names in front of theirs. -/
def walk : (depth : Nat) → (parts : List Text) → (path : Text) →
    IO (List (List Text × Bytes))
  | 0, _, _ => return []
  | depth + 1, parts, path => do
    let here ← IO.currentDir
    let names := (← (here / (← systemPath path)).readDir).toList.map fun e => (e.fileName : Text)
    (names.mergeSort Text.le).foldlM (fun files name => do
      let inner := Path.child path name
      let parts := parts ++ [name]
      if ← isDirectory inner then return files ++ (← walk depth parts inner)
      else return files ++ [(parts, ← readFile (← systemPath inner))]) []

/-- Writes a file that is not there yet. -/
def createFile (path : Text) (data : Bytes) : IO Unit := do
  IO.FS.withFile (← systemPath path) .writeNew fun h => h.write (ByteArray.mk data.toArray)

instance : Files IO where
  currentDirectory := do return (← IO.currentDir).toString
  kind path := attempt "stat" [path] do
    return if ← isDirectory path then .directory else .file
  read path := do
    match ← attempt "open" [path] (isDirectory path) with
    | .error e => return .error e
    | .ok true => return .error ⟨"read", [path], .isDirectory⟩
    | .ok false => attempt "open" [path] do readFile (← systemPath path)
  below path := attempt "open" [path] (walk maxParts [] path)
  makeDirectory path := attempt "mkdir" [path] do IO.FS.createDir (← systemPath path)
  createTemporary directory stem data := do
    let path := Path.child directory (stem ++ Text.ofNat (← IO.monoNanosNow))
    let done ← attempt "open" [path] (createFile path data)
    return done.map fun _ => path
  rename old new := do
    match ← attempt "stat" [new] (isDirectory new) with
    | .ok true => return .error ⟨"rename", [old, new], .present⟩
    | _ => attempt "rename" [old, new] do IO.FS.rename (← systemPath old) (← systemPath new)
  remove path := attempt "remove" [path] do
    if ← isDirectory path then IO.FS.removeDir (← systemPath path)
    else IO.FS.removeFile (← systemPath path)

end Disk

end ClassWasm
