/-
  Writing several files together: each is written under a temporary name beside its place, and
  only when all of them are there do they get their own names. What an unfinished attempt has left
  can be removed again.
-/
import ClassWasm.Files
import ClassWasm.Path

namespace ClassWasm

/-- A file at its temporary path. -/
structure StagedFile where
  path : Text
  temporary : Text
deriving DecidableEq

structure Staging where
  files : List StagedFile := []
  /-- The directories made for each file that needed some, innermost first; the last file's come
  first. -/
  directories : List (List Text) := []
deriving DecidableEq

namespace Staging

/-- What kept a file from being written. -/
structure Error where
  path : Text
  /-- What the file system reported, or nothing if a directory is in the way. -/
  fault : Option FileFault
deriving DecidableEq

def Error.message (e : Error) : Text :=
  e.path ++ ": " ++ match e.fault with
    | some f => f.message
    | none => FileReason.isDirectory.text

instance : Fault Error := ⟨Error.message, fun _ => [.file]⟩

variable {m : Type → Type} [Monad m] [Files m]

/-- The paths at the start of a list where nothing is. -/
def missing : List Text → m (List Text)
  | [] => return []
  | p :: ps => do
    match ← Files.kind p with
    | .error ⟨_, _, .missing⟩ => return p :: (← missing ps)
    | _ => return []

/-- Makes directories in order, up to the first failure. -/
def makeAll : List Text → m (Except FileFault Unit)
  | [] => return .ok ()
  | p :: ps => do
    match ← Files.makeDirectory p with
    | .error e => return .error e
    | .ok _ => makeAll ps

/-- Removes paths in order, up to the first failure. -/
def removeWhile : List Text → m Unit
  | [] => return ()
  | p :: ps => do
    match ← Files.remove p with
    | .error _ => return ()
    | .ok _ => removeWhile ps

/-- Makes the directories that a path needs; those made, innermost first. After a failure they are
removed from the innermost on, as far as that goes. -/
def makeDirectories (path : Text) : m (Except Error (List Text)) := do
  let new ← missing (Path.upward (Path.directory path))
  match ← makeAll new.reverse with
  | .ok _ => return .ok new
  | .error e =>
    removeWhile new
    return .error ⟨path, some e⟩

/-- Writes data for a path under a temporary name. -/
def stage (s : Staging) (path : Text) (data : Bytes) : m (Except Error Unit × Staging) := do
  match ← makeDirectories path with
  | .error e => return (.error e, s)
  | .ok new =>
    let s := if new.isEmpty then s else { s with directories := new :: s.directories }
    match ← Files.kind path with
    | .ok .directory => return (.error ⟨path, none⟩, s)
    | _ =>
      let stem := "." ++ Path.base path ++ "."
      match ← Files.createTemporary (Path.directory path) stem data with
      | .error e => return (.error ⟨path, some e⟩, s)
      | .ok temporary => return (.ok (), { s with files := s.files ++ [⟨path, temporary⟩] })

def stageAll (s : Staging) : List (Text × Bytes) → m (Except Error Unit × Staging)
  | [] => return (.ok (), s)
  | (path, data) :: rest => do
    match ← s.stage path data with
    | (.ok _, s) => s.stageAll rest
    | failed => return failed

/-- Gives files their own names, in order. After a failure those that have theirs are removed, and
the others remain to be. -/
def commitFrom (s : Staging) (done : List StagedFile) :
    List StagedFile → m (Except Error Unit × Staging)
  | [] => return (.ok (), {})
  | f :: rest => do
    match ← Files.rename f.temporary f.path with
    | .ok _ => s.commitFrom (done ++ [f]) rest
    | .error e =>
      done.forM fun d => do let _ ← Files.remove d.path
      return (.error ⟨f.path, some e⟩, { s with files := f :: rest })

def commit (s : Staging) : m (Except Error Unit × Staging) := s.commitFrom [] s.files

/-- Removes what was written and not given its name, and the directories made for it. -/
def discard (s : Staging) : m Unit := do
  s.files.forM fun f => do let _ ← Files.remove f.temporary
  s.directories.forM removeWhile

/-- Writes all files or reports the first that cannot be written. -/
def writeAll (files : List (Text × Bytes)) : m (Except Error Unit) := do
  let (staged, s) ← stageAll {} files
  match staged with
  | .error e =>
    s.discard
    return .error e
  | .ok _ =>
    let (committed, s) ← s.commit
    s.discard
    return committed

end Staging

end ClassWasm
