/-
  What a command does with files. A program is written over any monad with these operations; a
  tree of files in memory is one, the file system of a running command another.
-/
import ClassWasm.Bytes
import ClassWasm.Fault

namespace ClassWasm

/-- Why an operation on a file failed. -/
inductive FileReason where
  | missing
  | notDirectory
  | isDirectory
  | present
  | notEmpty
  | nameTooLong
  | other (text : Text)
deriving DecidableEq

def FileReason.text : FileReason → Text
  | missing => "no such file or directory"
  | notDirectory => "not a directory"
  | isDirectory => "is a directory"
  | present => "file exists"
  | notEmpty => "directory not empty"
  | nameTooLong => "file name too long"
  | other t => t

/-- A failed operation: what was attempted, on which paths, and why it failed. -/
structure FileFault where
  action : Text
  paths : List Text
  reason : FileReason
deriving DecidableEq

def FileFault.message (e : FileFault) : Text :=
  Text.join " " (e.action :: e.paths) ++ ": " ++ e.reason.text

instance : Fault FileFault := ⟨FileFault.message, fun _ => []⟩

inductive FileKind where
  | file
  | directory
deriving DecidableEq

class Files (m : Type → Type) where
  /-- The directory that relative paths start from. -/
  currentDirectory : m Text
  kind : Text → m (Except FileFault FileKind)
  read : Text → m (Except FileFault Bytes)
  /-- The files below a directory with the parts of their paths from there, in the order of those
  parts. -/
  below : Text → m (Except FileFault (List (List Text × Bytes)))
  makeDirectory : Text → m (Except FileFault Unit)
  /-- Writes a file with a name of its own, made from a stem, into a directory; its path. -/
  createTemporary (directory stem : Text) (data : Bytes) : m (Except FileFault Text)
  /-- Gives a file another path, in place of any file there. -/
  rename (old new : Text) : m (Except FileFault Unit)
  /-- Removes a file or an empty directory. -/
  remove : Text → m (Except FileFault Unit)

end ClassWasm
