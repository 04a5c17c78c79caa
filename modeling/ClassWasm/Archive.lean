/-
  Containers of class files: directories, single class files, and zip archives. An archive may
  have the header of a module file in front of it.
-/
import ClassWasm.Files
import ClassWasm.Path
import ClassWasm.Zip.Writer

namespace ClassWasm

namespace Archive

/-- One file of a container; names have slashes between their parts. -/
structure Entry where
  name : Text
  data : Bytes
  /-- Seconds from 1970, where the container tells. -/
  modified : Option Int := none
deriving DecidableEq

def Entry.isClass (e : Entry) : Bool := e.name.endsWith ".class"

inductive Source where
  | directory
  | file
  | zip
deriving DecidableEq

def Source.name : Source → Text
  | directory => "dir"
  | file => "file"
  | zip => "zip"

inductive Error where
  | access (e : FileFault)
  | unreadableClass (path : Text) (e : FileFault)
  | unreadableZip (path : Text) (e : FileFault)
  | unknownFormat (path : Text) (e : Zip.Error)
  | missingEntry (name : Text) (e : Zip.Error)
  | brokenEntry (name : Text) (e : Zip.Error)

def Error.message : Error → Text
  | access e => e.message
  | unreadableClass path e => "class: reading " ++ path ++ ": " ++ e.message
  | unreadableZip path e => "zip: reading " ++ path ++ ": " ++ e.message
  | unknownFormat path e =>
    "not a jar, zip, jmod, directory or class file: " ++ path ++ ": " ++ e.message
  | missingEntry name e => "zip: opening " ++ name ++ ": " ++ e.message
  | brokenEntry name e => "zip: reading " ++ name ++ ": " ++ e.message

def Error.causes : Error → List Cause
  | unknownFormat _ _ => [.unknownFormat]
  | _ => []

instance : Fault Error := ⟨Error.message, Error.causes⟩

/-- What stands before the zip archive in a module file. -/
def moduleMagic : Bytes := [0x4A, 0x4D, 0x01, 0x00]

def unzipEntry (data : Bytes) (h : Zip.Header) : Except Error Entry := do
  let m ← (Zip.find data h).mapError (.missingEntry h.name)
  let contents ← m.contents.mapError (.brokenEntry h.name)
  return ⟨h.name, contents, some h.modified⟩

/-- The files in a zip archive, in the order of its directory. -/
def unzip (path : Text) (file : Bytes) : Except Error (List Entry) := do
  let data := if moduleMagic.isPrefixOf file then file.drop moduleMagic.length else file
  let headers ← (Zip.directory data).mapError (.unknownFormat path)
  (headers.filter fun h => !h.isDirectory).mapM (unzipEntry data)

variable {m : Type → Type} [Monad m] [Files m]

/-- What sort of container a path names. -/
def source (path : Text) : m (Except FileFault Source) := do
  match ← Files.kind path with
  | .error e => return .error e
  | .ok .directory => return .ok .directory
  | .ok .file => return .ok (if path.endsWith ".class" then .file else .zip)

def entries (path : Text) : Source → m (Except Error (List Entry))
  | .directory => do
    let files ← Files.below path
    return (files.mapError .access).map fun files =>
      files.map fun (parts, data) => ⟨Text.join "/" parts, data, none⟩
  | .file => do
    let data ← Files.read path
    return (data.mapError (.unreadableClass path)).map fun data => [⟨Path.base path, data, none⟩]
  | .zip => do
    match ← Files.read path with
    | .error e => return .error (.unreadableZip path e)
    | .ok data => return unzip path data

/-- The entries of the container that a path names. -/
def readAll (path : Text) : m (Except Error (List Entry)) := do
  match ← source path with
  | .error e => return .error (.access e)
  | .ok s => entries path s

/-- Why an entry cannot be written. -/
inductive WriteError where
  | longName (name : Text)
  | directoryData (name : Text)

def WriteError.message : WriteError → Text
  | longName name => "zip: adding " ++ name ++ ": zip: FileHeader.Name too long"
  | directoryData name => "zip: writing " ++ name ++ ": zip: write to directory"

instance : Fault WriteError := ⟨WriteError.message, fun _ => []⟩

/-- An archive that is being written. -/
structure Writer where
  items : List Zip.Item := []

namespace Writer

/-- Appends an entry, unless one of the same name is there already. A name with a slash at its end
is one of a directory, which has no data. -/
def add (w : Writer) (e : Entry) : Except WriteError Writer :=
  if w.items.any fun i => i.name = e.name then .ok w
  else if e.name.length > 0xFFFF then .error (.longName e.name)
  else if e.name.endsWith "/" && !e.data.isEmpty then .error (.directoryData e.name)
  else .ok ⟨w.items ++ [⟨e.name, e.data, e.modified⟩]⟩

def addAll (w : Writer) (es : List Entry) : Except WriteError Writer := es.foldlM add w

def length (w : Writer) : Nat := w.items.length

def encode (w : Writer) : Bytes := Zip.encode w.items

end Writer

end Archive

end ClassWasm
