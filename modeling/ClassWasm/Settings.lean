/-
  Settings of a compilation, read from a configuration file over the usual ones.
-/
import ClassWasm.Files
import ClassWasm.Link.Options
import ClassWasm.Path
import ClassWasm.Text.Quoted
import ClassWasm.Toml.Tables

namespace ClassWasm

namespace Settings

/-- The container to compile and those it is linked with. -/
structure Input where
  path : Text := Text.empty
  libraries : List Text := []
deriving DecidableEq

/-- The files to write; an empty path leaves out the resources or the link map. -/
structure Output where
  module : Text := "module.wasm"
  assets : Text := "assets.zip"
  linkMap : Text := Text.empty
deriving DecidableEq

/-- How to link, with policies by name. -/
structure Linking where
  exports : Text := Link.ExportPolicy.publicOnly.name
  exportGlobals : Bool := false
  unresolved : Text := Link.UnresolvedPolicy.error.name
  start : Bool := true
deriving DecidableEq

structure Log where
  verbosity : Int := 0
  file : Text := Text.empty
deriving DecidableEq

end Settings

structure Settings where
  input : Settings.Input := {}
  output : Settings.Output := {}
  linking : Settings.Linking := {}
  maxSparseSpan : Int := 4096
  log : Settings.Log := {}
  /-- The directory that paths were resolved against. -/
  directory : Text := Text.empty
deriving DecidableEq

namespace Settings

/-! ## Checks -/

/-- A setting with a value that it cannot have. -/
inductive Invalid where
  | exports (name : Text)
  | unresolved (name : Text)
  | negativeSpan (n : Int)
  | noModule
deriving DecidableEq

def invalidText : Text := "invalid configuration: "

def Invalid.message : Invalid → Text
  | exports name =>
    invalidText ++ "link.exports " ++ name.quoted ++ " is not one of public, all, none"
  | unresolved name =>
    invalidText ++ "link.unresolved " ++ name.quoted ++ " is not one of error, import"
  | negativeSpan n =>
    invalidText ++ "lowering.max_sparse_span " ++ Text.ofInt n ++ " is negative"
  | noModule => invalidText ++ "output.module is empty"

def exportPolicies : List Link.ExportPolicy := [.publicOnly, .all, .none]

def unresolvedPolicies : List Link.UnresolvedPolicy := [.error, .imported]

def validate (s : Settings) : Except Invalid Unit := do
  if (exportPolicies.map Link.ExportPolicy.name).all (· ≠ s.linking.exports) then
    throw (.exports s.linking.exports)
  if (unresolvedPolicies.map Link.UnresolvedPolicy.name).all (· ≠ s.linking.unresolved) then
    throw (.unresolved s.linking.unresolved)
  if s.maxSparseSpan < 0 then throw (.negativeSpan s.maxSparseSpan)
  if s.output.module.isEmpty then throw .noModule

def linkOptions (s : Settings) : Link.Options :=
  { exports := .ofName s.linking.exports
    exportGlobals := s.linking.exportGlobals
    unresolved := .ofName s.linking.unresolved
    start := s.linking.start
    maxSpan := s.maxSparseSpan }

/-! ## Reading -/

/-- Changes a setting to a value, if it is of the right type. -/
abbrev Assign := Toml.Value → Settings → Option Settings

def text (f : Text → Settings → Settings) : Assign
  | .scalar (.string t), s => some (f t s)
  | _, _ => none

def integer (f : Int → Settings → Settings) : Assign
  | .scalar (.integer n), s => some (f n s)
  | _, _ => none

def boolean (f : Bool → Settings → Settings) : Assign
  | .scalar (.boolean b), s => some (f b s)
  | _, _ => none

def textOf : Toml.Value → Option Text
  | .scalar (.string t) => some t
  | _ => none

def texts (f : List Text → Settings → Settings) : Assign
  | .array vs, s => do some (f (← vs.mapM textOf) s)
  | _, _ => none

structure Setting where
  group : Text
  name : Text
  assign : Assign

/-- All settings of a configuration file. -/
def settings : List Setting :=
  [⟨"input", "path", text fun t s => { s with input.path := t }⟩,
   ⟨"input", "libraries", texts fun ts s => { s with input.libraries := ts }⟩,
   ⟨"output", "module", text fun t s => { s with output.module := t }⟩,
   ⟨"output", "assets", text fun t s => { s with output.assets := t }⟩,
   ⟨"output", "linkmap", text fun t s => { s with output.linkMap := t }⟩,
   ⟨"link", "exports", text fun t s => { s with linking.exports := t }⟩,
   ⟨"link", "export_globals", boolean fun b s => { s with linking.exportGlobals := b }⟩,
   ⟨"link", "unresolved", text fun t s => { s with linking.unresolved := t }⟩,
   ⟨"link", "start", boolean fun b s => { s with linking.start := b }⟩,
   ⟨"lowering", "max_sparse_span", integer fun n s => { s with maxSparseSpan := n }⟩,
   ⟨"log", "verbosity", integer fun n s => { s with log.verbosity := n }⟩,
   ⟨"log", "file", text fun t s => { s with log.file := t }⟩]

/-- A name with small letters for all letters that have the same small form as one of ASCII. -/
def folded : List UInt8 → List UInt8
  | 0xC5 :: 0xBF :: bs => 0x73 :: folded bs
  | 0xE2 :: 0x84 :: 0xAA :: bs => 0x6B :: folded bs
  | b :: bs => (if 0x41 ≤ b && b ≤ 0x5A then b + 0x20 else b) :: folded bs
  | [] => []

/-- Names are the same if they differ in case only. -/
def sameName (name key : Text) : Bool := folded name.bytes = folded key.bytes

/-- Assigns what a section holds; the keys that are settings. -/
def assignSection (key : Text) (s : Settings) (entries : Toml.Table) :
    Option (Settings × List Toml.Key) :=
  entries.foldlM (fun (s, known) (name, v) =>
    match settings.find? fun d => sameName d.group key && sameName d.name name with
    | none => some (s, known)
    | some d => do some (← d.assign v s, [key, name] :: known)) (s, [])

/-- Assigns what the tables of a document hold; the keys that are settings or sections of them. -/
def assignAll (s : Settings) (root : Toml.Table) : Option (Settings × List Toml.Key) :=
  root.foldlM (fun (s, known) (key, v) =>
    if settings.any fun d => sameName d.group key then
      match v with
      | .table entries => do
        let (s, more) ← assignSection key s entries
        some (s, [key] :: more ++ known)
      | _ => none
    else some (s, known)) (s, [])

/-- Why settings cannot be read from a file. -/
inductive LoadError where
  | unreadable (path : Text) (e : FileFault)
  /-- The file is no configuration. -/
  | malformed (path : Text)
  | unknownKeys (path : Text) (keys : List Toml.Key)
  | invalid (path : Text) (e : Invalid)

def LoadError.message : LoadError → Text
  | unreadable path e => "cannot read " ++ path ++ ": " ++ e.message
  | malformed path => "parse error in " ++ path
  | unknownKeys path keys =>
    invalidText ++ path ++ ": unknown keys " ++ Text.join ", " (keys.map Toml.Key.text)
  | invalid path e => path ++ ": " ++ e.message

def LoadError.causes : LoadError → List Cause
  | unknownKeys _ _ | invalid _ _ => [.invalidSettings]
  | _ => []

instance : Fault LoadError := ⟨LoadError.message, LoadError.causes⟩

/-- The settings in the text of a file. A key that is none of them is an error. -/
def parse (path : Text) (content : Bytes) : Except LoadError Settings :=
  match (Toml.parse ⟨content⟩).bind fun d => (assignAll {} d.root).map (d.keys, ·) with
  | none => .error (.malformed path)
  | some (keys, s, known) =>
    let unknown := keys.filter fun k => !known.contains k
    if unknown.isEmpty then .ok s else .error (.unknownKeys path unknown)

/-- A path below the directory of the file, unless it is empty or absolute. -/
def resolvePath (directory p : Text) : Text :=
  if p.isEmpty || Path.isAbsolute p then p else Path.join directory p

def resolve (s : Settings) (directory : Text) : Settings :=
  let here := resolvePath directory
  { s with
    input := ⟨here s.input.path, s.input.libraries.map here⟩
    output := ⟨here s.output.module, here s.output.assets, here s.output.linkMap⟩
    log.file := here s.log.file
    directory := directory }

variable {m : Type → Type} [Monad m] [Files m]

/-- Reads settings from a file; relative paths in it start from its directory. -/
def load (path : Text) : m (Except LoadError Settings) := do
  match ← Files.read path with
  | .error e => return .error (.unreadable path e)
  | .ok content =>
    let current ← Files.currentDirectory
    return do
      let s ← parse path content
      let s := s.resolve (Path.absolute current (Path.directory path))
      s.validate.mapError (.invalid path)
      return s

def fileName : Text := "jvm2wasm.toml"

/-- The first of the paths that exists. -/
def firstExisting : List Text → m (Option Text)
  | [] => return none
  | p :: ps => do
    match ← Files.kind p with
    | .ok _ => return some p
    | .error _ => firstExisting ps

/-- The configuration file in a directory or the nearest one above it. -/
def find (start : Text) : m (Option Text) := do
  let directory := Path.absolute (← Files.currentDirectory) start
  firstExisting ((Path.upward directory).map fun d => Path.join d fileName)

end Settings

end ClassWasm
