/-
  The command: it disassembles, runs or compiles what its arguments and settings name. What it
  prints is its result.
-/
import ClassWasm.Arguments
import ClassWasm.Command.Flags
import ClassWasm.Command.Target
import ClassWasm.Disassembly
import ClassWasm.Machine
import ClassWasm.Compilation

namespace ClassWasm.Command

inductive Error where
  | flags (e : Flags.Error)
  | settings (e : Settings.LoadError)
  | invalid (e : Settings.Invalid)
  | unexpected (arguments : List Text)
  | compilation (e : Compilation.Error)
  | className (e : Pool.Error)
  | target (e : Target.Error)
  | arguments (e : Arguments.Error)
  | unknownEngine (name : Text)
  | setup (e : Machine.SetupError)
  | run (e : Machine.Error)
  /-- The bound on the number of steps was reached. -/
  | exhausted
  /-- A module needs a member that only classes could provide. -/
  | noNative (isGlobal : Bool) (member : MemberRef)

def Error.message : Error → Text
  | flags e => e.message
  | settings e => e.message
  | invalid e => e.message
  | unexpected rest => "unexpected arguments " ++ Text.bracketed rest
  | compilation e => e.message
  | className e => e.message
  | target e => e.message
  | arguments e => e.message
  | unknownEngine name => "-engine " ++ name.quoted ++ " is not one of interp, wasm"
  | setup e => e.message
  | run e => e.message
  | exhausted => "too many steps"
  | noNative isGlobal member =>
    "no native implementation: " ++ (if isGlobal then ("global " : Text) else Text.empty) ++ member.text

def Error.causes : Error → List Cause
  | flags _ | unexpected _ | target _ | unknownEngine _ | exhausted => []
  | settings e => e.causes
  | invalid _ => [.invalidSettings]
  | compilation e => e.causes
  | className e => e.causes
  | arguments e => e.causes
  | setup e => e.causes
  | run e => e.causes
  | noNative _ _ => [.nativeMissing]

instance : Fault Error := ⟨Error.message, Error.causes⟩

/-- A method to run and its arguments. -/
structure Call where
  method : MemberRef
  values : List Value

def Call.parse (target : Text) (arguments : List Text) : Except Error Call := do
  let method ← (Target.parse target).mapError .target
  let values ← (Arguments.parse method.descriptor arguments).mapError .arguments
  return ⟨method, values⟩

/-- What running classes depends on besides them. -/
structure Limits where
  clock : Native.Clock
  fuel : Nat

/-- Runs a method and gives the text of its result, if it has one. -/
def runMethod (limits : Limits) (files : List ClassFile) (c : Call) : Except Error Text := do
  let machine ← (Machine.ofFiles files).mapError .setup
  match (machine.invoke limits.clock limits.fuel c.method c.values).1 with
  | .ok v => return (if v.kind = .void then Text.empty else Text.ofLines [v.text])
  | .error (.error e) => throw (.run e)
  | .error (.frame fault) => throw (.run (.frame fault))
  | .error .exhausted => throw .exhausted

/-- Checks that library methods provide all that a module imports. -/
def checkImports (imports : List Link.Symbol) : Except Error Unit :=
  imports.forM fun s =>
    let ref : MemberRef := ⟨s.owner, s.name, s.descriptor⟩
    if s.kind ≠ Wasm.ExternKind.func.name then .error (.noNative true ref)
    else if (Native.find? ref).isNone then .error (.noNative false ref)
    else .ok ()

/-- Checks that classes link into a module that can run by itself and exports the method. -/
def checkModule (options : Link.Options) (i : Compilation.Input) (method : MemberRef) :
    Except Error Unit := do
  let options := { options with exports := .all, unresolved := .imported }
  let (_, map) ← (Compilation.linkInput options i).mapError .compilation
  match map.function? method with
  | some s => if s.exportName.isEmpty then throw (.run (.noSuchMethod method))
  | none => throw (.run (.noSuchMethod method))
  checkImports map.imports

/-- Settings with the flags that were given in place of theirs. -/
def override (f : Flags) (s : Settings) : Settings :=
  let given (flag old : Text) : Text := if flag.isEmpty then old else flag
  { s with
    input.libraries := s.input.libraries ++ f.libraries
    output := ⟨given f.module s.output.module, given f.assets s.output.assets,
      given f.linkMap s.output.linkMap⟩
    linking := { s.linking with
      exports := given f.exports s.linking.exports
      unresolved := given f.unresolved s.linking.unresolved
      start := s.linking.start && !f.noStart } }

/-- The first argument names the input, unless a method is run on the input of the settings. -/
def takeInput (f : Flags) (s : Settings) : List Text → Settings × List Text
  | [] => (s, [])
  | a :: rest =>
    if s.input.path.isEmpty || f.run.isEmpty then ({ s with input.path := a }, rest)
    else (s, a :: rest)

variable {m : Type → Type} [Monad m] [Files m]

/-- The settings of the named file, or of the nearest one, or the usual ones. -/
def loadSettings (path : Text) : ExceptT Error m Settings := do
  let path ← if path.isEmpty then (Settings.find "." : m _) else pure (some path)
  match path with
  | none => return {}
  | some path => match ← (Settings.load path : m _) with
    | .ok s => return s
    | .error e => throw (.settings e)

def readInput (s : Settings) : ExceptT Error m Compilation.Input :=
  (Compilation.read s).adapt .compilation

def execute (limits : Limits) (s : Settings) (f : Flags) (arguments : List Text) :
    ExceptT Error m Text := do
  let c ← Call.parse f.run arguments
  if f.engine = "interp" then
    let i ← readInput s
    runMethod limits i.files c
  else if f.engine = "wasm" then
    let i ← readInput s
    checkModule s.linkOptions i c.method
    runMethod limits i.files c
  else throw (.unknownEngine f.engine)

/-- Does what flags ask for. -/
def perform (limits : Limits) (f : Flags) (arguments : List Text) : ExceptT Error m Text := do
  let s ← loadSettings f.config
  let (s, rest) := takeInput f s arguments
  let s := override f s
  s.validate.mapError Error.invalid
  if f.dump then
    let i ← readInput s
    (disassembly i.files).mapError Error.className
  else if !f.run.isEmpty then execute limits s f rest
  else if !rest.isEmpty then throw (.unexpected rest)
  else
    let summary ← (Compilation.compile s).adapt .compilation
    return Text.ofLines [summary.text s]

/-- Runs the command with its arguments. -/
def command (limits : Limits) (args : List Text) : ExceptT Error m Text := do
  match ← (Flags.parse args).mapError Error.flags with
  | .help => return Text.empty
  | .command f rest => perform limits f rest

end ClassWasm.Command
