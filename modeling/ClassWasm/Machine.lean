/-
  Running static methods. A machine holds classes and their static fields; a class is initialised
  when it is first used, its superclasses before it. Runs are bounded by a number of steps.
-/
import ClassWasm.Machine.Program
import ClassWasm.Machine.Step
import ClassWasm.Native.Library

namespace ClassWasm

namespace Machine

/-- What runs change: the static fields, and which classes have been initialised or are about to
be. -/
structure Store where
  statics : Statics
  started : List Text := []

abbrev Run := EStateM Stop Store

/-- What runs do not change. -/
structure Setting where
  program : Program
  clock : Native.Clock

def ofResult {α : Type} : Except Error α → Run α
  | .ok a => pure a
  | .error e => throw (.error e)

/-- A computation on a frame, and the frame after it. -/
def onFrame {α : Type} (x : Step α) (f : Frame) : Run (α × Frame) := fun s =>
  match x f with
  | .ok a f => .ok (a, f) s
  | .error e _ => .error e s

/-- Reports a stop as one of an instruction. -/
def reported {α : Type} (r : Routine) (offset : Nat) (x : Run α) : Run α := fun s =>
  match x s with
  | .ok a s => .ok a s
  | .error e s => .error (e.within r.ref offset) s

/-- A class and its superclasses up to the first that has been started. Each of them is another
one, so there are at most `n`, the number of classes. -/
def unstarted (p : Program) : (n : Nat) → List Text → PreparedClass → List PreparedClass
  | 0, _, _ => []
  | n + 1, started, c =>
    if c.name ∈ started then []
    else c :: match p.named? c.superName with
      | none => []
      | some super => unstarted p n (c.name :: started) super

/-- Runs a method to its end; given to what an instruction does. -/
abbrev Caller := Routine → List Value → Run Value

/-- Runs the static initialiser of a class, if it has one. -/
def runInitialiser (call : Caller) (c : PreparedClass) : Run Unit := do
  match (c.findMethod? "<clinit>" "()V").bind PreparedMethod.routine? with
  | none => pure ()
  | some (.error e) => throw (.error (.load e))
  | some (.ok r) =>
    let _ ← call r []
    pure ()

/-- Initialises a class and those above it, from the top down. All of them count as started before
the first initialiser runs. -/
def initialise (p : Program) (call : Caller) (c : PreparedClass) : Run Unit := do
  let store ← get
  let classes := unstarted p p.length store.started c
  set { store with started := store.started ++ classes.map fun (c : PreparedClass) => c.name }
  classes.reverse.forM (runInitialiser call)

/-- Where a frame goes on, or with what it ends. -/
inductive Outcome where
  | next (frame : Frame) (pc : Nat)
  | done (v : Value)

def getStatic (p : Program) (call : Caller) (f : Frame) (ref : MemberRef) : Run Frame := do
  let c ← ofResult (p.fieldOwner ref)
  initialise p call c
  let store ← get
  let v := (store.statics.lookup ⟨c.name, ref.name, ref.descriptor⟩).getD default
  let (_, f) ← onFrame (Frame.push v) f
  pure f

def putStatic (p : Program) (call : Caller) (f : Frame) (ref : MemberRef) : Run Frame := do
  let c ← ofResult (p.fieldOwner ref)
  initialise p call c
  let store ← get
  let key : MemberRef := ⟨c.name, ref.name, ref.descriptor⟩
  let kind := ((store.statics.lookup key).getD default).kind
  let (v, f) ← onFrame (Frame.popKind kind) f
  set { store with statics := store.statics.set key v }
  pure f

/-- Puts a result on the stack, unless there is none. -/
def pushResult (f : Frame) (v : Value) : Run Frame := do
  if v.kind = .void then pure f
  else
    let (_, f) ← onFrame (Frame.push v) f
    pure f

/-- Calls a library method. -/
def invokeNative (clock : Native.Clock) (f : Frame) (m : Native.Method) : Run Frame := do
  match Descriptor.parseMethod m.ref.descriptor with
  | .error e => throw (.error (.load (.descriptor e)))
  | .ok type =>
    let (args, f) ← onFrame (Frame.popKinds (type.params.map FieldType.kind)) f
    match m.run clock (args.map Value.raw) with
    | .error e => throw (.error (.thrown e))
    | .ok word => pushResult f (.ofRaw type.resultKind word)

/-- Calls a method; one that no class provides may be a library method. -/
def invokeStatic (s : Setting) (call : Caller) (f : Frame) (ref : MemberRef) : Run Frame := do
  match s.program.routine ref with
  | .error e =>
    match Native.find? ref with
    | some m => invokeNative s.clock f m
    | none => throw (.error e)
  | .ok (c, r) =>
    let (args, f) ← onFrame (Frame.popKinds r.params) f
    initialise s.program call c
    let v ← call r args
    pushResult f v

/-- Runs one instruction. -/
def perform (s : Setting) (call : Caller) (r : Routine) (pc : Nat) (f : Frame) (i : Instruction) :
    Run Outcome := do
  let onward (f : Frame) : Outcome := .next f (pc + 1)
  match i.op with
  | .getStatic ref => onward <$> getStatic s.program call f ref
  | .putStatic ref => onward <$> putStatic s.program call f ref
  | .invokeStatic ref => onward <$> invokeStatic s call f ref
  | op =>
    let (control, f) ← onFrame (step op) f
    match control with
    | .next => pure (onward f)
    | .ret v => pure (.done v)
    | .jump t =>
      match r.offsets.find? (i.absolute t) with
      | some k => pure (.next f k)
      | none => throw (.error (.badBranch (i.absolute t)))

mutual

/-- Runs a method under `depth` others, in at most `fuel` steps. -/
def call (s : Setting) : (fuel depth : Nat) → Routine → List Value → Run Value
  | 0, _, _, _ => throw .exhausted
  | fuel + 1, depth, r, args =>
    if depth ≥ maxDepth then throw (.error .stackOverflow)
    else do
      let (_, f) ← onFrame (Frame.enter 0 args) (.fresh r.maxLocals r.maxStack)
      resume s fuel (depth + 1) r 0 f

/-- Runs a method on from an instruction. -/
def resume (s : Setting) : (fuel depth : Nat) → Routine → (pc : Nat) → Frame → Run Value
  | 0, _, _, _, _ => throw .exhausted
  | fuel + 1, depth, r, pc, f =>
    match r.instrs[pc]? with
    | none => throw (.error (.fallsOff r.ref))
    | some i => do
      match ← reported r i.offset (perform s (call s fuel depth) r pc f i) with
      | .next f pc => resume s fuel depth r pc f
      | .done v =>
        if v.kind = r.result then pure v else throw (.error (.wrongReturn r.ref v.kind r.result))

end

end Machine

/-- `depth` counts calls that overflowed the depth limit since the last invocation; reading a field
starts as deep as that. -/
structure Machine where
  program : Machine.Program
  store : Machine.Store
  depth : Nat := 0

namespace Machine

def ofFiles (files : List ClassFile) : Except SetupError Machine := do
  let (program, statics) ← files.foldlM addClass ([], [])
  .ok { program, store := { statics } }

/-- One more where a run ended in an overflow. -/
def overflowCount {α : Type} : Except Stop α → Nat
  | .error (.error .stackOverflow) => 1
  | _ => 0

/-- The outcome of a run from a depth, and the machine after it. -/
def run {α : Type} (m : Machine) (depth : Nat) (x : Run α) : Except Stop α × Machine :=
  let (result, store) := match x m.store with
    | .ok a store => (.ok a, store)
    | .error e store => (.error e, store)
  (result, { m with store, depth := depth + overflowCount result })

/-- Checks arguments against parameter kinds, the first of them with number `i`. -/
def checkKinds (ref : MemberRef) (i : Nat) : List Value → List Kind → Except Error Unit
  | v :: vs, k :: ks =>
    if v.kind = k then checkKinds ref (i + 1) vs ks else .error (.argumentKind i ref v.kind k)
  | _, _ => .ok ()

def checkArguments (ref : MemberRef) (args : List Value) (params : List Kind) : Except Error Unit :=
  if args.length ≠ params.length then .error (.argumentCount ref params.length args.length)
  else checkKinds ref 0 args params

/-- A fault of a frame is an error of the method. -/
def ofStop {α : Type} : Except Stop α → Except Stop α
  | .error (.frame fault) => .error (.error (.frame fault))
  | r => r

/-- Runs a static method. -/
def invoke (m : Machine) (clock : Native.Clock) (fuel : Nat) (ref : MemberRef) (args : List Value) :
    Except Stop Value × Machine :=
  let s : Setting := ⟨m.program, clock⟩
  let (result, m) := m.run 0 do
    let (c, r) ← ofResult (m.program.routine ref)
    ofResult (checkArguments ref args r.params)
    initialise m.program (call s fuel 0) c
    call s fuel 0 r args
  (ofStop result, m)

/-- The value of a static field, after its class has been initialised. -/
def static (m : Machine) (clock : Native.Clock) (fuel : Nat) (ref : MemberRef) :
    Except Stop Value × Machine :=
  let s : Setting := ⟨m.program, clock⟩
  m.run m.depth do
    let c ← ofResult (m.program.fieldOwner ref)
    initialise m.program (call s fuel m.depth) c
    let store ← get
    pure ((store.statics.lookup ⟨c.name, ref.name, ref.descriptor⟩).getD default)

end Machine

end ClassWasm
