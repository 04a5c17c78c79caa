/-
  A machine under watch. Runs get their depth as an argument and tell nothing of what they do on
  the way. Under watch they count their frames in the state, where a frame is counted before the
  limit is checked and taken off again when its method is left, and note what happens to classes.
  The functions of `Watched` are those of the machine with these notes, and without the notes they
  are the machine (`Shows`, `Watches`).
-/
import ClassWasm.Machine

namespace ClassWasm.Machine

/-! ## Notes -/

inductive Event where
  /-- A class is marked as started; its initialisation begins here. -/
  | entered (name : Text)
  /-- The initialiser of a class is called. -/
  | starts (name : Text)
  /-- The initialisation of a class has ended without an error. -/
  | finishes (name : Text)
  /-- The initialisation of a class has ended with an error, its own or one of a superclass. -/
  | fails (name : Text)
  /-- A static field of a class is about to be read. -/
  | reads (name : Text)
  /-- A static field of a class is about to be written. -/
  | writes (name : Text)
  /-- A method gets its frame. -/
  | opens (method : MemberRef)
  /-- An instruction is about to run. -/
  | steps
  /-- A method leaves its frame. -/
  | closes
  /-- A method gets no frame, since there are too many. It is counted all the same. -/
  | overflows
deriving DecidableEq

/-- An event, and how many frames are counted at that time. -/
structure Note where
  event : Event
  frames : Nat
deriving DecidableEq

structure Watch where
  store : Store
  frames : Nat := 0
  log : List Note := []

namespace Watch

/-- A machine that has not done anything under watch. -/
def start (m : Machine) : Watch := { store := m.store, frames := m.depth }

def events (w : Watch) : List Event := w.log.map Note.event

def note (w : Watch) (e : Event) : Watch := { w with log := w.log ++ [⟨e, w.frames⟩] }

/-- Marks classes as started. -/
def enter (w : Watch) (classes : List PreparedClass) : Watch :=
  { w with
    store := { w.store with
      started := w.store.started ++ classes.map fun (c : PreparedClass) => c.name }
    log := w.log ++ classes.map fun (c : PreparedClass) => ⟨.entered c.name, w.frames⟩ }

/-- Leaves a frame. -/
def leave (w : Watch) : Watch := { w with frames := w.frames - 1 }.note .closes

end Watch

/-! ## Runs under watch -/

abbrev Watched := EStateM Stop Watch

namespace Watched

variable {α : Type}

/-- A part of a run of which nothing is noted. -/
def lift (x : Run α) : Watched α := fun w =>
  match x w.store with
  | .ok a store => .ok a { w with store }
  | .error e store => .error e { w with store }

def note (e : Event) : Watched Unit := fun w => .ok () (w.note e)

/-- Notes how a part of a run has ended. -/
def ending (x : Watched Unit) (good bad : Event) : Watched Unit := fun w =>
  match x w with
  | .ok _ w => .ok () (w.note good)
  | .error e w => .error e (w.note bad)

def reported (r : Routine) (offset : Nat) (x : Watched α) : Watched α := fun w =>
  match x w with
  | .ok a w => .ok a w
  | .error e w => .error (e.within r.ref offset) w

abbrev Caller := Routine → List Value → Watched Value

def runInitialiser (call : Caller) (c : PreparedClass) : Watched Unit := do
  match (c.findMethod? "<clinit>" "()V").bind PreparedMethod.routine? with
  | none => pure ()
  | some (.error e) => throw (.error (.load e))
  | some (.ok r) =>
    note (.starts c.name)
    let _ ← call r []
    pure ()

/-- Initialises classes, each the superclass of the one before it: those behind it come first. -/
def initialiseAll (call : Caller) : List PreparedClass → Watched Unit
  | [] => pure ()
  | c :: above => ending (do
      initialiseAll call above
      runInitialiser call c) (.finishes c.name) (.fails c.name)

def initialise (p : Program) (call : Caller) (c : PreparedClass) : Watched Unit := do
  let store ← lift get
  let classes := unstarted p p.length store.started c
  modify fun w => w.enter classes
  initialiseAll call classes

/-- Initialises a class in order to use a field of it. -/
def access (p : Program) (call : Caller) (c : PreparedClass) (e : Event) : Watched Unit := do
  initialise p call c
  note e

def getStatic (p : Program) (call : Caller) (f : Frame) (ref : MemberRef) : Watched Frame := do
  let c ← lift (ofResult (p.fieldOwner ref))
  access p call c (.reads c.name)
  lift do
    let store ← get
    let v := (store.statics.lookup ⟨c.name, ref.name, ref.descriptor⟩).getD default
    let (_, f) ← onFrame (Frame.push v) f
    pure f

def putStatic (p : Program) (call : Caller) (f : Frame) (ref : MemberRef) : Watched Frame := do
  let c ← lift (ofResult (p.fieldOwner ref))
  access p call c (.writes c.name)
  lift do
    let store ← get
    let key : MemberRef := ⟨c.name, ref.name, ref.descriptor⟩
    let kind := ((store.statics.lookup key).getD default).kind
    let (v, f) ← onFrame (Frame.popKind kind) f
    set { store with statics := store.statics.set key v }
    pure f

def invokeStatic (s : Setting) (call : Caller) (f : Frame) (ref : MemberRef) : Watched Frame := do
  match s.program.routine ref with
  | .error e =>
    lift (match Native.find? ref with
      | some m => invokeNative s.clock f m
      | none => throw (.error e))
  | .ok (c, r) =>
    let (args, f) ← lift (onFrame (Frame.popKinds r.params) f)
    initialise s.program call c
    let v ← call r args
    lift (pushResult f v)

/-- An instruction that reaches no further than its frame. -/
def performLocal (r : Routine) (pc : Nat) (f : Frame) (i : Instruction) : Run Outcome := do
  let (control, f) ← onFrame (step i.op) f
  match control with
  | .next => pure (.next f (pc + 1))
  | .ret v => pure (.done v)
  | .jump t =>
    match r.offsets.find? (i.absolute t) with
    | some k => pure (.next f k)
    | none => throw (.error (.badBranch (i.absolute t)))

def perform (s : Setting) (call : Caller) (r : Routine) (pc : Nat) (f : Frame) (i : Instruction) :
    Watched Outcome := do
  let onward (f : Frame) : Outcome := .next f (pc + 1)
  match i.op with
  | .getStatic ref => onward <$> getStatic s.program call f ref
  | .putStatic ref => onward <$> putStatic s.program call f ref
  | .invokeStatic ref => onward <$> invokeStatic s call f ref
  | _ => lift (performLocal r pc f i)

/-- Runs a method in a frame of its own. One that exceeds the limit stays counted. -/
def inFrame (method : MemberRef) (x : Watched α) : Watched α := fun w =>
  let w := { w with frames := w.frames + 1 }
  if w.frames > maxDepth then .error (.error .stackOverflow) (w.note .overflows)
  else
    match x (w.note (.opens method)) with
    | .ok a w => .ok a w.leave
    | .error e w => .error e w.leave

mutual

def call (s : Setting) : (fuel : Nat) → Routine → List Value → Watched Value
  | 0, _, _ => throw .exhausted
  | fuel + 1, r, args => inFrame r.ref do
    let (_, f) ← lift (onFrame (Frame.enter 0 args) (.fresh r.maxLocals r.maxStack))
    resume s fuel r 0 f

def resume (s : Setting) : (fuel : Nat) → Routine → (pc : Nat) → Frame → Watched Value
  | 0, _, _, _ => throw .exhausted
  | fuel + 1, r, pc, f =>
    match r.instrs[pc]? with
    | none => throw (.error (.fallsOff r.ref))
    | some i => do
      note .steps
      match ← reported r i.offset (perform s (call s fuel) r pc f i) with
      | .next f pc => resume s fuel r pc f
      | .done v =>
        if v.kind = r.result then pure v else throw (.error (.wrongReturn r.ref v.kind r.result))

end

end Watched

namespace Watched

/-- Runs a method for a request. -/
def invoke (s : Setting) (fuel : Nat) (ref : MemberRef) (args : List Value) : Watched Value := do
  let (c, r) ← lift (ofResult (s.program.routine ref))
  lift (ofResult (checkArguments ref args r.params))
  initialise s.program (call s fuel) c
  call s fuel r args

/-- Reads a field for a request. -/
def static (s : Setting) (fuel : Nat) (ref : MemberRef) : Watched Value := do
  let c ← lift (ofResult (s.program.fieldOwner ref))
  access s.program (call s fuel) c (.reads c.name)
  lift do
    let store ← get
    pure ((store.statics.lookup ⟨c.name, ref.name, ref.descriptor⟩).getD default)

end Watched

/-! ## Machines over time -/

/-- What a machine can be asked to do. -/
inductive Request where
  | invoke (clock : Native.Clock) (fuel : Nat) (ref : MemberRef) (args : List Value)
  | static (clock : Native.Clock) (fuel : Nat) (ref : MemberRef)

def serve (m : Machine) : Request → Except Stop Value × Machine
  | .invoke clock fuel ref args => m.invoke clock fuel ref args
  | .static clock fuel ref => m.static clock fuel ref

/-- The machine after requests, whatever it has answered. -/
def after (m : Machine) (qs : List Request) : Machine := qs.foldl (fun m q => (m.serve q).2) m

namespace Watch

/-- The outcome of a run, and the watch after it. -/
def run {α : Type} (w : Watch) (x : Watched α) : Except Stop α × Watch :=
  match x w with
  | .ok a w => (.ok a, w)
  | .error e w => (.error e, w)

/-- The count of frames that a request starts with. -/
def base (w : Watch) : Request → Nat
  | .invoke .. => 0
  | .static .. => w.frames

def serve (p : Program) (w : Watch) (q : Request) : Except Stop Value × Watch :=
  let w := { w with frames := w.base q }
  match q with
  | .invoke clock fuel ref args =>
    let (result, w) := w.run (Watched.invoke ⟨p, clock⟩ fuel ref args)
    (ofStop result, w)
  | .static clock fuel ref => w.run (Watched.static ⟨p, clock⟩ fuel ref)

def after (p : Program) (w : Watch) (qs : List Request) : Watch :=
  qs.foldl (fun w q => (w.serve p q).2) w

end Watch

end ClassWasm.Machine
