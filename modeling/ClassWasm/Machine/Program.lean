/-
  Classes prepared for running: every method with code is decoded, or the reason why it cannot be
  is kept for the time it is called.
-/
import ClassWasm.Hierarchy
import ClassWasm.Machine.Error

namespace ClassWasm.Machine

/-- A method ready to run. -/
structure Routine where
  ref : MemberRef
  params : List Kind
  result : Kind
  maxLocals : Nat
  maxStack : Nat
  instrs : Array Instruction
  offsets : OffsetTable

def Routine.load (owner : Text) (pool : Pool) (m : Method) (code : Code) :
    Except LoadError Routine := do
  let ref : MemberRef := ⟨owner, m.name, m.descriptor⟩
  let type ← (Descriptor.parseMethod m.descriptor).mapError .descriptor
  if !code.handlers.isEmpty then .error (.handlers ref)
  else
    let instrs ← (decode pool code.bytes).mapError (.decode ref)
    .ok ⟨ref, type.params.map FieldType.kind, type.resultKind, code.maxLocals.toNat,
      code.maxStack.toNat, instrs, .ofInstructions instrs⟩

/-- A method and, where it has code, what loading it gives. -/
structure PreparedMethod where
  method : Method
  routine? : Option (Except LoadError Routine)

structure PreparedClass extends LoadedClass where
  methods : List PreparedMethod

def PreparedClass.ofLoaded (c : LoadedClass) : PreparedClass :=
  ⟨c, c.file.methods.map fun m =>
    ⟨m, m.code?.map fun code => Routine.load c.name c.file.pool m code⟩⟩

def PreparedClass.findMethod? (c : PreparedClass) (name descriptor : Text) :
    Option PreparedMethod :=
  c.methods.find? fun m => m.method.name = name ∧ m.method.descriptor = descriptor

def PreparedClass.hasStatic (c : PreparedClass) (name descriptor : Text) : Bool :=
  c.staticFields.any fun f => f.name = name ∧ f.descriptor = descriptor

abbrev Program := List PreparedClass

namespace Program

def named? (p : Program) (name : Text) : Option PreparedClass :=
  List.find? (fun c => c.name = name) p

/-- The lookup of the class with a static field of a name and type. -/
def fieldLookup (p : Program) (ref : MemberRef) : Lookup PreparedClass PreparedClass where
  named? := p.named?
  superName c := c.superName
  pick c := if c.hasStatic ref.name ref.descriptor then some c else none

/-- The lookup of the method of a name and type, static or not. -/
def methodLookup (p : Program) (ref : MemberRef) :
    Lookup PreparedClass (PreparedClass × PreparedMethod) where
  named? := p.named?
  superName c := c.superName
  pick c := (c.findMethod? ref.name ref.descriptor).map (c, ·)

/-- The class whose static field a reference means. -/
def fieldOwner (p : Program) (ref : MemberRef) : Except Error PreparedClass :=
  match (p.fieldLookup ref).found? (p.length + 1) ref.owner with
  | some c => .ok c
  | none => .error (.unresolvedField ref)

/-- The routine that a reference means, with its class. The first method of that name decides. -/
def routine (p : Program) (ref : MemberRef) : Except Error (PreparedClass × Routine) :=
  if (p.named? ref.owner).isNone then .error (.unresolvedClass ref.owner)
  else
    match (p.methodLookup ref).found? (p.length + 1) ref.owner with
    | none => .error (.noSuchMethod ref)
    | some (c, m) =>
      match m.routine? with
      | none => .error (.notRunnable ref)
      | some loaded =>
        if !m.method.access.isStatic then .error (.notRunnable ref)
        else match loaded with
          | .error e => .error (.load e)
          | .ok r => .ok (c, r)

end Program

/-- A value for every static field. -/
abbrev Statics := List (MemberRef × Value)

namespace Statics

/-- Puts a value in the place of the one that is there. -/
def set (s : Statics) (ref : MemberRef) (v : Value) : Statics :=
  s.map fun (r, old) => if r = ref then (r, v) else (r, old)

end Statics

/-- Why classes cannot be loaded together. -/
inductive SetupError where
  | className (e : Pool.Error)
  | duplicateClass (name : Text)
  | fieldDescriptor (owner field : Text) (e : Descriptor.Error)
  | constant (owner field descriptor : Text)

def SetupError.message : SetupError → Text
  | className e => e.message
  | duplicateClass name => "duplicate class " ++ name
  | fieldDescriptor owner field e => owner ++ "." ++ field ++ ": " ++ e.message
  | constant owner field d => owner ++ "." ++ field ++ ": constant value does not match " ++ d

def SetupError.causes : SetupError → List Cause
  | className e => e.causes
  | _ => []

instance : Fault SetupError := ⟨SetupError.message, SetupError.causes⟩

/-- The constant of a field of a kind; `none` where it is not of that kind. -/
def constantValue? (k : Kind) : Entry → Option Value
  | .integer v => if k = .int then some (.int v) else none
  | .long v => if k = .long then some (.long v) else none
  | .float bits => if k = .float then some (.ofSingle bits) else none
  | .double bits => if k = .double then some (.double bits) else none
  | .string _ => if k = .ref then some .null else none
  | _ => none

/-- What a static field starts with: the constant of a final field, zero for all others. -/
def initialValue (owner : Text) (f : Field) : Except SetupError Value := do
  let type ← (Descriptor.parseField f.descriptor).mapError (.fieldDescriptor owner f.name)
  match if f.access.isFinal then f.attributes.constantValue? else none with
  | none => .ok (.zero type.kind)
  | some entry =>
    match constantValue? type.kind entry with
    | some v => .ok v
    | none => .error (.constant owner f.name f.descriptor)

/-- The static fields of a class. Of several with one name and type the last counts, which comes
first here. -/
def classStatics (c : LoadedClass) : Except SetupError Statics := do
  let statics ← c.staticFields.mapM fun f => do
    let v ← initialValue c.name f
    pure ((⟨c.name, f.name, f.descriptor⟩ : MemberRef), v)
  .ok statics.reverse

/-- Adds a class to those prepared before it. -/
def addClass (done : Program × Statics) (file : ClassFile) : Except SetupError (Program × Statics) := do
  let c ← (LoadedClass.ofFile file).mapError .className
  if (Program.named? done.1 c.name).isSome then .error (.duplicateClass c.name)
  else
    let statics ← classStatics c
    .ok (done.1 ++ [.ofLoaded c], done.2 ++ statics)

end ClassWasm.Machine
