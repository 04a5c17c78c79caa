/-
  Linking of classes into one module, in two passes. The first gives every static field a global
  and every static method a function, and settles imports, exports and the start function. The
  second lowers the methods, in the order of their indices, against what the first has settled.
-/
import ClassWasm.Hierarchy
import ClassWasm.Instruction.Decode
import ClassWasm.Link.LinkMap
import ClassWasm.Link.Options
import ClassWasm.Lowering

namespace ClassWasm

namespace Link

open Wasm (ExternKind)

/-- Why a method cannot be linked. -/
inductive MethodFault where
  | decode (e : Instruction.Error)
  | region (e : Region.Error)
  | lowering (e : Lowering.Error)
  | descriptor (e : Descriptor.Error)
  | reference (ref : MemberRef) (e : Descriptor.Error)

/-- Calls that come at the wrong time. -/
inductive PhaseFault where
  | addAfterDeclare
  | declareTwice
  | emitOutOfOrder
deriving DecidableEq

inductive Error where
  | phase (fault : PhaseFault)
  | className (e : Pool.Error)
  | duplicateClass (name : Text)
  | fieldDescriptor (owner field : Text) (e : Descriptor.Error)
  /-- The constant of a field is not of the field's type. -/
  | constant (owner field : Text) (tag : Tag) (descriptor : Text)
  | method (ref : MemberRef) (fault : MethodFault)
  /-- Lowering a method has stopped everything. -/
  | crash (index : Int32)

/-- What becomes of a failure to lower a method. A crash is reported by nobody. -/
def Error.ofLowering (ref : MemberRef) : Lowering.Error → Error
  | .crash index => .crash index
  | e => .method ref (.lowering e)

def MethodFault.message : MethodFault → Text
  | decode e => e.message
  | region e => e.message
  | lowering e => e.message
  | descriptor e => e.message
  | reference ref e => ref.text ++ ": " ++ e.message

def MethodFault.causes : MethodFault → List Cause
  | decode e => e.causes
  | region e => e.causes
  | lowering e => e.causes
  | descriptor _ | reference .. => []

def PhaseFault.text : PhaseFault → Text
  | addAfterDeclare => "Add after Declare"
  | declareTwice => "Declare called twice"
  | emitOutOfOrder => "Emit must follow Declare once"

def Error.message : Error → Text
  | phase fault => "linker used out of order: " ++ fault.text
  | className e => e.message
  | duplicateClass name => "duplicate class: " ++ name
  | fieldDescriptor owner field e => owner ++ "." ++ field ++ ": " ++ e.message
  | constant owner field tag descriptor =>
    owner ++ "." ++ field ++ ": constant value does not match field type: " ++ tag.name
      ++ " constant for " ++ descriptor
  | method ref fault => ref.owner ++ "." ++ ref.name ++ ref.descriptor ++ ": " ++ fault.message
  | crash index => Lowering.crashText index

def Error.causes : Error → List Cause
  | phase _ => [.phase]
  | className e => e.causes
  | duplicateClass _ => [.duplicateClass]
  | fieldDescriptor .. => []
  | constant .. => [.invalidConstant]
  | method _ fault => .method :: fault.causes
  | crash _ => []

instance : Fault Error := ⟨Error.message, Error.causes⟩

/-- A method that becomes a function of the module. -/
structure LinkedMethod where
  owner : Text
  pool : Pool
  method : Method
  index : Nat

def LinkedMethod.ref (m : LinkedMethod) : MemberRef := ⟨m.owner, m.method.name, m.method.descriptor⟩

/-- A member that the module imports, with its index among imports of its kind. -/
structure ImportedMember where
  kind : ExternKind
  ref : MemberRef
  index : Nat

/-- Classes in the order they were added, and what has been settled about them. In the lists of
indices and names the latest entry comes first. -/
structure Linker where
  options : Options
  classes : Hierarchy := []
  module : Wasm.Module := {}
  imports : List ImportedMember := []
  globalIndices : List (MemberRef × Nat) := []
  functionIndices : List (MemberRef × Nat) := []
  methods : List LinkedMethod := []
  initialisers : List Nat := []
  exportNames : List ((ExternKind × MemberRef) × Text) := []
  start : Option Nat := none
  linkMap : Option LinkMap := none
  declared : Bool := false
  emitted : Bool := false

abbrev M := EStateM Error Linker

/-- The index that an instruction uses for an imported member. -/
def Linker.imported? (l : Linker) (kind : ExternKind) (ref : MemberRef) : Option Nat :=
  (l.imports.find? fun i => i.kind = kind ∧ i.ref = ref).map ImportedMember.index

/-- The global that a reference to a field means. -/
def Linker.global? (l : Linker) (ref : MemberRef) : Option Nat :=
  match l.classes.staticField? ref with
  | some (c, f) => l.globalIndices.lookup ⟨c.name, f.name, f.descriptor⟩
  | none => l.imported? .global ref

/-- The function that a reference to a method means. -/
def Linker.function? (l : Linker) (ref : MemberRef) : Option Nat :=
  match l.classes.staticMethod? ref with
  | some (c, m) => l.functionIndices.lookup ⟨c.name, m.name, m.descriptor⟩
  | none => l.imported? .func ref

def Linker.resolver (l : Linker) : Lowering.Resolver :=
  ⟨fun ref => (l.global? ref).map UInt32.ofNat, fun ref => (l.function? ref).map UInt32.ofNat⟩

/-- A class name with dots for slashes. -/
def dotted (name : Text) : Text := ⟨name.bytes.map fun b => if b = 0x2F then 0x2E else b⟩

def modifyModule (f : Wasm.Module → Wasm.Module) : M Unit :=
  modify fun l => { l with module := f l.module }

/-- The index of a function type in the module. -/
def typeIndex (t : Wasm.FuncType) : M Nat :=
  modifyGet fun l =>
    let (i, types) := Wasm.internType l.module.types t
    (i, { l with module := { l.module with types } })

/-- Adds an import at the end of those of its kind. -/
def addImport (ref : MemberRef) (name : Text) (type : Wasm.ImportType) : M Unit :=
  modify fun l =>
    let imported := ⟨type.kind, ref, l.module.importCount type.kind⟩
    { l with
      imports := l.imports ++ [imported]
      module := { l.module with imports := l.module.imports.push ⟨dotted ref.owner, name, type⟩ } }

/-- Makes the imported global of a field mutable. -/
def makeMutable (ref : MemberRef) : M Unit :=
  modify fun l =>
    match l.imports.findIdx? fun i => i.kind = .global ∧ i.ref = ref with
    | none => l
    | some k =>
      let imports := l.module.imports.modify k fun i =>
        match i.type with
        | .global g => { i with type := .global { g with mutable := true } }
        | _ => i
      { l with module := { l.module with imports } }

/-- Imports a field unless a class or an import provides it. -/
def importGlobal (ref : MemberRef) (stores : Bool) : M (Except Descriptor.Error Unit) := do
  let l ← get
  if (l.classes.staticField? ref).isSome then return .ok ()
  if (l.imported? .global ref).isSome then
    if stores then makeMutable ref
    return .ok ()
  match Descriptor.parseField ref.descriptor with
  | .error e => return .error e
  | .ok t =>
    addImport ref ref.name (.global ⟨.ofKind t.kind, stores⟩)
    return .ok ()

/-- Imports a method unless a class or an import provides it. -/
def importFunction (ref : MemberRef) : M (Except Descriptor.Error Unit) := do
  let l ← get
  if (l.classes.staticMethod? ref).isSome || (l.imported? .func ref).isSome then return .ok ()
  match Descriptor.parseMethod ref.descriptor with
  | .error e => return .error e
  | .ok t =>
    let type ← typeIndex (.ofMethodType t)
    addImport ref (ref.name ++ ref.descriptor) (.func (UInt32.ofNat type))
    return .ok ()

/-- Imports what an instruction refers to. -/
def importFor (op : Operation) : M (Except MethodFault Unit) := do
  let reported (ref : MemberRef) (x : Except Descriptor.Error Unit) : Except MethodFault Unit :=
    x.mapError (.reference ref)
  match op with
  | .getStatic ref => return reported ref (← importGlobal ref false)
  | .putStatic ref => return reported ref (← importGlobal ref true)
  | .invokeStatic ref => return reported ref (← importFunction ref)
  | _ => return .ok ()

/-- The static methods with code of all classes, in order. -/
def staticMethods (classes : Hierarchy) : List (LoadedClass × Method × Code) :=
  classes.flatMap fun c => c.file.methods.filterMap fun m =>
    if m.access.isStatic then m.code?.map fun code => (c, m, code) else none

/-- Imports what the body of a method refers to, in order. -/
def importForMethod (cm : LoadedClass × Method × Code) : M Unit := do
  let (c, m, code) := cm
  let fail (fault : MethodFault) : Error := .method ⟨c.name, m.name, m.descriptor⟩ fault
  match decode c.file.pool code.bytes with
  | .error e => throw (fail (.decode e))
  | .ok instrs =>
    instrs.toList.forM fun i => do
      match ← importFor i.op with
      | .ok () => pure ()
      | .error fault => throw (fail fault)

/-- The constant that a final field starts with; `none` where it is not of the field's kind. A
string is no value of a module and becomes null. -/
def constantInit? (kind : Kind) : Entry → Option Wasm.ConstExpr
  | .integer v => if kind = .int then some (.i32 v) else none
  | .long v => if kind = .long then some (.i64 v) else none
  | .float bits => if kind = .float then some (.f32 bits) else none
  | .double bits => if kind = .double then some (.f64 bits) else none
  | .string _ => if kind = .ref then some (.null .externref) else none
  | _ => none

/-- The global of a static field. One that is final and has a constant never changes; all others
start at zero, since an initialiser may set them. -/
def globalOf (owner : Text) (f : Field) : Except Error Wasm.Global :=
  match Descriptor.parseField f.descriptor with
  | .error e => .error (.fieldDescriptor owner f.name e)
  | .ok t =>
    let type := Wasm.ValType.ofKind t.kind
    match if f.access.isFinal then f.attributes.constantValue? else none with
    | none => .ok ⟨⟨type, true⟩, .zero type⟩
    | some entry =>
      match constantInit? t.kind entry with
      | some init => .ok ⟨⟨type, false⟩, init⟩
      | none => .error (.constant owner f.name entry.tag f.descriptor)

def declareGlobal (owner : Text) (f : Field) : M Unit := do
  match globalOf owner f with
  | .error e => throw e
  | .ok g => modify fun l =>
    let index := l.module.importCount .global + l.module.globals.size
    { l with
      globalIndices := (⟨owner, f.name, f.descriptor⟩, index) :: l.globalIndices
      module := { l.module with globals := l.module.globals.push g } }

/-- The name of a class's static initialiser. -/
def initialiserName : Text := "<clinit>"

def declareFunction (c : LoadedClass) (m : Method) : M Unit := do
  let ref : MemberRef := ⟨c.name, m.name, m.descriptor⟩
  match Descriptor.parseMethod m.descriptor with
  | .error e => throw (.method ref (.descriptor e))
  | .ok t =>
    let l ← get
    let index := l.module.importCount .func + l.module.functions.size
    let type ← typeIndex (.ofMethodType t)
    modify fun l =>
      { l with
        functionIndices := (ref, index) :: l.functionIndices
        methods := l.methods ++ [⟨c.name, c.file.pool, m, index⟩]
        initialisers :=
          if m.name = initialiserName then l.initialisers ++ [index] else l.initialisers
        module := { l.module with functions := l.module.functions.push (UInt32.ofNat type) } }

/-- Whether a policy exports a method. Initialisers are never exported. -/
def ExportPolicy.selects (p : ExportPolicy) (m : Method) : Bool :=
  m.name ≠ initialiserName && match p with
    | .publicOnly => m.access.isPublic
    | .all => true
    | .none => false

/-- The name of a member with its class. -/
def qualified (owner name : Text) : Text := dotted owner ++ "." ++ name

/-- The n-th way to tell a name apart, the first of which is the name itself. -/
def candidate (base : Text) (n : Nat) : Text :=
  if n = 0 then base else base ++ s!"#{n + 1}"

/-- A name that is not in use yet. A name that is taken first gets the descriptor, then a
number. -/
def unusedName (used : List Text) (name descriptor : Text) : Text :=
  let base := if name ∈ used then name ++ descriptor else name
  match (List.range (used.length + 1)).find? fun n => candidate base n ∉ used with
  | some n => candidate base n
  | none => base

def addExport (kind : ExternKind) (ref : MemberRef) (index : Nat) (name : Text) : M Unit :=
  modify fun l =>
    let name := unusedName (l.module.exports.toList.map Wasm.Export.name) name ref.descriptor
    { l with
      exportNames := ((kind, ref), name) :: l.exportNames
      module := { l.module with exports := l.module.exports.push ⟨name, kind, UInt32.ofNat index⟩ } }

/-- Exports the methods that the policy selects; where several have the same name, each with its
descriptor. -/
def exportMethods : M Unit := do
  let l ← get
  let selected := l.methods.filter fun m => l.options.exports.selects m.method
  let name (m : LinkedMethod) : Text := qualified m.owner m.method.name
  let names := selected.map name
  selected.forM fun m =>
    let own := if names.count (name m) > 1 then name m ++ m.method.descriptor else name m
    addExport .func m.ref m.index own

/-- Static fields with their classes, in order. -/
def staticFields (classes : Hierarchy) : List (Text × Field) :=
  classes.flatMap fun c => c.staticFields.map fun f => (c.name, f)

def exportGlobals : M Unit := do
  let l ← get
  if l.options.exportGlobals then
    (staticFields l.classes).forM fun (owner, f) =>
      let ref : MemberRef := ⟨owner, f.name, f.descriptor⟩
      addExport .global ref ((l.globalIndices.lookup ref).getD 0) (qualified owner f.name)

/-- Adds the function that runs all initialisers, where there are any. -/
def declareStart : M Unit := do
  let l ← get
  if l.options.start && !l.initialisers.isEmpty then
    let index := l.module.importCount .func + l.module.functions.size
    let type ← typeIndex ⟨[], []⟩
    modify fun l =>
      { l with
        start := some index
        module := { l.module with
          functions := l.module.functions.push (UInt32.ofNat type)
          start := some (UInt32.ofNat index) } }

def importSymbol (i : ImportedMember × Wasm.Import) : Symbol :=
  { index := UInt32.ofNat i.1.index, kind := i.1.kind.name, owner := i.1.ref.owner
    name := i.1.ref.name, descriptor := i.1.ref.descriptor
    mutable := match i.2.type with
      | .global g => g.mutable
      | _ => false }

def exportNameOf (l : Linker) (kind : ExternKind) (ref : MemberRef) : Text :=
  (l.exportNames.lookup (kind, ref)).getD ⟨[]⟩

def globalSymbol (l : Linker) (of : Text × Field) : Symbol :=
  let (owner, f) := of
  let ref : MemberRef := ⟨owner, f.name, f.descriptor⟩
  let index := (l.globalIndices.lookup ref).getD 0
  { index := UInt32.ofNat index, kind := ExternKind.global.name, owner, name := f.name
    descriptor := f.descriptor, exportName := exportNameOf l .global ref
    mutable := ((l.module.globals[index - l.module.importCount .global]?).map
      fun g => g.type.mutable).getD false }

def functionSymbol (l : Linker) (m : LinkedMethod) : Symbol :=
  { index := UInt32.ofNat m.index, kind := ExternKind.func.name, owner := m.owner
    name := m.method.name, descriptor := m.method.descriptor
    exportName := exportNameOf l .func m.ref }

/-- Where everything has ended up. -/
def buildLinkMap (l : Linker) : LinkMap :=
  { imports := (l.imports.zip l.module.imports.toList).map importSymbol
    globals := (staticFields l.classes).map (globalSymbol l)
    functions := l.methods.map (functionSymbol l)
    start := l.start.map UInt32.ofNat }

/-- The first pass. -/
def declarePass : M Unit := do
  let l ← get
  let methods := staticMethods l.classes
  if l.options.unresolved = .imported then methods.forM importForMethod
  (staticFields l.classes).forM fun (owner, f) => declareGlobal owner f
  methods.forM fun (c, m, _) => declareFunction c m
  exportMethods
  exportGlobals
  declareStart
  modify fun l => { l with linkMap := some (buildLinkMap l) }

/-- The instructions of a method and their tree. -/
def structured (m : LinkedMethod) : Except MethodFault (Array Instruction × List Node) := do
  let instrs ← (decode m.pool ((m.method.code?.map Code.bytes).getD [])).mapError .decode
  let tree ← (structureOf instrs).mapError .region
  .ok (instrs, tree)

/-- Lowers a method and adds its body. -/
def emitMethod (m : LinkedMethod) : M Unit := do
  match structured m with
  | .error fault => throw (.method m.ref fault)
  | .ok (instrs, tree) =>
    let l ← get
    let (result, types) :=
      lower l.resolver l.options.maxSpan m.method instrs tree l.module.types
    modifyModule fun mod => { mod with types }
    match result with
    | .error e => throw (.ofLowering m.ref e)
    | .ok f => modifyModule fun mod => { mod with bodies := mod.bodies.push f.encode }

/-- The function that calls all initialisers in order. -/
def startFunction (initialisers : List Nat) : Lowering.Function :=
  ⟨[], initialisers.map fun f => .plain (.call (UInt32.ofNat f))⟩

/-- The second pass. -/
def emitPass : M Unit := do
  let l ← get
  l.methods.forM emitMethod
  if l.start.isSome then
    let body := (startFunction l.initialisers).encode
    modifyModule fun mod => { mod with bodies := mod.bodies.push body }

/-- The outcome of a pass and the linker after it, which keeps what was done before a failure. -/
def run (pass : M Unit) (l : Linker) : Except Error Unit × Linker :=
  match pass l with
  | .ok () l => (.ok (), l)
  | .error e l => (.error e, l)

namespace Linker

/-- Adds a class, which must come before all passes. -/
def add (l : Linker) (file : ClassFile) : Except Error Linker :=
  if l.declared then .error (.phase .addAfterDeclare)
  else match LoadedClass.ofFile file with
    | .error e => .error (.className e)
    | .ok c =>
      if (l.classes.named? c.name).isSome then .error (.duplicateClass c.name)
      else .ok { l with classes := l.classes ++ [c] }

/-- Runs the first pass, which can be done once. -/
def declare (l : Linker) : Except Error Unit × Linker :=
  if l.declared then (.error (.phase .declareTwice), l)
  else run declarePass { l with declared := true }

/-- Runs the second pass, which can be done once and after the first. -/
def emit (l : Linker) : Except Error Unit × Linker :=
  if !l.declared || l.emitted then (.error (.phase .emitOutOfOrder), l)
  else run emitPass { l with emitted := true }

def addAll (l : Linker) (files : List ClassFile) : Except Error Linker := files.foldlM add l

end Linker

end Link

/-- Links classes into a module. -/
def link (options : Link.Options) (files : List ClassFile) :
    Except Link.Error (Wasm.Module × Link.LinkMap) := do
  let l ← Link.Linker.addAll { options } files
  let (declared, l) := l.declare
  declared
  let (emitted, l) := l.emit
  emitted
  .ok (l.module, l.linkMap.getD {})

end ClassWasm
