/-
  Lowering of a static method to a WebAssembly function. Where a construct opens with values on
  the stack, they move into locals of that construct and are pushed again inside it. A construct
  gives the stack at the instruction it ends at, and a branch back to a loop first stores the
  values that the loop starts with into the locals of the loop.
-/
import ClassWasm.ClassFile
import ClassWasm.Lowering.Locals
import ClassWasm.Lowering.Straight
import ClassWasm.Region.Tree
import ClassWasm.StackTyping

namespace ClassWasm

namespace Lowering

open Wasm (Plain Instr BlockType FuncType ValType)

/-- The indices that stand for members in the module. -/
structure Resolver where
  global : MemberRef → Option UInt32
  function : MemberRef → Option UInt32

/-- Why an instruction cannot be lowered. -/
inductive OpError where
  | field (ref : MemberRef)
  | method (ref : MemberRef)
  /-- A branch leads to an offset that no construct around it starts or ends at. -/
  | noConstruct (offset : Nat)
  | shuffle (op : StackOp) (stack : List Kind)
  /-- There is no instruction for an operator on values of a kind. -/
  | arith (kind : Kind) (op : IntOp)
  /-- There is no instruction for a conversion. -/
  | conversion (source target : Kind)
  /-- The operation is none of those that lowering knows. -/
  | unknown (op : Operation)

inductive Error where
  | noCode (name descriptor : Text)
  | instanceMethod (name descriptor : Text)
  | handlers (name descriptor : Text)
  | descriptor (e : Descriptor.Error)
  | typing (e : StackTyping.Error)
  | operation (opcode : UInt8) (offset : Nat) (e : OpError)
  /-- An index that lies outside a table. This is no error that is reported to a caller: everything
  stops. -/
  | crash (index : Int32)

/-- The name of the type that stands for an operation. -/
def typeName : Operation → Text
  | .nop => "Nop"
  | .const _ => "Const"
  | .load .. => "Load"
  | .store .. => "Store"
  | .increment .. => "Increment"
  | .arith _ => "Arith"
  | .convert _ => "Convert"
  | .narrow _ => "Truncate"
  | .compare _ => "Compare"
  | .stack _ => "Stack"
  | .getStatic _ => "GetStatic"
  | .putStatic _ => "PutStatic"
  | .invokeStatic _ => "InvokeStatic"
  | .ret _ => "Return"
  | .goto _ => "Goto"
  | .branch .isNull _ | .branch .isNonNull _ => "IfNull"
  | .branch (.zero _) _ => "If"
  | .branch (.compare _) _ => "IfCmp"
  | .tableSwitch .. => "TableSwitch"
  | .lookupSwitch .. => "LookupSwitch"

def crashText (index : Int32) : Text := s!"runtime error: index out of range [{index.toInt}]"

def OpError.message : OpError → Text
  | field ref => "unresolved symbol: field " ++ ref.text
  | method ref => "unresolved symbol: method " ++ ref.text
  | noConstruct offset => s!"unsupported method: no enclosing construct ends at {offset}"
  | shuffle op stack => StackTyping.shuffleText op stack
  | arith kind op => "unsupported method: " ++ kind.name ++ " " ++ op.name
  | conversion source target => "unsupported method: " ++ source.name ++ " to " ++ target.name
  | unknown op => "unsupported method: bytecode." ++ typeName op

def OpError.causes : OpError → List Cause
  | field _ | method _ => [.unresolvedSymbol]
  | noConstruct _ | arith .. | conversion .. | unknown _ => [.unsupported]
  | shuffle .. => [.inconsistentStack]

def Error.message : Error → Text
  | noCode name type => "unsupported method: " ++ name ++ type ++ " has no code"
  | instanceMethod name type => "unsupported method: " ++ name ++ type ++ " is an instance method"
  | handlers name type => "unsupported method: " ++ name ++ type ++ " has exception handlers"
  | descriptor e => e.message
  | typing e => e.message
  | operation opcode offset e => mnemonic opcode ++ s!" at {offset}: " ++ e.message
  | crash index => crashText index

def Error.causes : Error → List Cause
  | noCode .. | instanceMethod .. | handlers .. => [.unsupported]
  | descriptor _ => []
  | typing e => e.causes
  | operation _ _ e => e.causes
  | crash _ => []

instance : Fault Error := ⟨Error.message, Error.causes⟩

/-- What stays the same throughout a method. -/
structure Context where
  instrs : Array Instruction
  table : OffsetTable
  typing : Array (Option (List Kind))
  resolver : Resolver
  /-- The widest range of keys for which a switch becomes a table. -/
  maxSpan : Int

/-- A construct that a branch can name: a loop by its start, with the locals that hold its stack,
or a block by its stop. -/
inductive Label where
  | loop (start : Nat) (spill : List UInt32)
  | block (stop : Nat)

/-- `done` holds the instructions of the innermost construct, last first. `dead` holds after a
branch, return or trap, where nothing needs to be said about the stack. -/
structure State where
  locals : Locals
  types : Array FuncType
  done : List Instr
  dead : Bool

abbrev M := EStateM Error State

def emit (i : Instr) : M Unit := modify fun s => { s with done := i :: s.done }

def emitAll (ps : List Plain) : M Unit :=
  modify fun s => { s with done := ps.foldl (fun done p => .plain p :: done) s.done }

def setDead (dead : Bool) : M Unit := modify fun s => { s with dead }

/-- Makes the rest of the construct fit any stack. -/
def unreachable : M Unit := do
  if !(← get).dead then
    emit (.plain .unreachable)
    setDead true

def withLocals {α : Type} (f : Locals → α × Locals) : M α :=
  modifyGet fun s =>
    let (a, locals) := f s.locals
    (a, { s with locals })

def temp (t : ValType) (n : Nat) : M UInt32 := withLocals (Locals.temp t n)

/-- Values that a construct gives, lowest first. -/
def blockType (kinds : List Kind) : M BlockType :=
  match kinds with
  | [] => pure .empty
  | [k] => pure (.value (.ofKind k))
  | ks => modifyGet fun s =>
    let (i, types) := Wasm.internType s.types ⟨[], ks.map .ofKind⟩
    (.func (UInt32.ofNat i), { s with types })

/-- Pops values into locals, given from the lowest value up. -/
def spill (ls : List UInt32) : M Unit := emitAll (ls.reverse.map .localSet)

def reload (ls : List UInt32) : M Unit := emitAll (ls.map .localGet)

/-- A new local for each kind. -/
def freshAll : List Kind → M (List UInt32)
  | [] => pure []
  | k :: ks => do
    let l ← withLocals (Locals.fresh (.ofKind k))
    let ls ← freshAll ks
    pure (l :: ls)

/-- Moves values of the kinds, lowest first, into new locals. -/
def spillFresh (kinds : List Kind) : M (List UInt32) := do
  let ls ← freshAll kinds
  spill ls
  pure ls

/-- The instructions of a part of a construct, in order. -/
def nested (inner : M Unit) : M (List Instr) := do
  let outer := (← get).done
  modify fun s => { s with done := [], dead := false }
  inner
  let body := (← get).done.reverse
  modify fun s => { s with done := outer }
  pure body

/-- Adds a construct that ends at instruction `stop`. -/
def close (ctx : Context) (stop : Nat) (i : Instr) : M Unit := do
  emit i
  setDead false
  if ((ctx.typing[stop]?).join).isNone then unreachable

/-- The stack before an instruction, top first, where control reaches it. -/
def Context.stack? (ctx : Context) (k : Nat) : Option (List Kind) := (ctx.typing[k]?).join

/-- The stack at the instruction that a construct ends at, lowest first. -/
def Context.result (ctx : Context) (stop : Nat) : List Kind := ((ctx.stack? stop).getD []).reverse

/-- Where a branch from `k` to `t` finds its construct: backward at a loop, forward at a block. -/
def Label.serves (k t : Nat) : Label → Bool
  | loop start _ => t ≤ k && start = t
  | block stop => t > k && stop = t

/-- How far out the construct lies that a branch leads to. -/
def depth (ctx : Context) (labels : List Label) (k : Nat) (i : Instruction) (delta : Int32) :
    Except OpError (UInt32 × Label) :=
  let t := (ctx.table.find? (i.absolute delta)).getD 0
  match labels.zipIdx.find? fun (l, _) => l.serves k t with
  | some (l, d) => .ok (UInt32.ofNat d, l)
  | none => .error (.noConstruct ((ctx.instrs[t]?).map Instruction.offset |>.getD 0))

def Label.spilled : Label → List UInt32
  | loop _ spill => spill
  | block _ => []

def jump (target : UInt32 × Label) : M Unit := do
  spill target.2.spilled
  emit (.plain (.br target.1))
  setDead true

def branchIf (c : Condition) (target : UInt32 × Label) : M Unit := do
  emitAll (condition c)
  match target.2.spilled with
  | [] => emit (.plain (.brIf target.1))
  | ls => do
    let flag ← temp .i32 0
    emit (.plain (.localSet flag))
    spill ls
    emitAll [.localGet flag, .brIf target.1]
    reload ls

/-- Makes the least key zero. -/
def rebase (low : Int32) : List Plain :=
  if low = 0 then [] else [.i32Const low, .intBinary .w32 .sub]

/-- The table from the least to the greatest key; of equal keys the last counts. The index of a key
has 32 bits. -/
def denseTable (low : Int32) (span : Nat) (default : UInt32) (cases : List (Int32 × UInt32)) :
    List UInt32 :=
  (cases.foldl (fun t (key, d) => t.setIfInBounds (key - low).toInt.toNat d)
    (Array.replicate span default)).toList

/-- The first index that has wrapped around, and so lies before the table. -/
def wrapped? (low : Int32) (keys : List Int32) : Option Int32 :=
  (keys.map (· - low)).find? fun i => i.toInt < 0

/-- Compares with one key after the other; of equal keys the first counts. -/
def comparisonChain (key : UInt32) (default : UInt32) (cases : List (Int32 × UInt32)) :
    List Plain :=
  .localSet key :: cases.flatMap (fun (v, d) =>
    [.localGet key, .i32Const v, .intCompare .w32 .eq, .brIf d]) ++ [.br default]

def lookupSwitch (maxSpan : Int) (default : UInt32) (cases : List (Int32 × UInt32)) : M Unit := do
  match cases.map Prod.fst with
  | [] => emitAll [.drop, .br default]
  | k :: ks =>
    let low := ks.foldl min k
    let high := ks.foldl max k
    let span := high.toInt - low.toInt + 1
    if span ≤ maxSpan then
      match wrapped? low (k :: ks) with
      | some i => throw (.crash i)
      | none =>
        emitAll (rebase low ++ [.brTable (denseTable low span.toNat default cases) default])
    else
      emitAll (comparisonChain (← temp .i32 0) default cases)
  setDead true

/-- Scratch locals for values of the kinds, as many of each type as are needed. -/
def tempsFor (used : List ValType) : List Kind → M (List UInt32)
  | [] => pure []
  | k :: ks => do
    let t := ValType.ofKind k
    let l ← temp t (used.count t)
    let ls ← tempsFor (t :: used) ks
    pure (l :: ls)

def rearrange (s : Shuffle) (stack : List Kind) : M Unit := do
  if s.order.isEmpty then emitAll (List.replicate s.taken .drop)
  else
    let ls ← tempsFor [] (s.takenFrom stack)
    spill ls
    reload (s.order.filterMap fun p => ls[p]?)

def slot (s : UInt16) (k : Kind) : M UInt32 := withLocals (Locals.slot s.toNat k)

/-- Scratch locals for the two operands of an instruction. -/
def twoTemps (t : ValType) : M (UInt32 × UInt32) := do
  let a ← temp t 0
  let b ← temp t 1
  pure (a, b)

def found {α : Type} (fail : OpError → Error) (x : Except OpError α) : M α :=
  match x with
  | .ok a => pure a
  | .error e => throw (fail e)

def arithOpcode (k : Kind) (op : IntOp) : Except OpError Plain :=
  match arithOpcode? k op with
  | some p => .ok p
  | none => .error (.arith k op)

def conversionOpcode (source target : Kind) : Except OpError Plain :=
  match conversionOpcode? source target with
  | some p => .ok p
  | none => .error (.conversion source target)

/-- Arithmetic on values of a kind. Integers are divided and negated by several instructions, and
the distance of a shift is an `int` also where the shifted number is longer. -/
def arith (fail : OpError → Error) (k : Kind) (op : IntOp) : M Unit := do
  match integerWidth? k, op with
  | some w, .div =>
    let (a, b) ← twoTemps (.ofKind k)
    emitAll (divide w a b)
  | some w, .neg => emitAll [intConstant w (-1), .intBinary w .mul]
  | _, _ =>
    if k = .long ∧ (op = .shl ∨ op = .shr ∨ op = .ushr) then emit (.plain (.convert .extendU))
    emit (.plain (← found fail (arithOpcode k op)))

def convert (fail : OpError → Error) (source target : Kind) : M Unit := do
  emit (.plain (← found fail (conversionOpcode source target)))

/-- Lowers the branch or switch `i` at position `k`. -/
def branching (ctx : Context) (labels : List Label) (k : Nat) (i : Instruction) : M Unit := do
  let fail := Error.operation i.opcode i.offset
  let target (delta : Int32) := found fail (depth ctx labels k i delta)
  match i.op with
  | .goto t => jump (← target t)
  | .branch c t => branchIf c (← target t)
  | .tableSwitch default low ts =>
    let ds ← ts.mapM target
    let d ← target default
    emitAll (rebase low ++ [.brTable (ds.map Prod.fst) d.1])
    setDead true
  | .lookupSwitch default cases =>
    let d ← target default
    let ds ← cases.mapM fun (_, t) => target t
    lookupSwitch ctx.maxSpan d.1 ((cases.map Prod.fst).zip (ds.map Prod.fst))
  | op => throw (fail (.unknown op))

/-- Lowers the instruction `i` at position `k` on a stack. -/
def operation (ctx : Context) (labels : List Label) (k : Nat) (i : Instruction)
    (stack : List Kind) : M Unit := do
  let fail := Error.operation i.opcode i.offset
  match i.op with
  | .nop => pure ()
  | .const c => emit (constant c)
  | .load kind s => emit (.plain (.localGet (← slot s kind)))
  | .store kind s => emit (.plain (.localSet (← slot s kind)))
  | .increment s delta =>
    let l ← slot s .int
    emitAll [.localGet l, .i32Const delta.toInt32, .intBinary .w32 .add, .localSet l]
  | .arith a => arith fail a.kind (arithOperator a)
  | .convert c => convert fail c.source c.target
  | .narrow n => emitAll (narrowing n)
  | .compare c =>
    let (a, b) ← twoTemps (.ofKind c.kind)
    emitAll (comparison c a b)
  | .stack op =>
    match Shuffle.of? op stack with
    | some s => rearrange s stack
    | none => throw (fail (.shuffle op stack))
  | .getStatic ref =>
    match ctx.resolver.global ref with
    | some g => emit (.plain (.globalGet g))
    | none => throw (fail (.field ref))
  | .putStatic ref =>
    match ctx.resolver.global ref with
    | some g => emit (.plain (.globalSet g))
    | none => throw (fail (.field ref))
  | .invokeStatic ref =>
    match ctx.resolver.function ref with
    | some f => emit (.plain (.call f))
    | none => throw (fail (.method ref))
  | .ret _ =>
    emit (.plain .ret)
    setDead true
  | _ => branching ctx labels k i

/-- How many operands the test of a conditional block takes. -/
def guardOperands (c : Condition) : Nat := (StackTyping.conditionOperands c).length

/-- The condition under which the branch at a position is taken. -/
def Context.guard (ctx : Context) (k : Nat) : Condition :=
  match (ctx.instrs[k]?).map Instruction.op with
  | some (.branch c _) => c
  | _ => .isNull

/-- Values below the operands of a guard move into new locals, past the flag that decides. -/
def spillBelow (below : List Kind) : M (List UInt32) :=
  match below with
  | [] => pure []
  | _ => do
    let flag ← temp .i32 0
    emit (.plain (.localSet flag))
    let ls ← spillFresh below
    emit (.plain (.localGet flag))
    pure ls

mutual

/-- Lowers a node inside the constructs of `labels`, innermost first. -/
def node (ctx : Context) (labels : List Label) : Node → M Unit
  | .op k =>
    match ctx.instrs[k]?, ctx.stack? k with
    | some i, some stack => operation ctx labels k i stack
    | _, _ => unreachable
  | .loop start stop body =>
    match ctx.stack? start with
    | none => unreachable
    | some stack => do
      let ls ← spillFresh stack.reverse
      let t ← blockType (ctx.result stop)
      let inner ← nested do
        reload ls
        nodes ctx (.loop start ls :: labels) body
      close ctx stop (.loop t inner)
  | .block start stop .conditional body =>
    match ctx.stack? start with
    | none => unreachable
    | some stack => do
      let c := ctx.guard start
      emitAll (condition (negateCondition c))
      let ls ← spillBelow (stack.drop (guardOperands c)).reverse
      let t ← blockType (ctx.result stop)
      let inner ← nested do
        reload ls
        nodes ctx (.block stop :: labels) body
      if (ctx.result stop).isEmpty then close ctx stop (.ifThen t inner)
      else
        let other ← nested (reload ls)
        close ctx stop (.ifElse t inner other)
  | .block start stop _ body =>
    match ctx.stack? start with
    | none => unreachable
    | some stack => do
      let ls ← spillFresh stack.reverse
      let t ← blockType (ctx.result stop)
      let inner ← nested do
        reload ls
        nodes ctx (.block stop :: labels) body
      close ctx stop (.block t inner)

def nodes (ctx : Context) (labels : List Label) : List Node → M Unit
  | [] => pure ()
  | n :: ns => do
    node ctx labels n
    nodes ctx labels ns

end

/-- The greatest range of keys that becomes a table where nothing else is asked for. -/
def defaultMaxSpan : Int := 4096

/-- A lowered function. -/
structure Function where
  locals : List Wasm.LocalRun
  body : List Instr

/-- The body in binary form, with the opcode that ends it. -/
def Function.encode (f : Function) : Wasm.FuncBody :=
  ⟨f.locals, Instr.encodeAll f.body ++ [Wasm.endOpcode]⟩

/-- What is known of a method before its body is lowered. -/
def check (m : Method) (instrs : Array Instruction) :
    Except Error (MethodType × Array (Option (List Kind))) :=
  match m.code? with
  | none => .error (.noCode m.name m.descriptor)
  | some code =>
    if !m.access.isStatic then .error (.instanceMethod m.name m.descriptor)
    else if !code.handlers.isEmpty then .error (.handlers m.name m.descriptor)
    else match Descriptor.parseMethod m.descriptor with
      | .error e => .error (.descriptor e)
      | .ok type =>
        match stackTyping type.resultKind instrs with
        | .error e => .error (.typing e)
        | .ok typing => .ok (type, typing)

/-- The function of a whole tree. -/
def body (ctx : Context) (tree : List Node) : M Function := do
  nodes ctx [] tree
  unreachable
  let s ← get
  pure ⟨s.locals.declarations, s.done.reverse⟩

end Lowering

/-- Lowers a static method with its instructions and their tree. Function types that constructs
need are added to `types`, also where lowering fails further on. -/
def lower (resolver : Lowering.Resolver) (maxSpan : Int) (m : Method)
    (instrs : Array Instruction) (tree : List Node) (types : Array Wasm.FuncType) :
    Except Lowering.Error Lowering.Function × Array Wasm.FuncType :=
  match Lowering.check m instrs with
  | .error e => (.error e, types)
  | .ok (type, typing) =>
    let ctx : Lowering.Context :=
      { instrs, typing, resolver, table := OffsetTable.ofInstructions instrs,
        maxSpan := if maxSpan ≤ 0 then Lowering.defaultMaxSpan else maxSpan }
    let start : Lowering.State :=
      ⟨Lowering.Locals.ofParams (type.params.map FieldType.kind), types, [], false⟩
    match Lowering.body ctx tree start with
    | .ok f s => (.ok f, s.types)
    | .error e s => (.error e, s.types)

end ClassWasm
