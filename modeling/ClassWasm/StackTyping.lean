/-
  The kinds on the operand stack before every instruction that control can reach. All paths to an
  instruction must agree on them. Stacks are lists with the top first.
-/
import ClassWasm.Descriptor
import ClassWasm.Instruction.Mnemonic
import ClassWasm.Shuffle

namespace ClassWasm.StackTyping

/-- Why an operation cannot run on a stack. -/
inductive StepError where
  | underflow
  | wrongKind (found wanted : Kind)
  | shuffle (op : StackOp) (stack : List Kind)
  | descriptor (e : Descriptor.Error)
  | wrongReturn (returned declared : Kind)
deriving DecidableEq

inductive Error where
  | operation (opcode : UInt8) (offset : Nat) (e : StepError)
  | fallsOff (offset : Nat)
  | disagree (stack : List Kind) (source : Nat) (known : List Kind) (offset : Nat)
  | badBranch (offset : Nat) (target : Int)
deriving DecidableEq

/-- A stack as messages show it, bottom first. -/
def stackText (stack : List Kind) : Text := Kind.stackText stack.reverse

def shuffleText (op : StackOp) (stack : List Kind) : Text :=
  "inconsistent operand stack: " ++ op.name ++ " on " ++ stackText stack

def StepError.message : StepError → Text
  | underflow => "inconsistent operand stack: underflow"
  | wrongKind found wanted =>
    "inconsistent operand stack: got " ++ found.name ++ ", want " ++ wanted.name
  | shuffle op stack => shuffleText op stack
  | descriptor e => e.message
  | wrongReturn returned declared =>
    "inconsistent operand stack: returns " ++ returned.name ++ " from a method returning "
      ++ declared.name

def StepError.causes : StepError → List Cause
  | descriptor _ => []
  | _ => [.inconsistentStack]

instance : Fault StepError := ⟨StepError.message, StepError.causes⟩

def Error.message : Error → Text
  | operation opcode offset e => mnemonic opcode ++ s!" at {offset}: " ++ e.message
  | fallsOff offset =>
    s!"inconsistent operand stack: control falls off the end of the code at {offset}"
  | disagree stack source known offset =>
    "inconsistent operand stack: stack " ++ stackText stack ++ s!" from {source} does not match "
      ++ stackText known ++ s!" at {offset}"
  | badBranch offset target =>
    s!"inconsistent operand stack: branch at {offset} to {target}"

def Error.causes : Error → List Cause
  | operation _ _ e => e.causes
  | _ => [.inconsistentStack]

instance : Fault Error := ⟨Error.message, Error.causes⟩

/-- Takes values of the wanted kinds off the stack, the first of them from the top. -/
def pop : List Kind → List Kind → Except StepError (List Kind)
  | [], stack => .ok stack
  | _ :: _, [] => .error .underflow
  | k :: ks, found :: stack => if found = k then pop ks stack else .error (.wrongKind found k)

/-- Puts a value on the stack, or nothing for `void`. -/
def push (k : Kind) (stack : List Kind) : List Kind := if k = .void then stack else k :: stack

/-- What arithmetic takes off the stack, top first. -/
def arithOperands (a : Arith) : List Kind :=
  if a.isUnary then [a.kind]
  else if a.isShift then [.int, a.kind]
  else [a.kind, a.kind]

def conditionOperands : Condition → List Kind
  | .isNull | .isNonNull => [.ref]
  | .zero _ => [.int]
  | .compare _ => [.int, .int]

def fieldKind (ref : MemberRef) : Except StepError Kind :=
  match Descriptor.parseField ref.descriptor with
  | .ok t => .ok t.kind
  | .error e => .error (.descriptor e)

def methodType (ref : MemberRef) : Except StepError MethodType :=
  (Descriptor.parseMethod ref.descriptor).mapError .descriptor

/-- The stack after an operation in a method that returns `ret`. -/
def step (ret : Kind) (op : Operation) (stack : List Kind) : Except StepError (List Kind) :=
  match op with
  | .nop | .goto _ | .increment .. => .ok stack
  | .const c => .ok (push c.kind stack)
  | .load k _ => .ok (push k stack)
  | .store k _ => pop [k] stack
  | .arith a => (pop (arithOperands a) stack).map (push a.kind)
  | .convert c => (pop [c.source] stack).map (push c.target)
  | .narrow _ => (pop [.int] stack).map (push .int)
  | .compare c => (pop [c.kind, c.kind] stack).map (push .int)
  | .stack op =>
    match Shuffle.of? op stack with
    | some s => .ok (s.apply stack)
    | none => .error (.shuffle op stack)
  | .getStatic ref => (fieldKind ref).map (push · stack)
  | .putStatic ref => do pop [← fieldKind ref] stack
  | .invokeStatic ref => do
    let m ← methodType ref
    (pop (m.params.map FieldType.kind).reverse stack).map (push m.resultKind)
  | .ret k =>
    if k ≠ ret then .error (.wrongReturn k ret)
    else if k = .void then .ok stack
    else pop [k] stack
  | .branch c _ => pop (conditionOperands c) stack
  | .tableSwitch .. | .lookupSwitch .. => pop [.int] stack

/-- The stack before each instruction, where control reaches it, and the instructions that are
reached but not yet followed. -/
structure Search where
  typing : Array (Option (List Kind))
  pending : List Nat

/-- Control goes from the instruction at offset `source` to position `k` with a stack. -/
def join (instrs : Array Instruction) (source : Nat) (stack : List Kind) (s : Search) (k : Nat) :
    Except Error Search :=
  match instrs[k]? with
  | none => .error (.fallsOff source)
  | some i =>
    match s.typing[k]? with
    | some (some known) =>
      if known = stack then .ok s else .error (.disagree stack source known i.offset)
    | _ => .ok ⟨s.typing.setIfInBounds k (some stack), k :: s.pending⟩

def joinBranch (instrs : Array Instruction) (table : OffsetTable) (i : Instruction)
    (stack : List Kind) (s : Search) (delta : Int32) : Except Error Search :=
  match table.find? (i.absolute delta) with
  | none => .error (.badBranch i.offset (i.absolute delta))
  | some k => join instrs i.offset stack s k

/-- Follows the instruction `i` at position `k`: its branches in order, then the next one. -/
def follow (instrs : Array Instruction) (table : OffsetTable) (ret : Kind) (s : Search) (k : Nat)
    (i : Instruction) : Except Error Search := do
  let stack := ((s.typing[k]?).join).getD []
  let out ← (step ret i.op stack).mapError (.operation i.opcode i.offset)
  let s ← i.op.branches.foldlM (joinBranch instrs table i out) s
  if i.op.fallsThrough then join instrs i.offset out s (k + 1) else .ok s

/-- Follows instructions until none is pending. Each is pending once at most, so their number is
enough `fuel`. -/
def search (instrs : Array Instruction) (table : OffsetTable) (ret : Kind) :
    (fuel : Nat) → Search → Except Error Search
  | 0, s => .ok s
  | fuel + 1, s =>
    match s.pending with
    | [] => .ok s
    | k :: pending =>
      match instrs[k]? with
      | none => search instrs table ret fuel { s with pending }
      | some i =>
        match follow instrs table ret { s with pending } k i with
        | .error e => .error e
        | .ok s => search instrs table ret fuel s

end ClassWasm.StackTyping

namespace ClassWasm

/-- The stack of kinds, top first, before each instruction that control can reach. -/
def stackTyping (ret : Kind) (instrs : Array Instruction) :
    Except StackTyping.Error (Array (Option (List Kind))) := do
  if instrs.isEmpty then return #[]
  let typing := (Array.replicate instrs.size none).setIfInBounds 0 (some [])
  let table := OffsetTable.ofInstructions instrs
  let s ← StackTyping.search instrs table ret instrs.size ⟨typing, [0]⟩
  .ok s.typing

end ClassWasm
