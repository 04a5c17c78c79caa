/-
  Instructions that touch nothing but the frame they run in.
-/
import ClassWasm.Machine.Arithmetic
import ClassWasm.Machine.Error
import ClassWasm.Shuffle

namespace ClassWasm.Machine

/-- Where control goes after an instruction. -/
inductive Control where
  | next
  | jump (target : Int32)
  | ret (v : Value)

/-- Computations on a frame that may also fail for other reasons than the frame. -/
abbrev Step := EStateM Stop Frame

instance : MonadLift Frame.Access Step where
  monadLift x := fun f =>
    match x f with
    | .ok a f => .ok a f
    | .error e f => .error (.frame e) f

def fail {α : Type} (e : Error) : Step α := throw (.error e)

def divisionByZero : Error := .thrown (.arithmetic "/ by zero")

/-- The values that a computation with two operands takes, the deeper first. -/
def popTwo (a b : Kind) : Step (Value × Value) := do
  let y ← Frame.popKind b
  let x ← Frame.popKind a
  pure (x, y)

def popInt : Step Int32 := do
  let v ← Frame.popKind .int
  pure v.lowInt

def arith (op : Arith) : Step Unit := do
  let (a, b) ← if op.isUnary then do
      let v ← Frame.popKind op.kind
      pure (v, v)
    else popTwo op.kind (if op.isShift then .int else op.kind)
  match op.eval a b with
  | some v => Frame.push v
  | none => fail divisionByZero

/-- Rearranges the stack as far as its kinds allow. -/
def shuffle (op : StackOp) : Step Unit := do
  let f ← get
  match Shuffle.of? op f.kinds with
  | none => fail (.shuffle op f.kinds)
  | some s =>
    set { f with stack := f.stack.drop s.taken }
    (s.pushed f.stack).forM fun v => (Frame.push v : Step Unit)

/-- The case of a table that a key selects. -/
def tableTarget (default low : Int32) (targets : List Int32) (key : Int32) : Int32 :=
  let i := key.toInt - low.toInt
  if i < 0 then default else (targets[i.toNat]?).getD default

def lookupTarget (default : Int32) (cases : List (Int32 × Int32)) (key : Int32) : Int32 :=
  (cases.lookup key).getD default

/-- Whether the condition of a branch holds. Every reference is null. -/
def condition : Condition → Step Bool
  | .isNull => do
    let _ ← Frame.popKind .ref
    pure true
  | .isNonNull => do
    let _ ← Frame.popKind .ref
    pure false
  | .zero r => do
    let a ← popInt
    pure (r.holds a 0)
  | .compare r => do
    let b ← popInt
    let a ← popInt
    pure (r.holds a b)

/-- Runs an operation that reaches no further than its frame. Those that do are left to the
machine. -/
def step : Operation → Step Control
  | .nop | .getStatic _ | .putStatic _ | .invokeStatic _ => pure .next
  | .const c => do
    Frame.push (.ofConstant c)
    pure .next
  | .load kind slot => do
    let v ← Frame.getLocal slot.toNat
    if v.kind ≠ kind then fail (.wrongLocal slot.toNat v.kind kind)
    Frame.push v
    pure .next
  | .store kind slot => do
    let v ← Frame.popKind kind
    Frame.setLocal slot.toNat v
    pure .next
  | .increment slot delta => do
    let v ← Frame.getLocal slot.toNat
    Frame.setLocal slot.toNat (.int (v.lowInt + delta.toInt32))
    pure .next
  | .arith op => do
    arith op
    pure .next
  | .convert c => do
    let v ← Frame.popKind c.source
    Frame.push (c.eval v)
    pure .next
  | .narrow n => do
    let v ← popInt
    Frame.push (.int (n.eval v))
    pure .next
  | .compare c => do
    let (a, b) ← popTwo c.kind c.kind
    Frame.push (.int (c.eval a b))
    pure .next
  | .stack op => do
    shuffle op
    pure .next
  | .ret kind => if kind = .void then pure (.ret .void) else do
    let v ← Frame.popKind kind
    pure (.ret v)
  | .goto t => pure (.jump t)
  | .branch c t => do
    if ← condition c then pure (.jump t) else pure .next
  | .tableSwitch default low targets => do
    let key ← popInt
    pure (.jump (tableTarget default low targets key))
  | .lookupSwitch default cases => do
    let key ← popInt
    pure (.jump (lookupTarget default cases key))

end ClassWasm.Machine
