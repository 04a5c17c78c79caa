/-
  Lowering of operations that neither branch nor refer to other members: each becomes a fixed
  sequence of instructions on the same operands, with scratch locals where it needs them. Where one
  instruction does, it is looked up in a table, which has nothing for some operators and kinds.
-/
import ClassWasm.Instruction
import ClassWasm.Wasm.Instr

namespace ClassWasm.Lowering

open Wasm (Plain IntBinary IntCompare FloatBinary FloatCompare Width)

def constant : Constant → Plain
  | .int v => .i32Const v
  | .long v => .i64Const v
  | .float bits => .f32Const bits
  | .double bits => .f64Const bits
  | .null => .refNull .externref

/-- A small number of a width. -/
def intConstant (w : Width) (v : Int) : Plain :=
  match w with
  | .w32 => .i32Const (Int32.ofInt v)
  | .w64 => .i64Const (Int64.ofInt v)

/-- Signed division that does not trap on the least number divided by -1. The divisor -1 is
replaced by 1, and the quotient by the negated dividend. -/
def divide (w : Width) (a b : UInt32) : List Plain :=
  [.localSet b, .localSet a,
   intConstant w 0, .localGet a, .intBinary w .sub,
   .localGet a,
   .localGet b, intConstant w 1, .localGet b, intConstant w (-1), .intCompare w .ne, .select,
   .intBinary w .divS,
   .localGet b, intConstant w (-1), .intCompare w .eq, .select]

/-- The operator of arithmetic on any kind, among those on integers. -/
def arithOperator : Arith → IntOp
  | .int op | .long op => op
  | .float op | .double op =>
    match op with
    | .add => .add
    | .sub => .sub
    | .mul => .mul
    | .div => .div
    | .neg => .neg

def integerOpcode? : IntOp → Option IntBinary
  | .add => some .add
  | .sub => some .sub
  | .mul => some .mul
  | .rem => some .remS
  | .shl => some .shl
  | .shr => some .shrS
  | .ushr => some .shrU
  | .and => some .and
  | .or => some .or
  | .xor => some .xor
  | .div | .neg => none

def floatOpcode? (w : Width) : IntOp → Option Plain
  | .add => some (.floatBinary w .add)
  | .sub => some (.floatBinary w .sub)
  | .mul => some (.floatBinary w .mul)
  | .div => some (.floatBinary w .div)
  | .neg => some (.floatNeg w)
  | _ => none

/-- The one instruction for an operator on values of a kind, where there is one. -/
def arithOpcode? : Kind → IntOp → Option Plain
  | .int, op => (integerOpcode? op).map (.intBinary .w32)
  | .long, op => (integerOpcode? op).map (.intBinary .w64)
  | .float, op => floatOpcode? .w32 op
  | .double, op => floatOpcode? .w64 op
  | .ref, _ | .void, _ => none

/-- The width of integers of a kind. -/
def integerWidth? : Kind → Option Width
  | .int => some .w32
  | .long => some .w64
  | _ => none

/-- The instruction that converts values of one kind into another, where there is one. -/
def conversionOpcode? : Kind → Kind → Option Plain
  | .int, .long => some (.convert .extendS)
  | .int, .float => some (.convert (.toFloatS .w32 .w32))
  | .int, .double => some (.convert (.toFloatS .w32 .w64))
  | .long, .int => some (.convert .wrap)
  | .long, .float => some (.convert (.toFloatS .w64 .w32))
  | .long, .double => some (.convert (.toFloatS .w64 .w64))
  | .float, .int => some (.convert (.truncSatS .w32 .w32))
  | .float, .long => some (.convert (.truncSatS .w32 .w64))
  | .float, .double => some (.convert .promote)
  | .double, .int => some (.convert (.truncSatS .w64 .w32))
  | .double, .long => some (.convert (.truncSatS .w64 .w64))
  | .double, .float => some (.convert .demote)
  | _, _ => none

def narrowing : Narrowing → List Plain
  | .byte => [.convert .extend8S]
  | .short => [.convert .extend16S]
  | .char => [.i32Const 0xFFFF, .intBinary .w32 .and]

/-- The relation `op` between scratch locals. -/
def relate (op : Plain) (a b : UInt32) : List Plain := [.localGet a, .localGet b, op]

/-- Pushes -1, 0 or 1 as the difference of two tests. For floating point, the test that fails
where an operand is no number decides which way that case goes. -/
def comparison (c : Comparison) (a b : UInt32) : List Plain :=
  let float (w : Width) (nanGreater : Bool) : List Plain :=
    if nanGreater then
      relate (.floatCompare w .le) a b ++ [.i32Eqz] ++ relate (.floatCompare w .lt) a b
    else
      relate (.floatCompare w .gt) a b ++ relate (.floatCompare w .ge) a b ++ [.i32Eqz]
  [.localSet b, .localSet a] ++ (match c with
    | .long => relate (.intCompare .w64 .gtS) a b ++ relate (.intCompare .w64 .ltS) a b
    | .float nanGreater => float .w32 nanGreater
    | .double nanGreater => float .w64 nanGreater) ++ [.intBinary .w32 .sub]

def relation : Relation → Plain
  | .eq => .intCompare .w32 .eq
  | .ne => .intCompare .w32 .ne
  | .lt => .intCompare .w32 .ltS
  | .ge => .intCompare .w32 .geS
  | .gt => .intCompare .w32 .gtS
  | .le => .intCompare .w32 .leS

/-- The opposite of a condition. -/
def negateCondition : Condition → Condition
  | .isNull => .isNonNull
  | .isNonNull => .isNull
  | .zero r => .zero r.negate
  | .compare r => .compare r.negate

/-- Replaces the operands of a condition by a number that is not zero where it holds. -/
def condition : Condition → List Plain
  | .isNull => [.refIsNull]
  | .isNonNull => [.refIsNull, .i32Eqz]
  | .zero .eq => [.i32Eqz]
  | .zero .ne => []
  | .zero r => [.i32Const 0, relation r]
  | .compare r => [relation r]

end ClassWasm.Lowering
