/-
  What instructions compute from values. Integers wrap around, floating point follows the rounding
  of its format, and conversions to integers stay within their range.
-/
import ClassWasm.Value

namespace ClassWasm

namespace IntOp

/-- `none` for a division by zero. A shift takes the low five bits of its distance. -/
def eval32 (op : IntOp) (a b : Int32) : Option Int32 :=
  match op with
  | add => some (a + b)
  | sub => some (a - b)
  | mul => some (a * b)
  | div => if b = 0 then none else some (a / b)
  | rem => if b = 0 then none else some (a % b)
  | neg => some (-b)
  | shl => some (a <<< b)
  | shr => some (a >>> b)
  | ushr => some (a.toUInt32 >>> b.toUInt32).toInt32
  | and => some (a &&& b)
  | or => some (a ||| b)
  | xor => some (a ^^^ b)

/-- `none` for a division by zero. A shift takes the low six bits of its distance. -/
def eval64 (op : IntOp) (a b : Int64) : Option Int64 :=
  match op with
  | add => some (a + b)
  | sub => some (a - b)
  | mul => some (a * b)
  | div => if b = 0 then none else some (a / b)
  | rem => if b = 0 then none else some (a % b)
  | neg => some (-b)
  | shl => some (a <<< b)
  | shr => some (a >>> b)
  | ushr => some (a.toUInt64 >>> b.toUInt64).toInt64
  | and => some (a &&& b)
  | or => some (a ||| b)
  | xor => some (a ^^^ b)

end IntOp

/-- The pattern of a result. Negation takes its operand from `b`. -/
def FloatOp.eval (op : FloatOp) (f : Ieee.Format) (a b : Nat) : Nat :=
  match op with
  | add => Ieee.add f a b
  | sub => Ieee.sub f a b
  | mul => Ieee.mul f a b
  | div => Ieee.div f a b
  | neg => Ieee.negate f b

namespace Arith

/-- The result for operands of the right kinds; `none` for a division by zero. A unary operation has
its operand in both places. -/
def eval (op : Arith) (a b : Value) : Option Value :=
  match op, a, b with
  | int op, .int a, .int b => (op.eval32 a b).map .int
  | long op, .long a, .long b => (op.eval64 a b).map .long
  | long op, .long a, .int n => (op.eval64 a n.toInt64).map .long
  | float op, .float a, .float b =>
    some (.float (UInt32.ofNat (op.eval Ieee.single a.toNat b.toNat)))
  | double op, .double a, .double b =>
    some (.double (UInt64.ofNat (op.eval Ieee.double a.toNat b.toNat)))
  | op, _, _ => some (.zero op.kind)

end Arith

def Conversion.eval (c : Conversion) (v : Value) : Value :=
  let toInt (f : Ieee.Format) (bits : Nat) : Value :=
    .int (Int32.ofInt (Ieee.toIntSaturating f (-0x80000000) 0x7FFFFFFF bits))
  let toLong (f : Ieee.Format) (bits : Nat) : Value :=
    .long (Int64.ofInt (Ieee.toIntSaturating f (-0x8000000000000000) 0x7FFFFFFFFFFFFFFF bits))
  match c, v with
  | intToLong, .int v => .long v.toInt64
  | intToFloat, .int v => .float (UInt32.ofNat (Ieee.single.ofInt v.toInt))
  | intToDouble, .int v => .double (UInt64.ofNat (Ieee.double.ofInt v.toInt))
  | longToInt, .long v => .int v.toInt32
  | longToFloat, .long v => .float (UInt32.ofNat (Ieee.single.ofInt v.toInt))
  | longToDouble, .long v => .double (UInt64.ofNat (Ieee.double.ofInt v.toInt))
  | floatToInt, .float b => toInt Ieee.single b.toNat
  | floatToLong, .float b => toLong Ieee.single b.toNat
  | floatToDouble, .float b =>
    .double (UInt64.ofNat (Ieee.Format.convert Ieee.single Ieee.double b.toNat))
  | doubleToInt, .double b => toInt Ieee.double b.toNat
  | doubleToLong, .double b => toLong Ieee.double b.toNat
  | doubleToFloat, .double b =>
    .float (UInt32.ofNat (Ieee.Format.convert Ieee.double Ieee.single b.toNat))
  | c, _ => .zero c.target

def Narrowing.eval (n : Narrowing) (v : Int32) : Int32 :=
  match n with
  | byte => v.toInt8.toInt32
  | char => v.toUInt32.toUInt16.toUInt32.toInt32
  | short => v.toInt16.toInt32

def orderingInt : Ordering → Int32
  | .lt => -1
  | .eq => 0
  | .gt => 1

def Comparison.eval (c : Comparison) (a b : Value) : Int32 :=
  let numbers (f : Ieee.Format) (a b : Nat) : Int32 :=
    match Ieee.compare? f a b with
    | some o => orderingInt o
    | none => c.unordered
  match a, b with
  | .long a, .long b => orderingInt (Ord.compare a.toInt b.toInt)
  | .float a, .float b => numbers Ieee.single a.toNat b.toNat
  | .double a, .double b => numbers Ieee.double a.toNat b.toNat
  | _, _ => c.unordered

end ClassWasm
