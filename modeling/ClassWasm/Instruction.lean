/-
  Instructions of a method body with their operands resolved. Branches keep their targets relative
  to the instruction they stand in, as code does.
-/
import ClassWasm.ConstantPool
import ClassWasm.Kind

namespace ClassWasm

/-- Constants that an instruction pushes. A `float` never is a signaling pattern. -/
inductive Constant where
  | int (value : Int32)
  | long (value : Int64)
  | float (bits : UInt32)
  | double (bits : UInt64)
  | null
deriving DecidableEq, Inhabited

def Constant.kind : Constant → Kind
  | int _ => .int
  | long _ => .long
  | float _ => .float
  | double _ => .double
  | null => .ref

inductive IntOp where
  | add
  | sub
  | mul
  | div
  | rem
  | neg
  | shl
  | shr
  | ushr
  | and
  | or
  | xor
deriving DecidableEq, Inhabited

namespace IntOp

def name : IntOp → Text
  | add => "add"
  | sub => "sub"
  | mul => "mul"
  | div => "div"
  | rem => "rem"
  | neg => "neg"
  | shl => "shl"
  | shr => "shr"
  | ushr => "ushr"
  | and => "and"
  | or => "or"
  | xor => "xor"

end IntOp

inductive FloatOp where
  | add
  | sub
  | mul
  | div
  | neg
deriving DecidableEq, Inhabited

def FloatOp.name : FloatOp → Text
  | add => "add"
  | sub => "sub"
  | mul => "mul"
  | div => "div"
  | neg => "neg"

/-- Arithmetic on operands of one kind; the distance of a shift is always an `int`. -/
inductive Arith where
  | int (op : IntOp)
  | long (op : IntOp)
  | float (op : FloatOp)
  | double (op : FloatOp)
deriving DecidableEq, Inhabited

namespace Arith

def kind : Arith → Kind
  | int _ => .int
  | long _ => .long
  | float _ => .float
  | double _ => .double

def name : Arith → Text
  | int op | long op => op.name
  | float op | double op => op.name

def isUnary : Arith → Bool
  | int op | long op => op = .neg
  | float op | double op => op = .neg

def isShift : Arith → Bool
  | int op | long op => op = .shl ∨ op = .shr ∨ op = .ushr
  | float _ | double _ => false

end Arith

inductive Conversion where
  | intToLong
  | intToFloat
  | intToDouble
  | longToInt
  | longToFloat
  | longToDouble
  | floatToInt
  | floatToLong
  | floatToDouble
  | doubleToInt
  | doubleToLong
  | doubleToFloat
deriving DecidableEq, Inhabited

namespace Conversion

def source : Conversion → Kind
  | intToLong | intToFloat | intToDouble => .int
  | longToInt | longToFloat | longToDouble => .long
  | floatToInt | floatToLong | floatToDouble => .float
  | doubleToInt | doubleToLong | doubleToFloat => .double

def target : Conversion → Kind
  | longToInt | floatToInt | doubleToInt => .int
  | intToLong | floatToLong | doubleToLong => .long
  | intToFloat | longToFloat | doubleToFloat => .float
  | intToDouble | longToDouble | floatToDouble => .double

end Conversion

/-- The integer types that an `int` is narrowed to and widened back from. -/
inductive Narrowing where
  | byte
  | char
  | short
deriving DecidableEq, Inhabited

namespace Narrowing

def width : Narrowing → Nat
  | byte => 8
  | char | short => 16

def isSigned : Narrowing → Bool
  | byte | short => true
  | char => false

end Narrowing

/-- Three-way comparisons. For floating point, what is no number counts as greater where
`nanGreater` holds and as less elsewhere. -/
inductive Comparison where
  | long
  | float (nanGreater : Bool)
  | double (nanGreater : Bool)
deriving DecidableEq, Inhabited

namespace Comparison

def kind : Comparison → Kind
  | long => .long
  | float _ => .float
  | double _ => .double

/-- The outcome where an operand is no number. -/
def unordered : Comparison → Int32
  | long => 0
  | float nanGreater | double nanGreater => if nanGreater then 1 else -1

end Comparison

/-- Rearrangements of the operand stack. -/
inductive StackOp where
  | pop
  | pop2
  | dup
  | dupX1
  | dupX2
  | dup2
  | dup2X1
  | dup2X2
  | swap
deriving DecidableEq, Inhabited

namespace StackOp

def all : List StackOp := [pop, pop2, dup, dupX1, dupX2, dup2, dup2X1, dup2X2, swap]

def name : StackOp → Text
  | pop => "pop"
  | pop2 => "pop2"
  | dup => "dup"
  | dupX1 => "dup_x1"
  | dupX2 => "dup_x2"
  | dup2 => "dup2"
  | dup2X1 => "dup2_x1"
  | dup2X2 => "dup2_x2"
  | swap => "swap"

end StackOp

/-- Relations that a conditional branch tests. -/
inductive Relation where
  | eq
  | ne
  | lt
  | ge
  | gt
  | le
deriving DecidableEq, Inhabited

namespace Relation

def all : List Relation := [eq, ne, lt, ge, gt, le]

def name : Relation → Text
  | eq => "eq"
  | ne => "ne"
  | lt => "lt"
  | ge => "ge"
  | gt => "gt"
  | le => "le"

def holds (r : Relation) (a b : Int32) : Bool :=
  match r with
  | eq => a = b
  | ne => a ≠ b
  | lt => a < b
  | ge => a ≥ b
  | gt => a > b
  | le => a ≤ b

/-- The relation that holds exactly where `r` does not. -/
def negate : Relation → Relation
  | eq => ne
  | ne => eq
  | lt => ge
  | ge => lt
  | gt => le
  | le => gt

end Relation

/-- What a conditional branch tests: one reference, one `int` against zero, or two of them. -/
inductive Condition where
  | isNull
  | isNonNull
  | zero (r : Relation)
  | compare (r : Relation)
deriving DecidableEq, Inhabited

inductive Operation where
  | nop
  | const (c : Constant)
  | load (kind : Kind) (slot : UInt16)
  | store (kind : Kind) (slot : UInt16)
  | increment (slot : UInt16) (delta : Int16)
  | arith (a : Arith)
  | convert (c : Conversion)
  | narrow (n : Narrowing)
  | compare (c : Comparison)
  | stack (op : StackOp)
  | getStatic (field : MemberRef)
  | putStatic (field : MemberRef)
  | invokeStatic (method : MemberRef)
  | ret (kind : Kind)
  | goto (target : Int32)
  | branch (condition : Condition) (target : Int32)
  | tableSwitch (default low : Int32) (targets : List Int32)
  | lookupSwitch (default : Int32) (cases : List (Int32 × Int32))
deriving DecidableEq, Inhabited

namespace Operation

/-- The relative targets, the default of a switch first. -/
def branches : Operation → List Int32
  | goto t | branch _ t => [t]
  | tableSwitch d _ ts => d :: ts
  | lookupSwitch d cases => d :: cases.map Prod.snd
  | _ => []

def isConditional : Operation → Bool
  | branch .. => true
  | _ => false

def isSwitch : Operation → Bool
  | tableSwitch .. | lookupSwitch .. => true
  | _ => false

/-- Whether control can reach the next instruction. -/
def fallsThrough : Operation → Bool
  | goto _ | ret _ | tableSwitch .. | lookupSwitch .. => false
  | _ => true

end Operation

/-- An operation at its place in the code. -/
structure Instruction where
  offset : Nat
  size : Nat
  opcode : UInt8
  wide : Bool
  op : Operation
deriving DecidableEq, Inhabited

namespace Instruction

/-- The offset that a relative target means. -/
def absolute (i : Instruction) (target : Int32) : Int := i.offset + target.toInt

/-- The offsets that the instruction branches to. -/
def targets (i : Instruction) : List Int := i.op.branches.map i.absolute

end Instruction

/-- The position of the instruction that starts at each offset, where one does. -/
structure OffsetTable where
  entries : Array (Option Nat)

namespace OffsetTable

def ofInstructions (instrs : Array Instruction) : OffsetTable :=
  let size := match instrs.back? with
    | some i => i.offset + 1
    | none => 0
  ⟨instrs.toList.zipIdx.foldl (fun t (i, k) => t.setIfInBounds i.offset (some k))
    (Array.replicate size none)⟩

/-- The position of the instruction at an offset. -/
def find? (t : OffsetTable) (offset : Int) : Option Nat :=
  if offset < 0 then none else (t.entries[offset.toNat]?).join

end OffsetTable

end ClassWasm
