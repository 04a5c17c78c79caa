/-
  Values that running code computes with. Floating point values are bit patterns; the only
  reference is null.
-/
import ClassWasm.Decimal
import ClassWasm.Instruction

namespace ClassWasm

/-- `void` is the result of a method that returns nothing. -/
inductive Value where
  /-- The type of the number keeps it within 32 bits, whatever computes it. -/
  | int (v : Int32)
  | long (v : Int64)
  | float (bits : UInt32)
  | double (bits : UInt64)
  | null
  | void
deriving DecidableEq, Inhabited

namespace Value

def kind : Value → Kind
  | int _ => .int
  | long _ => .long
  | float _ => .float
  | double _ => .double
  | null => .ref
  | void => .void

/-- What a field of a kind holds before anything is stored in it. -/
def zero : Kind → Value
  | .int => .int 0
  | .long => .long 0
  | .float => .float 0
  | .double => .double 0
  | .ref => .null
  | .void => .void

@[simp] theorem kind_zero (k : Kind) : (zero k).kind = k := by cases k <;> rfl

/-- A pattern of single width as a value holds it: what is no number becomes quiet. -/
def ofSingle (bits : UInt32) : Value :=
  .float (UInt32.ofNat (Ieee.Format.convert Ieee.single Ieee.single bits.toNat))

def ofConstant : Constant → Value
  | .int v => .int v
  | .long v => .long v
  | .float bits => .float bits
  | .double bits => .double bits
  | .null => .null

@[simp] theorem kind_ofConstant (c : Constant) : (ofConstant c).kind = c.kind := by
  cases c <;> rfl

/-- The value of a kind that a word of 64 bits stands for; narrow values stand in its low half. -/
def ofRaw (k : Kind) (raw : UInt64) : Value :=
  match k with
  | .int => .int raw.toUInt32.toInt32
  | .long => .long raw.toInt64
  | .float => ofSingle raw.toUInt32
  | .double => .double raw
  | .ref => .null
  | .void => .void

@[simp] theorem kind_ofRaw (k : Kind) (raw : UInt64) : (ofRaw k raw).kind = k := by
  cases k <;> rfl

/-- The word that stands for a value. -/
def raw : Value → UInt64
  | int v => v.toUInt32.toUInt64
  | long v => v.toUInt64
  | float bits => bits.toUInt64
  | double bits => bits
  | null | void => 0

/-- Whether a value is a floating point pattern that is no number. -/
def isNan : Value → Bool
  | float bits => Ieee.single.isNan bits.toNat
  | double bits => Ieee.double.isNan bits.toNat
  | _ => false

/-- The low 32 bits of an integer, and zero for everything else. -/
def lowInt : Value → Int32
  | int v => v
  | long v => v.toInt32
  | _ => 0

def text : Value → Text
  | int v => Text.ofInt v.toInt
  | long v => Text.ofInt v.toInt
  | float bits => Ieee.single.text bits.toNat
  | double bits => Ieee.double.text bits.toNat
  | null => "null"
  | void => "void"

end Value

end ClassWasm
