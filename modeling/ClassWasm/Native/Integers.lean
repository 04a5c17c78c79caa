/-
  Library methods on integers.
-/
import ClassWasm.Native.Method

namespace ClassWasm.Native

/-- Minus one, zero or one. -/
def signOf : Ordering → Int32
  | .lt => -1
  | .eq => 0
  | .gt => 1

def compareInts (a b : Int) : Int32 := signOf (Ord.compare a b)

def divisionByZero : Exception := .arithmetic "/ by zero"

namespace Bits

variable {w : Nat}

def count (x : BitVec w) : Nat := (List.range w).countP x.getLsbD

def leadingZeros (x : BitVec w) : Nat := if x.toNat = 0 then w else w - 1 - x.toNat.log2

def trailingZeros (x : BitVec w) : Nat := ((List.range w).find? x.getLsbD).getD w

/-- The bytes of a word in the other order. -/
def swapBytes (x : UInt32) : UInt32 :=
  Bytes.of32 x.toUInt8 (x >>> 8).toUInt8 (x >>> 16).toUInt8 (x >>> 24).toUInt8

end Bits

namespace Integers

open Bits

def bits (a : Int32) : BitVec 32 := a.toBitVec

def ofBits (x : BitVec 32) : Int32 := ⟨⟨x⟩⟩

/-- A rotation by the low five bits of `n`. -/
def rotateLeft (a n : Int32) : Int32 := ofBits ((bits a).rotateLeft (n.toUInt32 % 32).toNat)

def rotateRight (a n : Int32) : Int32 := ofBits ((bits a).rotateRight (n.toUInt32 % 32).toNat)

def highestOneBit (a : Int32) : Int32 :=
  if a = 0 then 0 else ofBits (BitVec.ofNat 32 (Nat.pow 2 (31 - leadingZeros (bits a))))

def lowestOneBit (a : Int32) : Int32 := a &&& -a

def divideUnsigned (a b : Int32) : Except Exception Int32 :=
  if b = 0 then .error divisionByZero else .ok (a.toUInt32 / b.toUInt32).toInt32

def owner : Text := "java/lang/Integer"

def methods : List Method :=
  [binary owner "compare" fun (a b : Int32) => compareInts a.toInt b.toInt,
   unary owner "signum" fun (a : Int32) => compareInts a.toInt 0,
   unary owner "bitCount" fun (a : Int32) => Int32.ofNat (count (bits a)),
   unary owner "reverse" fun (a : Int32) => ofBits (bits a).reverse,
   unary owner "reverseBytes" fun (a : Int32) => (swapBytes a.toUInt32).toInt32,
   unary owner "numberOfLeadingZeros" fun (a : Int32) => Int32.ofNat (leadingZeros (bits a)),
   unary owner "numberOfTrailingZeros" fun (a : Int32) => Int32.ofNat (trailingZeros (bits a)),
   binary owner "rotateLeft" rotateLeft,
   binary owner "rotateRight" rotateRight,
   unary owner "highestOneBit" highestOneBit,
   unary owner "lowestOneBit" lowestOneBit,
   binary owner "max" fun (a b : Int32) => max a b,
   binary owner "min" fun (a b : Int32) => min a b,
   binary owner "sum" fun (a b : Int32) => a + b,
   checked owner "divideUnsigned" divideUnsigned,
   binary owner "compareUnsigned" fun (a b : Int32) => compareInts a.toUInt32.toNat b.toUInt32.toNat]

end Integers

namespace Longs

open Bits

def bits (a : Int64) : BitVec 64 := a.toBitVec

def ofBits (x : BitVec 64) : Int64 := ⟨⟨x⟩⟩

/-- A rotation by the low six bits of `n`. -/
def rotateLeft (a : Int64) (n : Int32) : Int64 :=
  ofBits ((bits a).rotateLeft (n.toUInt32 % 64).toNat)

def owner : Text := "java/lang/Long"

def methods : List Method :=
  [binary owner "compare" fun (a b : Int64) => compareInts a.toInt b.toInt,
   unary owner "signum" fun (a : Int64) => compareInts a.toInt 0,
   unary owner "bitCount" fun (a : Int64) => Int32.ofNat (count (bits a)),
   unary owner "reverse" fun (a : Int64) => ofBits (bits a).reverse,
   unary owner "numberOfLeadingZeros" fun (a : Int64) => Int32.ofNat (leadingZeros (bits a)),
   unary owner "numberOfTrailingZeros" fun (a : Int64) => Int32.ofNat (trailingZeros (bits a)),
   binary owner "rotateLeft" rotateLeft,
   binary owner "max" fun (a b : Int64) => max a b,
   binary owner "min" fun (a b : Int64) => min a b,
   binary owner "sum" fun (a b : Int64) => a + b]

end Longs

end ClassWasm.Native
