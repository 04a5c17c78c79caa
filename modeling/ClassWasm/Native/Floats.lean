/-
  Library methods on floating point patterns.
-/
import ClassWasm.Ieee.Rounding
import ClassWasm.Native.Integers

namespace ClassWasm.Native

namespace Single

def nat (a : Single) : Nat := a.bits.toNat

def ofNat (bits : Nat) : Single := ⟨UInt32.ofNat bits⟩

def isNan (a : Single) : Bool := Ieee.single.isNan a.nat

/-- The pattern as an integer, where all patterns that are no number count as one. -/
def toIntBits (a : Single) : Int32 := if a.isNan then 0x7FC00000 else a.bits.toInt32

def owner : Text := "java/lang/Float"

def methods : List Method :=
  [unary owner "floatToRawIntBits" fun (a : Single) => a.bits.toInt32,
   unary owner "floatToIntBits" toIntBits,
   unary owner "intBitsToFloat" fun (a : Int32) => Single.mk a.toUInt32,
   unary owner "isNaN" isNan,
   binary owner "compare" fun (a b : Single) => signOf (Ieee.totalCompare Ieee.single a.nat b.nat)]

end Single

namespace Double

def nat (a : Double) : Nat := a.bits.toNat

def ofNat (bits : Nat) : Double := ⟨UInt64.ofNat bits⟩

def isNan (a : Double) : Bool := Ieee.double.isNan a.nat

/-- The pattern as an integer, where all patterns that are no number count as one. -/
def toLongBits (a : Double) : Int64 := if a.isNan then 0x7FF8000000000000 else a.bits.toInt64

def owner : Text := "java/lang/Double"

def methods : List Method :=
  [unary owner "doubleToRawLongBits" fun (a : Double) => a.bits.toInt64,
   unary owner "doubleToLongBits" toLongBits,
   unary owner "longBitsToDouble" fun (a : Int64) => Double.mk a.toUInt64,
   unary owner "isNaN" isNan,
   binary owner "compare" fun (a b : Double) => signOf (Ieee.totalCompare Ieee.double a.nat b.nat)]

end Double

end ClassWasm.Native
