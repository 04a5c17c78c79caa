/-
  Library methods of mathematics. Integers wrap around except where a method checks for overflow;
  roots and roundings are exact up to one rounding, and the transcendental functions are those of
  the floating point unit.
-/
import ClassWasm.Native.Floats

namespace ClassWasm.Native

namespace Integers

def abs (a : Int32) : Int32 := if a < 0 then -a else a

/-- The quotient rounded down. -/
def floorDiv (a b : Int32) : Except Exception Int32 :=
  if b = 0 then .error divisionByZero
  else
    let q := a / b
    .ok (if a % b ≠ 0 ∧ (a < 0) ≠ (b < 0) then q - 1 else q)

/-- The remainder of the quotient rounded down, which has the sign of `b`. -/
def floorMod (a b : Int32) : Except Exception Int32 :=
  if b = 0 then .error divisionByZero
  else
    let m := a % b
    .ok (if m ≠ 0 ∧ (m < 0) ≠ (b < 0) then m + b else m)

def overflow : Exception := .arithmetic "integer overflow"

/-- A sum overflows where its sign differs from that of both terms. -/
def addExact (a b : Int32) : Except Exception Int32 :=
  let s := a + b
  if (a ^^^ s) &&& (b ^^^ s) < 0 then .error overflow else .ok s

/-- A difference overflows where the terms differ in sign and it has not the sign of the first. -/
def subtractExact (a b : Int32) : Except Exception Int32 :=
  let d := a - b
  if (a ^^^ b) &&& (a ^^^ d) < 0 then .error overflow else .ok d

def multiplyExact (a b : Int32) : Except Exception Int32 :=
  let p := a.toInt64 * b.toInt64
  if p ≠ p.toInt32.toInt64 then .error overflow else .ok p.toInt32

end Integers

namespace Longs

def abs (a : Int64) : Int64 := if a < 0 then -a else a

/-- The quotient rounded down. -/
def floorDiv (a b : Int64) : Except Exception Int64 :=
  if b = 0 then .error divisionByZero
  else
    let q := a / b
    .ok (if a % b ≠ 0 ∧ (a < 0) ≠ (b < 0) then q - 1 else q)

/-- The remainder of the quotient rounded down, which has the sign of `b`. -/
def floorMod (a b : Int64) : Except Exception Int64 :=
  if b = 0 then .error divisionByZero
  else
    let m := a % b
    .ok (if m ≠ 0 ∧ (m < 0) ≠ (b < 0) then m + b else m)

def overflow : Exception := .arithmetic "long overflow"

/-- A sum overflows where its sign differs from that of both terms. -/
def addExact (a b : Int64) : Except Exception Int64 :=
  let s := a + b
  if (a ^^^ s) &&& (b ^^^ s) < 0 then .error overflow else .ok s

end Longs

namespace Single

def abs (a : Single) : Single := ⟨a.bits &&& 0x7FFFFFFF⟩

def map₂ (f : Ieee.Format → Nat → Nat → Nat) (a b : Single) : Single :=
  ofNat (f Ieee.single a.nat b.nat)

/-- The nearest `int`, a half going up. -/
def round (a : Single) : Int32 :=
  Int32.ofInt (Ieee.roundHalfUp Ieee.single (-0x80000000) 0x7FFFFFFF a.nat)

end Single

namespace Double

def abs (a : Double) : Double := ⟨a.bits &&& 0x7FFFFFFFFFFFFFFF⟩

def map (f : Ieee.Format → Nat → Nat) (a : Double) : Double := ofNat (f Ieee.double a.nat)

def map₂ (f : Ieee.Format → Nat → Nat → Nat) (a b : Double) : Double :=
  ofNat (f Ieee.double a.nat b.nat)

/-- The nearest `long`, a half going up. -/
def round (a : Double) : Int64 :=
  Int64.ofInt (Ieee.roundHalfUp Ieee.double (-0x8000000000000000) 0x7FFFFFFFFFFFFFFF a.nat)

/-- A function of the floating point unit. -/
def transcendental (f : Float → Float) (a : Double) : Double := ⟨(f (Float.ofBits a.bits)).toBits⟩

def transcendental₂ (f : Float → Float → Float) (a b : Double) : Double :=
  ⟨(f (Float.ofBits a.bits) (Float.ofBits b.bits)).toBits⟩

def pi : Nat := 0x400921FB54442D18

/-- Degrees in radians, rounded after the division and after the multiplication. -/
def toRadians (a : Double) : Double :=
  let turns := Ieee.div Ieee.double a.nat (Ieee.double.ofInt 180)
  ofNat (Ieee.mul Ieee.double turns pi)

end Double

namespace Mathematics

def owner : Text := "java/lang/Math"

def methods : List Method :=
  [unary owner "abs" Integers.abs,
   unary owner "abs" Longs.abs,
   unary owner "abs" Single.abs,
   unary owner "abs" Double.abs,
   binary owner "max" fun (a b : Int32) => max a b,
   binary owner "min" fun (a b : Int32) => min a b,
   binary owner "max" fun (a b : Int64) => max a b,
   binary owner "min" fun (a b : Int64) => min a b,
   binary owner "max" (Single.map₂ Ieee.maximum),
   binary owner "min" (Single.map₂ Ieee.minimum),
   binary owner "max" (Double.map₂ Ieee.maximum),
   binary owner "min" (Double.map₂ Ieee.minimum),
   checked owner "floorDiv" Integers.floorDiv,
   checked owner "floorMod" Integers.floorMod,
   checked owner "floorDiv" Longs.floorDiv,
   checked owner "floorMod" Longs.floorMod,
   checked owner "addExact" Integers.addExact,
   checked owner "subtractExact" Integers.subtractExact,
   checked owner "multiplyExact" Integers.multiplyExact,
   checked owner "addExact" Longs.addExact,
   unary owner "sqrt" (Double.map Ieee.sqrt),
   unary owner "cbrt" (Double.map Ieee.cbrt),
   binary owner "pow" (Double.transcendental₂ Float.pow),
   binary owner "hypot" (Double.map₂ Ieee.hypot),
   unary owner "floor" (Double.map (Ieee.integral · .down)),
   unary owner "ceil" (Double.map (Ieee.integral · .up)),
   unary owner "rint" (Double.map (Ieee.integral · .nearestEven)),
   unary owner "exp" (Double.transcendental Float.exp),
   unary owner "log" (Double.transcendental Float.log),
   unary owner "log10" (Double.transcendental Float.log10),
   unary owner "sin" (Double.transcendental Float.sin),
   unary owner "cos" (Double.transcendental Float.cos),
   unary owner "tan" (Double.transcendental Float.tan),
   binary owner "atan2" (Double.transcendental₂ Float.atan2),
   unary owner "signum" (Double.map Ieee.signum),
   unary owner "round" Double.round,
   unary owner "round" Single.round,
   unary owner "toRadians" Double.toRadians]

end Mathematics

end ClassWasm.Native
