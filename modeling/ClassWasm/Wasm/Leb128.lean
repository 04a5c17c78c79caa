/-
  Numbers in groups of seven bits, the lowest group first; all bytes but the last have their top
  bit set.
-/
import ClassWasm.Bytes

namespace ClassWasm.Wasm.Leb128

/-- Unsigned. -/
def unsigned (n : Nat) : Bytes :=
  if n < 128 then [UInt8.ofNat n]
  else UInt8.ofNat (n % 128 + 128) :: unsigned (n / 128)
termination_by n

/-- Whether one more group says all: the rest is the sign of that group. -/
def isLast (group rest : Int) : Bool := (rest = 0 && group < 64) || (rest = -1 && group ≥ 64)

/-- Signed. -/
def signed (v : Int) : Bytes :=
  if isLast (v % 128) (v / 128) then [UInt8.ofNat (v % 128).toNat]
  else UInt8.ofNat ((v % 128).toNat + 128) :: signed (v / 128)
termination_by v.natAbs
decreasing_by
  rename_i h
  simp only [isLast, Bool.or_eq_true, Bool.and_eq_true, decide_eq_true_eq, not_or, not_and] at h
  omega

end ClassWasm.Wasm.Leb128
