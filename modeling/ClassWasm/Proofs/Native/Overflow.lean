/-
  Methods that throw where a result would wrap around. Sums and differences are computed first and
  then looked at: signs of the operands and of the result tell whether it wrapped. A product is
  computed with twice as many bits. Main result: `exact_methods`.
-/
import Mathlib.Tactic
import ClassWasm.Proofs.Native.Library

namespace ClassWasm.Native

/-- The methods of mathematics that throw where a result would wrap around. -/
inductive ExactMethod where
  | addInts
  | subtractInts
  | multiplyInts
  | addLongs

namespace ExactMethod

def type : ExactMethod → IntegerType
  | addInts | subtractInts | multiplyInts => .int
  | addLongs => .long

def name : ExactMethod → Text
  | addInts | addLongs => "addExact"
  | subtractInts => "subtractExact"
  | multiplyInts => "multiplyExact"

/-- What the method computes, on integers without bounds. -/
def result : ExactMethod → Int → Int → Int
  | addInts | addLongs => (· + ·)
  | subtractInts => (· - ·)
  | multiplyInts => (· * ·)

def overflow : ExactMethod → Exception
  | addInts | subtractInts | multiplyInts => .arithmetic "integer overflow"
  | addLongs => .arithmetic "long overflow"

end ExactMethod

instance (w : Nat) (v : Int) : Decidable (Fits w v) := by
  unfold Fits
  infer_instance

section

variable {w : Nat} (a b : BitVec w)

theorem fits_add_iff : Fits w (a.toInt + b.toInt) ↔ a.saddOverflow b = false := by
  unfold Fits BitVec.saddOverflow
  simp
  omega

theorem fits_sub_iff : Fits w (a.toInt - b.toInt) ↔ a.ssubOverflow b = false := by
  unfold Fits BitVec.ssubOverflow
  simp
  omega

theorem add_eq_ofInt : a + b = .ofInt w (a.toInt + b.toInt) := by
  rw [BitVec.ofInt_add, BitVec.ofInt_toInt, BitVec.ofInt_toInt]

theorem sub_eq_ofInt : a - b = .ofInt w (a.toInt - b.toInt) := by
  rw [Int.sub_eq_add_neg, BitVec.ofInt_add, BitVec.ofInt_neg, BitVec.ofInt_toInt,
    BitVec.ofInt_toInt, BitVec.sub_eq_add_neg]

theorem neg_iff_msb (x : BitVec w) : x.toInt < 0 ↔ x.msb = true := by
  rw [BitVec.msb_eq_toInt, decide_eq_true_iff]

theorem add_guard :
    ((a ^^^ (a + b)) &&& (b ^^^ (a + b))).toInt < 0 ↔ ¬ Fits w (a.toInt + b.toInt) := by
  rw [fits_add_iff, BitVec.saddOverflow_eq, neg_iff_msb, BitVec.msb_and, BitVec.msb_xor,
    BitVec.msb_xor]
  cases a.msb <;> cases b.msb <;> cases (a + b).msb <;> decide

theorem sub_guard :
    ((a ^^^ b) &&& (a ^^^ (a - b))).toInt < 0 ↔ ¬ Fits w (a.toInt - b.toInt) := by
  rw [fits_sub_iff, BitVec.ssubOverflow_eq, neg_iff_msb, BitVec.msb_and, BitVec.msb_xor,
    BitVec.msb_xor]
  cases a.msb <;> cases b.msb <;> cases (a - b).msb <;> decide

end

/-- Two integers of 32 bits have a product of 64 bits. -/
theorem toInt_product (a b : Int32) : (a.toInt64 * b.toInt64).toInt = a.toInt * b.toInt := by
  have hlow : -(2 ^ 62) ≤ a.toInt * b.toInt := BitVec.le_toInt_mul_toInt (x := a.toBitVec)
  have hhigh : a.toInt * b.toInt ≤ 2 ^ 62 := BitVec.toInt_mul_toInt_le (x := a.toBitVec)
  rw [Int64.toInt_mul, Int32.toInt_toInt64, Int32.toInt_toInt64]
  exact Int.bmod_eq_of_le (by omega) (by omega)

theorem multiply_guard (a b : Int32) :
    a.toInt64 * b.toInt64 ≠ (a.toInt64 * b.toInt64).toInt32.toInt64 ↔
      ¬ Fits 32 (a.toInt * b.toInt) := by
  -- Narrowed and widened again, the product is the number in range that it is congruent to.
  rw [ne_eq, not_iff_not, ← Int64.toInt_inj, Int32.toInt_toInt64, Int64.toInt_toInt32,
    toInt_product, eq_comm, Int.bmod_eq_iff (by decide)]
  unfold Fits
  omega

/-! ## Methods on words -/

/-- The result as a word, where it fits. -/
def exactly (w : Nat) (result : Int → Int → Int) (overflow : Exception) (a b : BitVec w) :
    Except Exception (BitVec w) :=
  if ¬ Fits w (result a.toInt b.toInt) then .error overflow
  else .ok (.ofInt w (result a.toInt b.toInt))

theorem addExact_int (a b : Int32) : (Integers.addExact a b).map Int32.toBitVec =
    exactly 32 (· + ·) Integers.overflow a.toBitVec b.toBitVec :=
  map_guard (Int32.lt_iff_toInt_lt.trans (add_guard a.toBitVec b.toBitVec)) (add_eq_ofInt _ _)

theorem addExact_long (a b : Int64) : (Longs.addExact a b).map Int64.toBitVec =
    exactly 64 (· + ·) Longs.overflow a.toBitVec b.toBitVec :=
  map_guard (Int64.lt_iff_toInt_lt.trans (add_guard a.toBitVec b.toBitVec)) (add_eq_ofInt _ _)

theorem subtractExact_int (a b : Int32) : (Integers.subtractExact a b).map Int32.toBitVec =
    exactly 32 (· - ·) Integers.overflow a.toBitVec b.toBitVec :=
  map_guard (Int32.lt_iff_toInt_lt.trans (sub_guard a.toBitVec b.toBitVec)) (sub_eq_ofInt _ _)

theorem multiplyExact_int (a b : Int32) : (Integers.multiplyExact a b).map Int32.toBitVec =
    exactly 32 (· * ·) Integers.overflow a.toBitVec b.toBitVec := by
  refine map_guard (multiply_guard a b) (BitVec.eq_of_toInt_eq ?_)
  rw [BitVec.toInt_ofInt]
  exact (Int64.toInt_toInt32 _).trans (congrArg (Int.bmod · _) (toInt_product a b))

theorem provides_exactly (m : ExactMethod) :
    Provides m.type m.name (exactly m.type.bits m.result m.overflow) := by
  cases m
  case' addInts => refine provides_int ?_ addExact_int
  case' subtractInts => refine provides_int ?_ subtractExact_int
  case' multiplyInts => refine provides_int ?_ multiplyExact_int
  case' addLongs => refine provides_long ?_ addExact_long
  all_goals simp only [Mathematics.methods, ExactMethod.name, List.mem_cons, true_or, or_true]

/-- A method that throws where its result would wrap around throws nowhere else. Where the result
fits, it is the one of integers without bounds. -/
theorem exact_methods (m : ExactMethod) : ∃ f, Provides m.type m.name f ∧
    ∀ a b : BitVec m.type.bits, if Fits m.type.bits (m.result a.toInt b.toInt)
      then ∃ r, f a b = .ok r ∧ r.toInt = m.result a.toInt b.toInt
      else f a b = .error m.overflow := by
  refine ⟨_, provides_exactly m, fun a b => ?_⟩
  have hbits : 0 < m.type.bits := by cases m <;> decide
  split
  · next hfits => exact ⟨_, if_neg (not_not_intro hfits), hfits.toInt_ofInt hbits⟩
  · next hfits => exact if_pos hfits

end ClassWasm.Native
