/-
  Patterns of floating point numbers and the numbers that they stand for. A number that fits a
  format exactly is not rounded (`ofRatio_scale`), so unpacking a pattern and packing it again
  changes nothing (`pack_unpack`), and neither does taking it over into its own format, unless it is
  no number (`convert_self`).
-/
import ClassWasm.Ieee
import Mathlib.Tactic

namespace ClassWasm.Ieee

theorem roundDiv_mul (m : Nat) {den : Nat} (hden : 0 < den) : roundDiv (m * den) den = m := by
  unfold roundDiv
  rw [Nat.mul_div_cancel m hden, Nat.mul_mod_left]
  dsimp only
  rw [if_neg (by omega)]

theorem scale_ofNat (num den k : Nat) : scale num den k = (num * 2 ^ k, den) := by
  unfold scale
  rw [if_pos (Int.natCast_nonneg k)]
  rfl

theorem scale_neg (num den k : Nat) : scale num den (-k) = (num, den * 2 ^ k) := by
  unfold scale
  split
  · next h =>
    have hk : k = 0 := by omega
    subst hk
    simp
  · rw [neg_neg]
    rfl

theorem log2_mul_two_pow {m : Nat} (hm : m ≠ 0) (k : Nat) : (m * 2 ^ k).log2 = m.log2 + k := by
  induction k with
  | zero => simp
  | succ k ih =>
    rw [Nat.pow_succ, ← Nat.mul_assoc, Nat.mul_comm, Nat.log2_two_mul, ih]
    · rfl
    · positivity

namespace Format

variable {f : Format}

/-- The estimate of the exponent is exact for `m · 2^q`, and the factor that remains is at least
one. -/
theorem scale_estimate {m : Nat} (hm : m ≠ 0) (q : Int) :
    ((scale m 1 q).1.log2 : Int) - (scale m 1 q).2.log2 = m.log2 + q ∧
      ¬ (scale (scale m 1 q).1 (scale m 1 q).2 (-(m.log2 + q))).1 <
        (scale (scale m 1 q).1 (scale m 1 q).2 (-(m.log2 + q))).2 := by
  have hle := Nat.log2_self_le hm
  obtain ⟨k, rfl | rfl⟩ := q.eq_nat_or_neg
  · rw [scale_ofNat]
    dsimp only
    rw [log2_mul_two_pow hm]
    have hone : Nat.log2 1 = 0 := by decide
    refine ⟨by simp [hone], ?_⟩
    rw [← Nat.cast_add, scale_neg]
    dsimp only
    rw [one_mul, Nat.pow_add]
    exact Nat.not_lt.mpr (Nat.mul_le_mul_right _ hle)
  · rw [scale_neg]
    dsimp only
    rw [one_mul, Nat.log2_two_pow]
    refine ⟨by omega, ?_⟩
    rcases Nat.le_total m.log2 k with h | h
    · obtain ⟨d, rfl⟩ := Nat.exists_eq_add_of_le h
      rw [show -((m.log2 : Int) + -((m.log2 + d : Nat) : Int)) = (d : Int) by omega, scale_ofNat]
      dsimp only
      rw [Nat.pow_add]
      exact Nat.not_lt.mpr (Nat.mul_le_mul_right _ hle)
    · obtain ⟨d, hd⟩ := Nat.exists_eq_add_of_le h
      rw [show -((m.log2 : Int) + -(k : Int)) = -(d : Int) by omega, scale_neg]
      dsimp only
      rw [← Nat.pow_add, ← hd]
      exact Nat.not_lt.mpr hle

/-- Scaling back gives the number itself. -/
theorem scale_back (m : Nat) (q : Int) :
    ∃ den, 0 < den ∧ scale (scale m 1 q).1 (scale m 1 q).2 (-q) = (m * den, den) := by
  obtain ⟨k, rfl | rfl⟩ := q.eq_nat_or_neg
  · rw [scale_ofNat]
    dsimp only
    rw [scale_neg, one_mul]
    exact ⟨2 ^ k, by positivity, rfl⟩
  · rw [scale_neg]
    dsimp only
    rw [neg_neg, scale_ofNat, one_mul]
    exact ⟨2 ^ k, by positivity, rfl⟩

/-- A number of the precision of the format, or one in the places of the smallest numbers, is not
rounded. -/
theorem ofRatio_scale {m : Nat} {q : Int} (hm : m < 2 ^ (f.fraction + 1)) (hq : f.leastQ ≤ q)
    (hexact : q = f.leastQ ∨ 2 ^ f.fraction ≤ m) :
    f.ofRatio (scale m 1 q).1 (scale m 1 q).2 =
      if m = 0 then 0 else min f.infinityBits ((q - f.leastQ).toNat * 2 ^ f.fraction + m) := by
  by_cases hzero : m = 0
  · subst hzero
    rw [if_pos rfl, ofRatio, if_pos]
    unfold scale
    split <;> simp
  · obtain ⟨hestimate, hge⟩ := scale_estimate hzero q
    obtain ⟨den, hden, hback⟩ := scale_back m q
    have hnum : (scale m 1 q).1 ≠ 0 := by
      unfold scale
      split <;> simp [hzero]
    have hlog : m.log2 ≤ f.fraction := by
      have := (Nat.log2_lt hzero).mpr hm
      omega
    have hplace : max f.leastQ ((m.log2 : Int) + q - f.fraction) = q := by
      rcases hexact with rfl | hnormal
      · omega
      · have := (Nat.le_log2 hzero).mpr hnormal
        omega
    rw [ofRatio, if_neg hnum, if_neg hzero]
    dsimp only
    rw [hestimate, if_neg hge, hplace, hback]
    dsimp only
    rw [roundDiv_mul m hden]
    rfl

end Format

/-! ## Single width -/

theorem leastQ_single : single.leastQ = -149 := by decide

theorem infinityBits_single : single.infinityBits = 255 * 2 ^ 23 := by decide

theorem signBit_single : single.signBit = 2 ^ 31 := by decide

theorem unpack_single (bits : Nat) : single.unpack bits =
    if bits / 2 ^ 23 % 2 ^ 8 = 255 then
      if bits % 2 ^ 23 = 0 then .infinity (single.isNegative bits) else .nan
    else if bits / 2 ^ 23 % 2 ^ 8 = 0 then .finite (single.isNegative bits) (bits % 2 ^ 23) (-149)
    else .finite (single.isNegative bits) (bits % 2 ^ 23 + 2 ^ 23)
      (-149 + (bits / 2 ^ 23 % 2 ^ 8 : Nat) - 1) := by
  have hfraction : Nat.pow 2 single.fraction = 2 ^ 23 := rfl
  have hexponent : Nat.pow 2 single.exponent = 2 ^ 8 := rfl
  have hones : single.allOnes = 255 := by decide
  simp only [Format.unpack, hfraction, hexponent, hones, leastQ_single]

theorem withSign_magnitude {bits magnitude : Nat} (hbits : bits < 2 ^ 32)
    (hmagnitude : bits % 2 ^ 31 = magnitude) :
    single.withSign (single.isNegative bits) magnitude = bits := by
  unfold Format.withSign Format.isNegative
  rw [signBit_single]
  split
  · next h =>
    have hsign : bits / 2 ^ 31 % 2 = 1 := by simpa using h
    omega
  · next h =>
    have hsign : bits / 2 ^ 31 % 2 ≠ 1 := by simpa using h
    omega

theorem pack_finite (negative : Bool) {m : Nat} {q : Int} (hm : m < 2 ^ 24) (hq : -149 ≤ q)
    (hexact : q = -149 ∨ 2 ^ 23 ≤ m) (hfinite : (q + 149).toNat * 2 ^ 23 + m ≤ 255 * 2 ^ 23) :
    single.pack (.finite negative m q) = single.withSign negative
      (if m = 0 then 0 else (q + 149).toNat * 2 ^ 23 + m) := by
  have hratio : single.ofRatio (scale m 1 q).1 (scale m 1 q).2 = _ :=
    Format.ofRatio_scale hm (leastQ_single.symm ▸ hq) (leastQ_single.symm ▸ hexact)
  unfold Format.pack
  dsimp only
  rw [hratio, leastQ_single, infinityBits_single, sub_neg_eq_add]
  exact congrArg (fun magnitude => single.withSign negative (if m = 0 then 0 else magnitude))
    (Nat.min_eq_right hfinite)

/-- Unless it is no number, a pattern is that of the number that it stands for. -/
theorem pack_unpack {bits : Nat} (hbits : bits < 2 ^ 32) (hnan : single.isNan bits = false) :
    single.pack (single.unpack bits) = bits := by
  have hmagnitude : bits % 2 ^ 31 ≤ 255 * 2 ^ 23 := by
    have h := of_decide_eq_false hnan
    rw [Format.magnitude, signBit_single, infinityBits_single] at h
    omega
  rw [unpack_single]
  split
  · split
    · refine withSign_magnitude hbits ?_
      rw [infinityBits_single]
      omega
    · omega
  · split
    · rw [pack_finite _ (by omega) le_rfl (.inl rfl) (by omega)]
      refine withSign_magnitude hbits ?_
      split <;> omega
    · rw [pack_finite _ (by omega) (by omega) (.inr (by omega)) (by omega)]
      refine withSign_magnitude hbits ?_
      rw [if_neg (by omega)]
      omega

theorem convert_self {bits : Nat} (hbits : bits < 2 ^ 32) (hnan : single.isNan bits = false) :
    Format.convert single single bits = bits := by
  unfold Format.convert
  rw [hnan, if_neg Bool.false_ne_true, pack_unpack hbits hnan]

/-- What is no number stays none, with its sign. -/
theorem convert_nan {bits : Nat} (hnan : single.isNan bits = true) :
    Format.convert single single bits < 2 ^ 32 ∧
      single.isNan (Format.convert single single bits) = true ∧
      single.isNegative (Format.convert single single bits) = single.isNegative bits := by
  have hquiet : single.quietBit = 2 ^ 22 := by decide
  have hfraction : Nat.pow 2 single.fraction = 2 ^ 23 := rfl
  have hlt : bits % 2 ^ 23 ||| 2 ^ 22 < 2 ^ 23 := Nat.or_lt_two_pow (by omega) (by decide)
  have hle : 2 ^ 22 ≤ bits % 2 ^ 23 ||| 2 ^ 22 := Nat.right_le_or
  unfold Format.convert Format.withSign
  rw [hnan, if_pos rfl, hfraction, hquiet]
  dsimp only
  rw [Nat.mul_div_cancel _ (by decide), infinityBits_single, signBit_single]
  generalize bits % 2 ^ 23 ||| 2 ^ 22 = m at hlt hle
  unfold Format.isNan Format.magnitude
  rw [signBit_single, infinityBits_single, decide_eq_true_eq]
  cases hsign : single.isNegative bits with
  | false =>
    rw [if_neg Bool.false_ne_true]
    refine ⟨by omega, by omega, ?_⟩
    rw [Format.isNegative, signBit_single, beq_eq_false_iff_ne]
    omega
  | true =>
    rw [if_pos rfl]
    refine ⟨by omega, by omega, ?_⟩
    rw [Format.isNegative, signBit_single, beq_iff_eq]
    omega

end ClassWasm.Ieee
