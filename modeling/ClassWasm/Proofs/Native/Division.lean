/-
  Division rounded down. The methods divide with truncation and then correct the quotient by one, or
  the remainder by the divisor, where signs differ and something is left. On integers the two
  corrections are made together, since what is left has the sign of the dividend
  (`lowers_iff_raises`), and they bring the remainder between zero and the divisor, which makes the
  quotient the floor (`floor_eq_of_remainder`). On words of any width no step but the truncated
  quotient of the least number by -1 leaves the range. Main result: `floor_division`.
-/
import Mathlib.Data.Rat.Floor
import Mathlib.Tactic
import ClassWasm.Proofs.Native.Library

namespace ClassWasm.Native

/-! ## Integers -/

/-- The remainder lies between zero, which it may be, and the divisor. -/
def Between (b m : Int) : Prop := 0 ≤ m ∧ m < b ∨ b < m ∧ m ≤ 0

theorem floor_eq_of_remainder {a b q m : Int} (h : b * q + m = a) (hm : Between b m) :
    ⌊(a / b : ℚ)⌋ = q := by
  have ha : (a : ℚ) = q * b + m := by
    rw [← h]
    push_cast
    ring
  rw [Int.floor_eq_iff]
  rcases hm with ⟨hnonneg, hlt⟩ | ⟨hlt, hnonpos⟩
  · have hb : (0 : ℚ) < b := by exact_mod_cast hnonneg.trans_lt hlt
    have hm₀ : (0 : ℚ) ≤ m := by exact_mod_cast hnonneg
    have hm₁ : (m : ℚ) < b := by exact_mod_cast hlt
    rw [le_div_iff₀ hb, div_lt_iff₀ hb, ha]
    constructor <;> linarith
  · have hb : (b : ℚ) < 0 := by exact_mod_cast hlt.trans_le hnonpos
    have hm₀ : (m : ℚ) ≤ 0 := by exact_mod_cast hnonpos
    have hm₁ : (b : ℚ) < m := by exact_mod_cast hlt
    rw [le_div_iff_of_neg hb, div_lt_iff_of_neg hb, ha]
    constructor <;> linarith

/-- What truncation leaves has the sign of the dividend, so the quotient is lowered where the
remainder is raised. -/
theorem lowers_iff_raises {a b : Int} (h : a.tmod b ≠ 0) :
    ((a < 0) ≠ (b < 0)) ↔ ((a.tmod b < 0) ≠ (b < 0)) := by
  have hsign : (a.tmod b).sign = a.sign := by
    rw [Int.sign_tmod, if_neg (mt Int.dvd_iff_tmod_eq_zero.mp h)]
  have hneg : a.tmod b < 0 ↔ a < 0 := by
    rw [← Int.sign_eq_neg_one_iff_neg, ← Int.sign_eq_neg_one_iff_neg, hsign]
  rw [propext hneg]

section

variable {a b : Int} (hb : b ≠ 0)

include hb

theorem natAbs_tmod_lt : (a.tmod b).natAbs < b.natAbs := by
  rw [Int.natAbs_tmod]
  exact Nat.mod_lt _ (Int.natAbs_pos.mpr hb)

/-- The truncated quotient is one too large where signs differ and something is left. -/
theorem floor_of_lowers (h : a.tmod b ≠ 0 ∧ (a < 0) ≠ (b < 0)) :
    ⌊(a / b : ℚ)⌋ = a.tdiv b - 1 ∧ Between b (a.tmod b + b) := by
  have hlt := natAbs_tmod_lt (a := a) hb
  have hsigns : ¬ (a.tmod b < 0 ↔ b < 0) := by
    rw [← eq_iff_iff]
    exact (lowers_iff_raises h.1).mp h.2
  have hbetween : Between b (a.tmod b + b) := by
    unfold Between
    omega
  refine ⟨floor_eq_of_remainder ?_ hbetween, hbetween⟩
  have htruncated := Int.mul_tdiv_add_tmod a b
  linarith

theorem floor_of_not_lowers (h : ¬ (a.tmod b ≠ 0 ∧ (a < 0) ≠ (b < 0))) :
    ⌊(a / b : ℚ)⌋ = a.tdiv b ∧ Between b (a.tmod b) := by
  have hlt := natAbs_tmod_lt (a := a) hb
  have hbetween : Between b (a.tmod b) := by
    unfold Between
    by_cases hzero : a.tmod b = 0
    · omega
    · have hsigns : a.tmod b < 0 ↔ b < 0 := by
        rw [← eq_iff_iff]
        exact not_not.mp fun hne => h ⟨hzero, (lowers_iff_raises hzero).mpr hne⟩
      omega
  exact ⟨floor_eq_of_remainder (Int.mul_tdiv_add_tmod a b) hbetween, hbetween⟩

/-- A quotient rounded down is no further below zero than the dividend may be from it. -/
theorem neg_le_floor {n : Int} (hlow : -n ≤ a) (hhigh : a ≤ n) : -n ≤ ⌊(a / b : ℚ)⌋ := by
  rw [Int.le_floor]
  rcases lt_or_gt_of_ne hb with hneg | hpos
  · have hle : a ≤ -n * b := by nlinarith
    rw [le_div_iff_of_neg (by exact_mod_cast hneg)]
    exact_mod_cast hle
  · have hle : -n * b ≤ a := by nlinarith
    rw [le_div_iff₀ (by exact_mod_cast hpos)]
    exact_mod_cast hle

end

/-! ## Words -/

section

variable {w : Nat}

theorem ofInt_tdiv (a b : BitVec w) : BitVec.ofInt w (a.toInt.tdiv b.toInt) = a.sdiv b :=
  BitVec.eq_of_toInt_eq (by rw [BitVec.toInt_ofInt, BitVec.toInt_sdiv])

theorem ofInt_tmod (a b : BitVec w) : BitVec.ofInt w (a.toInt.tmod b.toInt) = a.srem b := by
  rw [← BitVec.toInt_srem, BitVec.ofInt_toInt]

/-- The quotient of words, rounded down. -/
def floorDiv (a b : BitVec w) : Except Exception (BitVec w) :=
  if b = 0 then .error divisionByZero
  else .ok (if a.srem b ≠ 0 ∧ (a.toInt < 0) ≠ (b.toInt < 0) then a.sdiv b - 1 else a.sdiv b)

/-- What the quotient rounded down leaves. -/
def floorMod (a b : BitVec w) : Except Exception (BitVec w) :=
  if b = 0 then .error divisionByZero
  else .ok (if a.srem b ≠ 0 ∧ ((a.srem b).toInt < 0) ≠ (b.toInt < 0) then a.srem b + b
    else a.srem b)

/-- A correction that machine integers decide on is the one that their bits decide on. -/
theorem map_corrected {α : Type} [OfNat α 0] [LT α] [DecidableEq α] [DecidableLT α]
    (bits : α → BitVec w) (hzero : ∀ {x : α}, x = 0 ↔ bits x = 0)
    (hneg : ∀ {x : α}, x < 0 ↔ (bits x).toInt < 0) {e : Exception} {b m s x y : α} :
    (if b = 0 then .error e else .ok (if m ≠ 0 ∧ (s < 0) ≠ (b < 0) then x else y)
      : Except Exception α).map bits =
    if bits b = 0 then .error e
    else .ok (if bits m ≠ 0 ∧ ((bits s).toInt < 0) ≠ ((bits b).toInt < 0) then bits x
      else bits y) := by
  refine map_guard hzero ((apply_ite bits _ x y).trans (if_congr ?_ rfl rfl))
  rw [propext (hneg (x := s)), propext (hneg (x := b))]
  exact and_congr_left' (not_congr hzero)

theorem floorDiv_int (a b : Int32) :
    (Integers.floorDiv a b).map Int32.toBitVec = floorDiv a.toBitVec b.toBitVec :=
  map_corrected Int32.toBitVec Int32.toBitVec_inj.symm Int32.lt_iff_toInt_lt

theorem floorMod_int (a b : Int32) :
    (Integers.floorMod a b).map Int32.toBitVec = floorMod a.toBitVec b.toBitVec :=
  map_corrected Int32.toBitVec Int32.toBitVec_inj.symm Int32.lt_iff_toInt_lt

theorem floorDiv_long (a b : Int64) :
    (Longs.floorDiv a b).map Int64.toBitVec = floorDiv a.toBitVec b.toBitVec :=
  map_corrected Int64.toBitVec Int64.toBitVec_inj.symm Int64.lt_iff_toInt_lt

theorem floorMod_long (a b : Int64) :
    (Longs.floorMod a b).map Int64.toBitVec = floorMod a.toBitVec b.toBitVec :=
  map_corrected Int64.toBitVec Int64.toBitVec_inj.symm Int64.lt_iff_toInt_lt

theorem provides_floorDiv (t : IntegerType) : Provides t "floorDiv" floorDiv := by
  cases t
  case' int => refine provides_int ?_ floorDiv_int
  case' long => refine provides_long ?_ floorDiv_long
  all_goals simp only [Mathematics.methods, List.mem_cons, true_or, or_true]

theorem provides_floorMod (t : IntegerType) : Provides t "floorMod" floorMod := by
  cases t
  case' int => refine provides_int ?_ floorMod_int
  case' long => refine provides_long ?_ floorMod_long
  all_goals simp only [Mathematics.methods, List.mem_cons, true_or, or_true]

/-- The one division whose quotient is no word: of the least number by -1. -/
def Overflows (a b : BitVec w) : Prop := a = .intMin w ∧ b = -1#w

/-- The quotient `q` of `a` and `b` is rounded down, and `m` is what it leaves. -/
structure RoundsDown (a b q m : BitVec w) : Prop where
  quotient : q = .ofInt w ⌊(a.toInt / b.toInt : ℚ)⌋
  exact : ¬ Overflows a b → q.toInt = ⌊(a.toInt / b.toInt : ℚ)⌋
  least : Overflows a b → q = .intMin w
  remainder : m.toInt = a.toInt - b.toInt * ⌊(a.toInt / b.toInt : ℚ)⌋
  sign : m = 0 ∨ m.toInt.sign = b.toInt.sign
  smaller : m.toInt.natAbs < b.toInt.natAbs
  restores : q * b + m = a

/-- The steps that lead to `q` and `m`: a quotient and a remainder with truncation, which may be
corrected. No step overflows, but for the quotient where there is none among words. -/
structure StepsExact (a b q m : BitVec w) : Prop where
  truncated : ¬ Overflows a b → (a.sdiv b).toInt = a.toInt.tdiv b.toInt
  left : (a.srem b).toInt = a.toInt.tmod b.toInt
  quotient : q = a.sdiv b ∨ q = a.sdiv b - 1 ∧ q.toInt = (a.sdiv b).toInt - 1
  remainder : m = a.srem b ∨ m = a.srem b + b ∧ m.toInt = (a.srem b).toInt + b.toInt

variable {a b : BitVec w}

theorem toInt_ne_zero (hb : b ≠ 0) : b.toInt ≠ 0 := fun h =>
  hb (BitVec.eq_of_toInt_eq (h.trans BitVec.toInt_zero.symm))

theorem srem_ne_zero_iff : a.srem b ≠ 0 ↔ a.toInt.tmod b.toInt ≠ 0 := by
  rw [← BitVec.toInt_srem, ne_eq, ne_eq, not_iff_not, ← BitVec.toInt_inj]
  exact Eq.congr_right BitVec.toInt_zero

theorem toInt_sdiv_of_not_overflows (h : ¬ Overflows a b) :
    (a.sdiv b).toInt = a.toInt.tdiv b.toInt :=
  BitVec.toInt_sdiv_of_ne_or_ne a b (not_and_or.mp h)

theorem not_overflows_of_tmod (hw : 0 < w) (h : a.toInt.tmod b.toInt ≠ 0) : ¬ Overflows a b := by
  rintro ⟨-, rfl⟩
  apply h
  rw [BitVec.neg_one_eq_allOnes, BitVec.toInt_allOnes, if_pos hw, Int.tmod_neg, Int.tmod_one]

theorem fits_of_between {m : Int} (hm : Between b.toInt m) : Fits w m := by
  obtain ⟨hlow, hhigh⟩ := fits_toInt b
  unfold Fits
  rcases hm with ⟨hnonneg, hlt⟩ | ⟨hlt, hnonpos⟩
  · have hpow : (0 : Int) < 2 ^ (w - 1) := by positivity
    omega
  · omega

theorem sign_of_between {b m : Int} (h : Between b m) : m = 0 ∨ m.sign = b.sign := by
  rcases h with ⟨hnonneg, hlt⟩ | ⟨hlt, hnonpos⟩
  · refine hnonneg.eq_or_lt.imp Eq.symm fun hpos => ?_
    rw [Int.sign_eq_one_of_pos hpos, Int.sign_eq_one_of_pos (hpos.trans hlt)]
  · refine hnonpos.eq_or_lt.imp id fun hneg => ?_
    rw [Int.sign_eq_neg_one_of_neg hneg, Int.sign_eq_neg_one_of_neg (hlt.trans hneg)]

/-- The floor as a word rounds down, if it fits and what it leaves is between zero and the
divisor. -/
theorem roundsDown_of_floor (hw : 0 < w) {q : Int} (hfloor : ⌊(a.toInt / b.toInt : ℚ)⌋ = q)
    (hfits : ¬ Overflows a b → Fits w q) (hleast : Overflows a b → BitVec.ofInt w q = .intMin w)
    {m : Int} (hm : b.toInt * q + m = a.toInt) (hbetween : Between b.toInt m) :
    RoundsDown a b (.ofInt w q) (.ofInt w m) := by
  have htoInt : (BitVec.ofInt w m).toInt = m := (fits_of_between hbetween).toInt_ofInt hw
  subst hfloor
  refine ⟨rfl, fun h => (hfits h).toInt_ofInt hw, hleast, ?_, ?_, ?_, ?_⟩
  · rw [htoInt]
    linarith
  · rw [htoInt]
    refine (sign_of_between hbetween).imp_left fun h => ?_
    rw [h]
    exact BitVec.ofInt_ofNat w 0
  · rw [htoInt]
    unfold Between at hbetween
    omega
  · have hproduct : BitVec.ofInt w ⌊(a.toInt / b.toInt : ℚ)⌋ * b =
        BitVec.ofInt w (b.toInt * ⌊(a.toInt / b.toInt : ℚ)⌋) := by
      rw [mul_comm b.toInt, BitVec.ofInt_mul, BitVec.ofInt_toInt]
    rw [hproduct, ← BitVec.ofInt_add, hm, BitVec.ofInt_toInt]

section

variable (hw : 0 < w) (hb : b ≠ 0)

include hw hb

theorem floorDiv_lowers (h : a.toInt.tmod b.toInt ≠ 0 ∧ (a.toInt < 0) ≠ (b.toInt < 0)) :
    RoundsDown a b (a.sdiv b - 1) (a.srem b + b) ∧
      StepsExact a b (a.sdiv b - 1) (a.srem b + b) := by
  obtain ⟨hfloor, hbetween⟩ := floor_of_lowers (toInt_ne_zero hb) h
  have hover : ¬ Overflows a b := not_overflows_of_tmod hw h.1
  have hsdiv := toInt_sdiv_of_not_overflows hover
  have hfits : Fits w (a.toInt.tdiv b.toInt - 1) := by
    -- It lies below a word, and not below the least, since the floor is in reach of the dividend.
    obtain ⟨hlow, hhigh⟩ := fits_toInt a
    have hfloor_ge := neg_le_floor (toInt_ne_zero hb) (by linarith) hhigh.le
    have hsdiv_lt := (fits_toInt (a.sdiv b)).2
    rw [hfloor] at hfloor_ge
    exact ⟨by linarith, by linarith⟩
  have hq : BitVec.ofInt w (a.toInt.tdiv b.toInt - 1) = a.sdiv b - 1 := by
    rw [Int.sub_eq_add_neg, BitVec.ofInt_add, ofInt_tdiv, BitVec.ofInt_neg, BitVec.sub_eq_add_neg]
    rfl
  have hm : BitVec.ofInt w (a.toInt.tmod b.toInt + b.toInt) = a.srem b + b := by
    rw [BitVec.ofInt_add, ofInt_tmod, BitVec.ofInt_toInt]
  have hsum : b.toInt * (a.toInt.tdiv b.toInt - 1) + (a.toInt.tmod b.toInt + b.toInt) =
      a.toInt := by
    have htruncated := Int.mul_tdiv_add_tmod a.toInt b.toInt
    linarith
  have hrounds := roundsDown_of_floor hw hfloor (fun _ => hfits) (absurd · hover) hsum hbetween
  rw [hq, hm] at hrounds
  refine ⟨hrounds, fun _ => hsdiv, BitVec.toInt_srem a b, .inr ⟨rfl, ?_⟩, .inr ⟨rfl, ?_⟩⟩
  · rw [← hq, hfits.toInt_ofInt hw, hsdiv]
  · rw [← hm, (fits_of_between hbetween).toInt_ofInt hw, BitVec.toInt_srem]

theorem floorDiv_keeps (h : ¬ (a.toInt.tmod b.toInt ≠ 0 ∧ (a.toInt < 0) ≠ (b.toInt < 0))) :
    RoundsDown a b (a.sdiv b) (a.srem b) ∧ StepsExact a b (a.sdiv b) (a.srem b) := by
  obtain ⟨hfloor, hbetween⟩ := floor_of_not_lowers (toInt_ne_zero hb) h
  have hfits (hover : ¬ Overflows a b) : Fits w (a.toInt.tdiv b.toInt) := by
    rw [← toInt_sdiv_of_not_overflows hover]
    exact fits_toInt _
  have hleast (hover : Overflows a b) : BitVec.ofInt w (a.toInt.tdiv b.toInt) = .intMin w := by
    rw [ofInt_tdiv, hover.1, hover.2, BitVec.intMin_sdiv_neg_one]
  have hrounds := roundsDown_of_floor hw hfloor hfits hleast
    (Int.mul_tdiv_add_tmod a.toInt b.toInt) hbetween
  rw [ofInt_tdiv, ofInt_tmod] at hrounds
  exact ⟨hrounds, toInt_sdiv_of_not_overflows, BitVec.toInt_srem a b, .inl rfl, .inl rfl⟩

end

theorem lowers_iff : (a.srem b ≠ 0 ∧ (a.toInt < 0) ≠ (b.toInt < 0)) ↔
    a.toInt.tmod b.toInt ≠ 0 ∧ (a.toInt < 0) ≠ (b.toInt < 0) :=
  and_congr_left' srem_ne_zero_iff

theorem raises_iff : (a.srem b ≠ 0 ∧ ((a.srem b).toInt < 0) ≠ (b.toInt < 0)) ↔
    a.toInt.tmod b.toInt ≠ 0 ∧ (a.toInt < 0) ≠ (b.toInt < 0) := by
  rw [srem_ne_zero_iff, BitVec.toInt_srem]
  exact and_congr_right fun h => (lowers_iff_raises h).symm

/-- Both methods on words of any width: they throw for a divisor of zero and nothing else. -/
theorem floorDiv_floorMod (hw : 0 < w) (a b : BitVec w) :
    if b = 0 then floorDiv a b = .error divisionByZero ∧ floorMod a b = .error divisionByZero
    else ∃ q m, floorDiv a b = .ok q ∧ floorMod a b = .ok m ∧ RoundsDown a b q m ∧
      StepsExact a b q m := by
  unfold floorDiv floorMod
  split
  · exact ⟨rfl, rfl⟩
  · next hb =>
    by_cases h : a.toInt.tmod b.toInt ≠ 0 ∧ (a.toInt < 0) ≠ (b.toInt < 0)
    · rw [if_pos (lowers_iff.mpr h), if_pos (raises_iff.mpr h)]
      exact ⟨_, _, rfl, rfl, floorDiv_lowers hw hb h⟩
    · rw [if_neg (mt lowers_iff.mp h), if_neg (mt raises_iff.mp h)]
      exact ⟨_, _, rfl, rfl, floorDiv_keeps hw hb h⟩

end

example : floorDiv (.intMin 64) (-1#64) = .ok (.intMin 64) ∧
    floorMod (.intMin 64) (-1#64) = .ok 0 := ⟨rfl, rfl⟩

/-- Division rounded down, of `int` and of `long`, on the words that the methods are given. For a
divisor of zero both throw, and for no other; else they leave quotient and remainder, and no step
overflows but for the quotient of the least number by -1. -/
theorem floor_division (t : IntegerType) : ∃ div mod, Provides t "floorDiv" div ∧
    Provides t "floorMod" mod ∧ ∀ a b : BitVec t.bits,
      if b = 0 then div a b = .error divisionByZero ∧ mod a b = .error divisionByZero
      else ∃ q m, div a b = .ok q ∧ mod a b = .ok m ∧ RoundsDown a b q m ∧ StepsExact a b q m := by
  have hbits : 0 < t.bits := by cases t <;> decide
  exact ⟨_, _, provides_floorDiv t, provides_floorMod t, floorDiv_floorMod hbits⟩

end ClassWasm.Native
