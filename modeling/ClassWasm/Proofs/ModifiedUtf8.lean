/-
  Text that has been decoded is encoded to bytes that decode to it again. The units of text decide
  its encoding (`encodeBytes_textOfUnits`): every unit is written in its shortest form, whatever
  form it was read from, so the bytes may differ while the text does not.
-/
import ClassWasm.ModifiedUtf8
import ClassWasm.Proofs.Results
import ClassWasm.Proofs.Text.Utf8

namespace ClassWasm.ModifiedUtf8

open Text.Utf8

/-! ## Units as bytes -/

/-- A mark in the high bits of a byte, and a number below it. -/
theorem mark_or {k a b : Nat} (hb : b < 2 ^ k) (hlt : b + 2 ^ k * a < 256) :
    UInt8.ofNat (2 ^ k * a) ||| UInt8.ofNat b = UInt8.ofNat (b + 2 ^ k * a) := by
  rw [← UInt8.toNat_inj, UInt8.toNat_or, toNat_byte (by omega), toNat_byte (by omega),
    toNat_byte hlt, ← Nat.two_pow_add_eq_or_of_lt hb, Nat.add_comm]

theorem toNat_shiftRight_six (u : UInt16) : (u >>> 6).toNat = u.toNat / 64 :=
  Nat.shiftRight_eq_div_pow u.toNat 6

theorem tailByte_eq (u : UInt16) :
    (0x80 : UInt8) ||| (u &&& 0x3F).toUInt8 = UInt8.ofNat (u.toNat % 64 + 128) := by
  have htail : (u &&& 0x3F).toUInt8 = UInt8.ofNat (u.toNat % 64) :=
    congrArg UInt8.ofNat (Nat.and_two_pow_sub_one_eq_mod u.toNat 6)
  rw [htail]
  exact mark_or (k := 6) (a := 2) (by omega) (by omega)

theorem threeBytes_eq (u : UInt16) : threeBytes u =
    [UInt8.ofNat (u.toNat / 4096 + 224), UInt8.ofNat (u.toNat / 64 % 64 + 128),
      UInt8.ofNat (u.toNat % 64 + 128)] := by
  have hu := u.toNat_lt
  have hhigh : (u >>> 12).toUInt8 = UInt8.ofNat (u.toNat / 4096) :=
    congrArg UInt8.ofNat (Nat.shiftRight_eq_div_pow u.toNat 12)
  have hlead : (0xE0 : UInt8) ||| (u >>> 12).toUInt8 = UInt8.ofNat (u.toNat / 4096 + 224) := by
    rw [hhigh]
    exact mark_or (k := 5) (a := 7) (by omega) (by omega)
  rw [threeBytes, hlead, tailByte_eq, tailByte_eq, toNat_shiftRight_six]

theorem encodeUnit_one {u : UInt16} (hpos : 0 < u.toNat) (hlt : u.toNat < 0x80) :
    encodeUnit u = [UInt8.ofNat u.toNat] := by
  have hne : u ≠ 0 := by
    rintro rfl
    exact absurd hpos (by decide)
  have hone : u ≠ 0 ∧ u < 0x80 := ⟨hne, hlt⟩
  rw [encodeUnit, if_pos hone]
  rfl

theorem encodeUnit_two {u : UInt16} (h : u.toNat = 0 ∨ 0x80 ≤ u.toNat) (hlt : u.toNat < 0x800) :
    encodeUnit u = [UInt8.ofNat (u.toNat / 64 + 192), UInt8.ofNat (u.toNat % 64 + 128)] := by
  have hone : ¬ (u ≠ 0 ∧ u < 0x80) := by
    rintro ⟨hne, hlt'⟩
    have hlt' : u.toNat < 0x80 := hlt'
    have hne : u.toNat ≠ 0 := fun h => hne (UInt16.toNat_inj.mp h)
    omega
  have htwo : u < 0x800 := hlt
  have hhigh : (u >>> 6).toUInt8 = UInt8.ofNat (u.toNat / 64) :=
    congrArg UInt8.ofNat (toNat_shiftRight_six u)
  have hlead : (0xC0 : UInt8) ||| (u >>> 6).toUInt8 = UInt8.ofNat (u.toNat / 64 + 192) := by
    rw [hhigh]
    exact mark_or (k := 6) (a := 3) (by omega) (by omega)
  rw [encodeUnit, if_neg hone, if_pos htwo, hlead, tailByte_eq]

theorem encodeUnit_three {u : UInt16} (h : 0x800 ≤ u.toNat) : encodeUnit u = threeBytes u := by
  have hone : ¬ (u ≠ 0 ∧ u < 0x80) := by
    rintro ⟨-, hlt⟩
    have hlt : u.toNat < 0x80 := hlt
    omega
  have htwo : ¬ u < 0x800 := fun hlt => by
    have hlt : u.toNat < 0x800 := hlt
    omega
  rw [encodeUnit, if_neg hone, if_neg htwo]

/-! ## Units from bytes -/

section

variable {a b c : Nat} (pos : Nat) (rest : Bytes)

theorem units_one (ha : a < 128) :
    units pos (UInt8.ofNat a :: rest) = (units (pos + 1) rest).map (UInt16.ofNat a :: ·) := by
  have hlead : (UInt8.ofNat a).toNat = a := toNat_byte (by omega)
  have hunit : (UInt8.ofNat a).toUInt16 = UInt16.ofNat a := by
    rw [← UInt16.toNat_inj, UInt8.toNat_toUInt16, hlead, UInt16.toNat_ofNat',
      Nat.mod_eq_of_lt (by omega)]
  rw [units.eq_def]
  simp only [leadsOne_iff, hlead, hunit]
  rw [if_pos ha]

theorem units_two (ha : a < 32) (hb : b < 64) :
    units pos (UInt8.ofNat (a + 192) :: UInt8.ofNat (b + 128) :: rest) =
      (units (pos + 2) rest).map (UInt16.ofNat (a * 64 + b) :: ·) := by
  have hlead : (UInt8.ofNat (a + 192)).toNat = a + 192 := toNat_byte (by omega)
  rw [units.eq_def]
  simp only [leadsOne_iff, leadsTwo_iff, hlead, isTail_byte hb, tail_byte hb, ↓reduceIte]
  rw [if_neg (by omega), if_pos (by omega), show (a + 192) % 32 = a by omega]

theorem units_three (ha : a < 16) (hb : b < 64) (hc : c < 64) :
    units pos (UInt8.ofNat (a + 224) :: UInt8.ofNat (b + 128) :: UInt8.ofNat (c + 128) :: rest) =
      (units (pos + 3) rest).map (UInt16.ofNat (a * 4096 + b * 64 + c) :: ·) := by
  have hlead : (UInt8.ofNat (a + 224)).toNat = a + 224 := toNat_byte (by omega)
  rw [units.eq_def]
  simp only [leadsOne_iff, leadsTwo_iff, leadsThree_iff, hlead, isTail_byte hb, isTail_byte hc,
    tail_byte hb, tail_byte hc, Bool.and_self, ↓reduceIte]
  rw [if_neg (by omega), if_neg (by omega), if_pos (by omega), show (a + 224) % 16 = a by omega]

end

/-- The form of a unit is read as that unit. -/
theorem units_encodeUnit (pos : Nat) (u : UInt16) (rest : Bytes) :
    units pos (encodeUnit u ++ rest) =
      (units (pos + (encodeUnit u).length) rest).map (u :: ·) := by
  have hu := u.toNat_lt
  by_cases hone : 0 < u.toNat ∧ u.toNat < 0x80
  · rw [encodeUnit_one hone.1 hone.2, List.cons_append, List.nil_append, units_one _ _ hone.2,
      UInt16.ofNat_toNat]
    rfl
  · by_cases htwo : u.toNat < 0x800
    · have hn : u.toNat / 64 * 64 + u.toNat % 64 = u.toNat := by omega
      rw [encodeUnit_two (by omega) htwo, List.cons_append, List.cons_append, List.nil_append,
        units_two _ _ (by omega) (by omega), hn, UInt16.ofNat_toNat]
      rfl
    · have hn : u.toNat / 4096 * 4096 + u.toNat / 64 % 64 * 64 + u.toNat % 64 = u.toNat := by omega
      rw [encodeUnit_three (by omega), threeBytes_eq, List.cons_append, List.cons_append,
        List.cons_append, List.nil_append, units_three _ _ (by omega) (by omega) (by omega), hn,
        UInt16.ofNat_toNat]
      rfl

theorem units_flatMap_encodeUnit (pos : Nat) (us : List UInt16) :
    units pos (us.flatMap encodeUnit) = .ok us := by
  induction us generalizing pos with
  | nil => rfl
  | cons u us ih =>
    rw [List.flatMap_cons, units_encodeUnit, ih]
    rfl

/-! ## Text as units -/

theorem isSurrogate_iff (u : UInt16) :
    (isHigh u || isLow u) = true ↔ 0xD800 ≤ u.toNat ∧ u.toNat < 0xE000 := by
  simp only [isHigh, isLow, Bool.or_eq_true, Bool.and_eq_true, decide_eq_true_eq,
    UInt16.le_iff_toNat_le, UInt16.lt_iff_toNat_lt, UInt16.reduceToNat]
  omega

/-- A character is not taken for a lone surrogate. -/
theorem loneSurrogate?_encodeChar (c : Char) (rest : Bytes) :
    loneSurrogate? (String.utf8EncodeChar c ++ rest) = none := by
  cases hlone : loneSurrogate? (String.utf8EncodeChar c ++ rest) with
  | none => rfl
  | some found =>
    have hnext := next?_encodeChar c rest
    unfold loneSurrogate? at hlone
    split at hlone
    · next a b d rest' hbs =>
      rw [hbs] at hnext
      split at hlone
      · next hform =>
        obtain ⟨rfl, hb, hb', hd⟩ := hform
        have hb : 0xA0 ≤ b.toNat := hb
        have hb' : b.toNat ≤ 0xBF := hb'
        have htail : isTail b = true := (isTail_iff b).mpr (by omega)
        have hnone : next? (0xED :: b :: d :: rest') = none := by
          have hlead : (0xED : UInt8).toNat = 237 := rfl
          have hd' : tail d < 64 := Nat.mod_lt _ (by omega)
          unfold next?
          simp only [leadsOne_iff, leadsTwo_iff, leadsThree_iff, hlead, htail, hd, Bool.and_self,
            ↓reduceIte]
          rw [if_neg (by omega), if_neg (by omega), if_pos (by omega), scalar?_surrogate]
          · rfl
          · unfold tail; omega
          · unfold tail; omega
        rw [hnone] at hnext
        cases hnext
      · cases hlone
    · cases hlone

theorem encodeBytes_char (c : Char) (rest : Bytes) :
    encodeBytes (String.utf8EncodeChar c ++ rest) = encodeScalar c ++ encodeBytes rest := by
  have hnext := next?_encodeChar c rest
  have hlone := loneSurrogate?_encodeChar c rest
  cases hbs : String.utf8EncodeChar c ++ rest with
  | nil =>
    rw [hbs] at hnext
    cases hnext
  | cons a bs =>
    rw [hbs] at hnext hlone
    have hstep : step a bs = (.scalar c, rest) := by
      rw [step, hnext]
    rw [encodeBytes]
    split
    · next hsome =>
      rw [hlone] at hsome
      cases hsome
    · dsimp only
      rw [hstep]

theorem encodeBytes_surrogate {u : UInt16} (h : (isHigh u || isLow u) = true) (rest : Bytes) :
    encodeBytes (threeBytes u ++ rest) = encodeUnit u ++ encodeBytes rest := by
  obtain ⟨hle, hlt⟩ := (isSurrogate_iff u).mp h
  have hlead : UInt8.ofNat (u.toNat / 4096 + 224) = 0xED := by
    rw [show u.toNat / 4096 + 224 = 0xED by omega]
    rfl
  have hsecond : (UInt8.ofNat (u.toNat / 64 % 64 + 128)).toNat = u.toNat / 64 % 64 + 128 :=
    toNat_byte (by omega)
  have hlone : loneSurrogate? (threeBytes u ++ rest) = some (threeBytes u, rest) := by
    rw [threeBytes_eq, hlead]
    refine if_pos ⟨rfl, ?_, ?_, isTail_byte (by omega)⟩
    · rw [UInt8.le_iff_toNat_le, hsecond]
      change 0xA0 ≤ _
      omega
    · rw [UInt8.le_iff_toNat_le, hsecond]
      change _ ≤ 0xBF
      omega
  rw [encodeUnit_three (by omega)]
  cases hbs : threeBytes u ++ rest with
  | nil =>
    rw [hbs] at hlone
    cases hlone
  | cons a bs =>
    rw [hbs] at hlone
    rw [encodeBytes]
    split
    · next hsome =>
      rw [hlone] at hsome
      cases hsome
      rfl
    · next hnone =>
      rw [hlone] at hnone
      cases hnone

theorem encodeScalar_unit {u : UInt16} (h : ¬ (isHigh u || isLow u) = true) :
    encodeScalar (Char.ofNat u.toNat) = encodeUnit u := by
  rw [isSurrogate_iff] at h
  have hu := u.toNat_lt
  have hchar : (Char.ofNat u.toNat).toNat = u.toNat := by
    refine toNat_ofNat_char ?_
    unfold Nat.isValidChar
    omega
  unfold encodeScalar
  rw [hchar]
  dsimp only
  rw [if_pos hu, UInt16.ofNat_toNat]

theorem encodeScalar_pair {u v : UInt16} (hu : isHigh u = true) (hv : isLow v = true) :
    encodeScalar (pair u v) = encodeUnit u ++ encodeUnit v := by
  simp only [isHigh, isLow, Bool.and_eq_true, decide_eq_true_eq, UInt16.le_iff_toNat_le,
    UInt16.lt_iff_toNat_lt, UInt16.reduceToNat] at hu hv
  have hchar : (pair u v).toNat =
      0x10000 + (u.toNat - 0xD800) * 0x400 + (v.toNat - 0xDC00) := by
    refine toNat_ofNat_char ?_
    unfold Nat.isValidChar
    omega
  have hhigh : 0xD800 + ((pair u v).toNat - 0x10000) / 0x400 = u.toNat := by omega
  have hlow : 0xDC00 + ((pair u v).toNat - 0x10000) % 0x400 = v.toNat := by omega
  unfold encodeScalar
  dsimp only
  rw [if_neg (by omega), hhigh, hlow, UInt16.ofNat_toNat, UInt16.ofNat_toNat]

/-- Encoding writes the units of text, each in its shortest form. -/
theorem encodeBytes_textOfUnits (us : List UInt16) :
    encodeBytes (textOfUnits us) = us.flatMap encodeUnit := by
  fun_induction textOfUnits us with
  | case1 =>
    rw [encodeBytes]
    rfl
  | case2 u hlone =>
    have h := encodeBytes_surrogate hlone []
    rw [encodeBytes, List.append_nil] at h
    exact h
  | case3 u hunit =>
    have h := encodeBytes_char (Char.ofNat u.toNat) []
    rw [encodeBytes, List.append_nil, encodeScalar_unit hunit] at h
    exact h
  | case4 u v rest hpair ih =>
    obtain ⟨hu, hv⟩ := Bool.and_eq_true_iff.mp hpair
    rw [encodeBytes_char, encodeScalar_pair hu hv, ih, List.append_assoc]
    rfl
  | case5 u v rest hpair hlone ih =>
    rw [encodeBytes_surrogate hlone, ih]
    rfl
  | case6 u v rest hpair hunit ih =>
    rw [encodeBytes_char, encodeScalar_unit hunit, ih]
    rfl

/-! ## Plain bytes -/

/-- A unit that is no surrogate becomes a character, whatever follows. -/
theorem textOfUnits_unit {u : UInt16} (h : ¬ (isHigh u || isLow u) = true) (us : List UInt16) :
    textOfUnits (u :: us) = String.utf8EncodeChar (Char.ofNat u.toNat) ++ textOfUnits us := by
  have hhigh : isHigh u = false := by
    cases hu : isHigh u with
    | false => rfl
    | true => simp [hu] at h
  cases us with
  | nil => simp only [textOfUnits, if_neg h, List.append_nil]
  | cons v us =>
    rw [textOfUnits, hhigh, Bool.false_and, if_neg (by simp), Bool.false_or, if_neg]
    simpa [hhigh] using h

/-- A byte below 0x80 is its own unit, and the unit is spelled as that byte. -/
theorem textOfUnits_byte {b : UInt8} (h : b < 0x80) (us : List UInt16) :
    textOfUnits (b.toUInt16 :: us) = b :: textOfUnits us := by
  have hb : b.toNat < 0x80 := h
  have hunit : b.toUInt16.toNat = b.toNat := UInt8.toNat_toUInt16 b
  have hchar : (Char.ofNat b.toNat).toNat = b.toNat := by
    refine toNat_ofNat_char ?_
    unfold Nat.isValidChar
    omega
  have hval : (Char.ofNat b.toNat).val.toNat = b.toNat := hchar
  have hplain : ¬ (isHigh b.toUInt16 || isLow b.toUInt16) = true := by
    rw [isSurrogate_iff]
    omega
  rw [textOfUnits_unit hplain, hunit, String.utf8EncodeChar, hval, if_pos (by omega), byte_eq rfl]
  rfl

/-- Plain bytes spell one unit each. -/
theorem units_plain {bs : Bytes} (h : ∀ b ∈ bs, b < 0x80) (pos : Nat) :
    units pos bs = .ok (bs.map UInt8.toUInt16) := by
  induction bs generalizing pos with
  | nil => rfl
  | cons b bs ih =>
    rw [units.eq_def]
    dsimp only
    rw [if_pos (h b List.mem_cons_self), ih fun b hb => h b (List.mem_cons_of_mem _ hb)]
    rfl

theorem textOfUnits_plain {bs : Bytes} (h : ∀ b ∈ bs, b < 0x80) :
    textOfUnits (bs.map UInt8.toUInt16) = bs := by
  induction bs with
  | nil => rfl
  | cons b bs ih =>
    rw [List.map_cons, textOfUnits_byte (h b List.mem_cons_self),
      ih fun b hb => h b (List.mem_cons_of_mem _ hb)]

/-- Leaving plain bytes as they are gives what reading them unit by unit gives. -/
theorem decode_eq_decodeUnits (bs : Bytes) : decode bs = decodeUnits bs := by
  unfold decode
  split
  · next hplain =>
    have hsmall : ∀ b ∈ bs, b < 0x80 := by
      intro b hb
      have := List.all_eq_true.mp hplain b hb
      simpa using (Bool.and_eq_true_iff.mp this).2
    rw [decodeUnits, units_plain hsmall, Except.map, textOfUnits_plain hsmall]
  · rfl

/-- Units in their shortest form are decoded to the text of these units. -/
theorem decode_flatMap_encodeUnit (us : List UInt16) :
    decode (us.flatMap encodeUnit) = .ok ⟨textOfUnits us⟩ := by
  rw [decode_eq_decodeUnits, decodeUnits, units_flatMap_encodeUnit]
  rfl

theorem decode_eq_ok {bs : Bytes} {t : Text} (h : decode bs = .ok t) :
    ∃ us, units 0 bs = .ok us ∧ t = ⟨textOfUnits us⟩ := by
  rw [decode_eq_decodeUnits] at h
  obtain ⟨us, hus, rfl⟩ := map_eq_ok h
  exact ⟨us, hus, rfl⟩

/-- Decoded text survives being encoded and decoded again. -/
theorem decode_encode {bs : Bytes} {t : Text} (h : decode bs = .ok t) :
    decode (encode t) = .ok t := by
  obtain ⟨us, -, rfl⟩ := decode_eq_ok h
  rw [encode, encodeBytes_textOfUnits, decode_flatMap_encodeUnit]

end ClassWasm.ModifiedUtf8
