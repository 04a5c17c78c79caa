/-
  The bytes of UTF-8 as numbers. A form is a first byte that says how many follow and tails of six
  bits each; `next?_encodeChar` says that what spells a character is read back as that character,
  and `encodeChar_of_next?` that nothing else is read as one. So the texts in UTF-8 are those of
  strings (`isUtf8_iff`).
-/
import ClassWasm.Text.Utf8
import Mathlib.Tactic

namespace ClassWasm.Text.Utf8

/-! ## Classes of bytes -/

theorem toNat_byte {n : Nat} (h : n < 256) : (UInt8.ofNat n).toNat = n :=
  UInt8.toNat_ofNat_of_lt h

theorem leadsOne_iff (a : UInt8) : a < 0x80 ↔ a.toNat < 0x80 := UInt8.lt_iff_toNat_lt

/-- The classes in one pass over all bytes. -/
theorem classes_iff (n : Fin 256) :
    (isTail (.ofFin n) = true ↔ 0x80 ≤ n.val ∧ n.val < 0xC0) ∧
      (UInt8.ofFin n &&& 0xE0 = 0xC0 ↔ 0xC0 ≤ n.val ∧ n.val < 0xE0) ∧
      (UInt8.ofFin n &&& 0xF0 = 0xE0 ↔ 0xE0 ≤ n.val ∧ n.val < 0xF0) ∧
      (UInt8.ofFin n &&& 0xF8 = 0xF0 ↔ 0xF0 ≤ n.val ∧ n.val < 0xF8) := by
  revert n
  decide +kernel

theorem isTail_iff (b : UInt8) : isTail b = true ↔ 0x80 ≤ b.toNat ∧ b.toNat < 0xC0 :=
  (classes_iff b.toFin).1

theorem leadsTwo_iff (a : UInt8) : a &&& 0xE0 = 0xC0 ↔ 0xC0 ≤ a.toNat ∧ a.toNat < 0xE0 :=
  (classes_iff a.toFin).2.1

theorem leadsThree_iff (a : UInt8) : a &&& 0xF0 = 0xE0 ↔ 0xE0 ≤ a.toNat ∧ a.toNat < 0xF0 :=
  (classes_iff a.toFin).2.2.1

theorem leadsFour_iff (a : UInt8) : a &&& 0xF8 = 0xF0 ↔ 0xF0 ≤ a.toNat ∧ a.toNat < 0xF8 :=
  (classes_iff a.toFin).2.2.2

theorem isTail_byte {n : Nat} (h : n < 64) : isTail (UInt8.ofNat (n + 128)) = true := by
  rw [isTail_iff, toNat_byte (by omega)]
  omega

theorem tail_byte {n : Nat} (h : n < 64) : tail (UInt8.ofNat (n + 128)) = n := by
  rw [tail, toNat_byte (by omega)]
  omega

/-! ## Forms -/

section

variable {a b c d : Nat} (rest : List UInt8)

theorem next?_one (ha : a < 128) :
    next? (UInt8.ofNat a :: rest) = (scalar? 0 a).map (·, rest) := by
  have hlead : (UInt8.ofNat a).toNat = a := toNat_byte (by omega)
  unfold next?
  simp only [leadsOne_iff, hlead]
  rw [if_pos ha]

theorem next?_two (ha : a < 32) (hb : b < 64) :
    next? (UInt8.ofNat (a + 192) :: UInt8.ofNat (b + 128) :: rest) =
      (scalar? 0x80 (a * 64 + b)).map (·, rest) := by
  have hlead : (UInt8.ofNat (a + 192)).toNat = a + 192 := toNat_byte (by omega)
  unfold next?
  simp only [leadsOne_iff, leadsTwo_iff, hlead, isTail_byte hb, tail_byte hb, ↓reduceIte]
  rw [if_neg (by omega), if_pos (by omega), show (a + 192) % 32 = a by omega]

theorem next?_three (ha : a < 16) (hb : b < 64) (hc : c < 64) :
    next? (UInt8.ofNat (a + 224) :: UInt8.ofNat (b + 128) :: UInt8.ofNat (c + 128) :: rest) =
      (scalar? 0x800 (a * 4096 + b * 64 + c)).map (·, rest) := by
  have hlead : (UInt8.ofNat (a + 224)).toNat = a + 224 := toNat_byte (by omega)
  unfold next?
  simp only [leadsOne_iff, leadsTwo_iff, leadsThree_iff, hlead, isTail_byte hb, isTail_byte hc,
    tail_byte hb, tail_byte hc, Bool.and_self, ↓reduceIte]
  rw [if_neg (by omega), if_neg (by omega), if_pos (by omega),
    show (a + 224) % 16 = a by omega]

theorem next?_four (ha : a < 8) (hb : b < 64) (hc : c < 64) (hd : d < 64) :
    next? (UInt8.ofNat (a + 240) :: UInt8.ofNat (b + 128) :: UInt8.ofNat (c + 128) ::
        UInt8.ofNat (d + 128) :: rest) =
      (scalar? 0x10000 (a * 262144 + b * 4096 + c * 64 + d)).map (·, rest) := by
  have hlead : (UInt8.ofNat (a + 240)).toNat = a + 240 := toNat_byte (by omega)
  unfold next?
  simp only [leadsOne_iff, leadsTwo_iff, leadsThree_iff, leadsFour_iff, hlead, isTail_byte hb,
    isTail_byte hc, isTail_byte hd, tail_byte hb, tail_byte hc, tail_byte hd, Bool.and_self,
    ↓reduceIte]
  rw [if_neg (by omega), if_neg (by omega), if_neg (by omega), if_pos (by omega),
    show (a + 240) % 8 = a by omega]

end

/-! ## Characters -/

theorem toNat_char (c : Char) : c.toNat < 0xD800 ∨ 0xDFFF < c.toNat ∧ c.toNat < 0x110000 := c.valid

theorem scalar?_toNat {least : Nat} {c : Char} (h : least ≤ c.toNat) :
    scalar? least c.toNat = some c := by
  have hvalid : c.toNat.isValidChar := c.valid
  rw [scalar?, dif_pos hvalid, if_pos h]
  rfl

theorem toNat_ofNat_char {n : Nat} (h : n.isValidChar) : (Char.ofNat n).toNat = n := by
  rw [Char.ofNat, dif_pos h]
  rfl

/-- A surrogate is no character. -/
theorem scalar?_surrogate {least n : Nat} (hle : 0xD800 ≤ n) (hlt : n < 0xE000) :
    scalar? least n = none := by
  have hvalid : ¬ n.isValidChar := by
    unfold Nat.isValidChar
    omega
  rw [scalar?, dif_neg hvalid]

/-- What spells a character is read as that character. -/
theorem next?_encodeChar (c : Char) (rest : List UInt8) :
    next? (String.utf8EncodeChar c ++ rest) = some (c, rest) := by
  have hc := toNat_char c
  have hval : c.val.toNat = c.toNat := rfl
  unfold String.utf8EncodeChar
  rw [hval]
  dsimp only
  split
  · next hone =>
    rw [List.cons_append, List.nil_append, next?_one _ (by omega), scalar?_toNat (by omega)]
    rfl
  · split
    · next hone htwo =>
      have hn : c.toNat / 64 % 32 * 64 + c.toNat % 64 = c.toNat := by omega
      rw [List.cons_append, List.cons_append, List.nil_append, next?_two _ (by omega) (by omega),
        hn, scalar?_toNat (by omega)]
      rfl
    · split
      · next htwo hthree =>
        have hn : c.toNat / 4096 % 16 * 4096 + c.toNat / 64 % 64 * 64 + c.toNat % 64 = c.toNat := by
          omega
        rw [List.cons_append, List.cons_append, List.cons_append, List.nil_append,
          next?_three _ (by omega) (by omega) (by omega), hn, scalar?_toNat (by omega)]
        rfl
      · next hthree =>
        have hn : c.toNat / 262144 % 8 * 262144 + c.toNat / 4096 % 64 * 4096 +
            c.toNat / 64 % 64 * 64 + c.toNat % 64 = c.toNat := by
          omega
        rw [List.cons_append, List.cons_append, List.cons_append, List.cons_append,
          List.nil_append, next?_four _ (by omega) (by omega) (by omega) (by omega), hn,
          scalar?_toNat (by omega)]
        rfl

theorem scalar?_eq_some {least n : Nat} {c : Char} (h : scalar? least n = some c) :
    c.toNat = n ∧ least ≤ n := by
  by_cases hvalid : n.isValidChar
  · rw [scalar?, dif_pos hvalid, Option.ite_none_right_eq_some] at h
    obtain ⟨hle, hc⟩ := h
    obtain rfl := Option.some.inj hc
    exact ⟨rfl, hle⟩
  · rw [scalar?, dif_neg hvalid] at h
    cases h

theorem byte_eq {n : Nat} {a : UInt8} (h : n = a.toNat) : UInt8.ofNat n = a := by
  rw [h, UInt8.ofNat_toNat]

/-- What is read as a character spells it: there is one form for each. -/
theorem encodeChar_of_next? {bs rest : List UInt8} {c : Char} (h : next? bs = some (c, rest)) :
    bs = String.utf8EncodeChar c ++ rest := by
  have hc := toNat_char c
  have hval : c.val.toNat = c.toNat := rfl
  unfold next? at h
  unfold String.utf8EncodeChar
  rw [hval]
  dsimp only
  split at h
  · cases h
  · next a bs =>
    simp only [leadsOne_iff, leadsTwo_iff, leadsThree_iff, leadsFour_iff] at h
    split at h
    · next ha =>
      obtain ⟨d, hd, hpair⟩ := Option.map_eq_some_iff.mp h
      cases hpair
      obtain ⟨hn, -⟩ := scalar?_eq_some hd
      rw [if_pos (by omega), byte_eq hn]
      rfl
    · split at h
      · next hlead =>
        split at h
        · next b bs =>
          simp only [Option.ite_none_right_eq_some, isTail_iff] at h
          obtain ⟨htail, h⟩ := h
          obtain ⟨d, hd, hpair⟩ := Option.map_eq_some_iff.mp h
          cases hpair
          obtain ⟨hn, hle⟩ := scalar?_eq_some hd
          unfold tail at hn hle
          rw [if_neg (by omega), if_pos (by omega), byte_eq (a := a) (by omega),
            byte_eq (a := b) (by omega)]
          rfl
        · cases h
      · split at h
        · next hlead =>
          split at h
          · next b c bs =>
            simp only [Option.ite_none_right_eq_some, Bool.and_eq_true, isTail_iff] at h
            obtain ⟨⟨htail, htail'⟩, h⟩ := h
            obtain ⟨d, hd, hpair⟩ := Option.map_eq_some_iff.mp h
            cases hpair
            obtain ⟨hn, hle⟩ := scalar?_eq_some hd
            unfold tail at hn hle
            rw [if_neg (by omega), if_neg (by omega), if_pos (by omega),
              byte_eq (a := a) (by omega), byte_eq (a := b) (by omega),
              byte_eq (a := c) (by omega)]
            rfl
          · cases h
        · split at h
          · next hlead =>
            split at h
            · next b c d bs =>
              simp only [Option.ite_none_right_eq_some, Bool.and_eq_true, isTail_iff] at h
              obtain ⟨⟨⟨htail, htail'⟩, htail''⟩, h⟩ := h
              obtain ⟨e, he, hpair⟩ := Option.map_eq_some_iff.mp h
              cases hpair
              obtain ⟨hn, hle⟩ := scalar?_eq_some he
              unfold tail at hn hle
              rw [if_neg (by omega), if_neg (by omega), if_neg (by omega),
                byte_eq (a := a) (by omega), byte_eq (a := b) (by omega),
                byte_eq (a := c) (by omega), byte_eq (a := d) (by omega)]
              rfl
            · cases h
          · cases h

/-- Bytes are UTF-8 exactly where they spell characters one after the other. -/
theorem isValid_iff (bs : List UInt8) :
    isValid bs = true ↔ ∃ cs : List Char, bs = cs.flatMap String.utf8EncodeChar := by
  constructor
  · intro h
    induction bs using glyphs.induct with
    | case1 => exact ⟨[], rfl⟩
    | case2 b bs ih =>
      unfold isValid glyphs step at h
      unfold step at ih
      cases hnext : next? (b :: bs) with
      | none => simp [hnext] at h
      | some p =>
        obtain ⟨c, rest⟩ := p
        simp only [hnext, List.all_cons, Bool.true_and] at h ih
        obtain ⟨cs, hcs⟩ := ih h
        exact ⟨c :: cs, by rw [encodeChar_of_next? hnext, hcs, List.flatMap_cons]⟩
  · rintro ⟨cs, rfl⟩
    induction cs with
    | nil => simp [isValid, glyphs]
    | cons c cs ih =>
      rw [List.flatMap_cons]
      have hnext := next?_encodeChar c (cs.flatMap String.utf8EncodeChar)
      cases hbs : String.utf8EncodeChar c ++ cs.flatMap String.utf8EncodeChar with
      | nil => simp [isValid, glyphs]
      | cons b bs =>
        rw [hbs] at hnext
        unfold isValid at ih ⊢
        rw [glyphs, step, hnext, List.all_cons, ih]
        rfl

end ClassWasm.Text.Utf8

namespace ClassWasm.Text

theorem ofString_ofList (cs : List Char) :
    ofString (String.ofList cs) = ⟨cs.flatMap String.utf8EncodeChar⟩ := by
  simp [ofString, List.utf8Encode]

/-- Texts in UTF-8 are those of strings. -/
theorem isUtf8_iff (t : Text) : t.isUtf8 = true ↔ ∃ s : String, t = ofString s := by
  unfold isUtf8
  rw [Utf8.isValid_iff]
  constructor
  · rintro ⟨cs, hcs⟩
    exact ⟨String.ofList cs, by rw [ofString_ofList, ← hcs]⟩
  · rintro ⟨s, rfl⟩
    exact ⟨s.toList, by rw [← String.ofList_toList (s := s), ofString_ofList, String.toList_ofList]⟩

end ClassWasm.Text
