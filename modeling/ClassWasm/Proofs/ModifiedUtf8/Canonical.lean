/-
  Which bytes are the encoding of their text, and which texts are what bytes are decoded to. Bytes
  are the encoding of what they decode to exactly if every unit has its shortest form
  (`Canonical`). Decoded text consists of characters and of surrogates that have no partner
  (`Kept`): a high one with a low one behind it would have become one character. Main result:
  encoding and decoding are inverse to each other between the two (`round_trips`), and of any other
  text only bytes that spell nothing are lost, which become replacement characters.
-/
import ClassWasm.Proofs.ModifiedUtf8

namespace ClassWasm.ModifiedUtf8

open Text.Utf8

/-! ## Shortest forms -/

/-- The bytes `a` and `b` start a form that is longer than its unit needs. Zero has none that is
shorter than C0 80. -/
def Overlong (a b : UInt8) : Prop := a = 0xC0 ∧ b ≠ 0x80 ∨ a = 0xC1 ∨ a = 0xE0 ∧ b < 0xA0

/-- No unit has a longer form than it needs, and zero has the form of two bytes. -/
structure Canonical (bs : Bytes) : Prop where
  no_zero : 0x00 ∉ bs
  no_overlong : bs.IsChain fun a b => ¬ Overlong a b

theorem overlong_iff (a b : UInt8) : Overlong a b ↔
    a.toNat = 0xC0 ∧ b.toNat ≠ 0x80 ∨ a.toNat = 0xC1 ∨ a.toNat = 0xE0 ∧ b.toNat < 0xA0 := by
  simp only [Overlong, ← UInt8.toNat_inj, UInt8.lt_iff_toNat_lt, UInt8.reduceToNat, ne_eq]

theorem canonical_nil : Canonical [] := ⟨List.not_mem_nil, .nil⟩

/-- Nothing behind a byte that leads no form makes it overlong. -/
theorem Canonical.append {bs bs' : Bytes} (h : Canonical bs) (h' : Canonical bs')
    (hlast : ∀ b ∈ bs.getLast?, b.toNat < 0xC0) : Canonical (bs ++ bs') where
  no_zero hzero := (List.mem_append.mp hzero).elim h.no_zero h'.no_zero
  no_overlong := by
    refine List.isChain_append.mpr ⟨h.no_overlong, h'.no_overlong, fun a ha b _ => ?_⟩
    have := hlast a ha
    rw [overlong_iff]
    omega

/-- A form as it should be: no byte is zero or leads four bytes, no unit has a longer form than it
needs, and the last byte leads nothing. -/
structure Form (bs : Bytes) : Prop extends Canonical bs where
  bounds : ∀ b ∈ bs, b ≠ 0 ∧ b < 0xF0
  last : ∀ b ∈ bs.getLast?, b.toNat < 0xC0

theorem form_of_numbers (ns : List Nat) (hbounds : ∀ n ∈ ns, 0 < n ∧ n < 0xF0)
    (hchain : ns.IsChain fun a b => ¬ (a = 0xC0 ∧ b ≠ 0x80 ∨ a = 0xC1 ∨ a = 0xE0 ∧ b < 0xA0))
    (hlast : ∀ n ∈ ns.getLast?, n < 0xC0) : Form (ns.map UInt8.ofNat) := by
  have hbyte : ∀ n ∈ ns, (UInt8.ofNat n).toNat = n := fun n hn =>
    toNat_byte ((hbounds n hn).2.trans (by decide))
  have hbytes : ∀ b ∈ ns.map UInt8.ofNat, b ≠ 0 ∧ b < 0xF0 := by
    intro b hb
    obtain ⟨n, hn, rfl⟩ := List.mem_map.mp hb
    rw [ne_eq, ← UInt8.toNat_inj, UInt8.lt_iff_toNat_lt, hbyte n hn]
    exact ⟨(hbounds n hn).1.ne', (hbounds n hn).2⟩
  refine ⟨⟨fun hzero => (hbytes 0 hzero).1 rfl, ?_⟩, hbytes, ?_⟩
  · rw [List.isChain_map]
    refine hchain.imp_of_mem_imp fun a b ha hb h => ?_
    rwa [overlong_iff, hbyte a ha, hbyte b hb]
  · intro b hb
    rw [List.getLast?_map] at hb
    obtain ⟨n, hn, rfl⟩ := Option.map_eq_some_iff.mp hb
    rw [hbyte n (List.mem_of_getLast? hn)]
    exact hlast n hn

theorem form_encodeUnit (u : UInt16) : Form (encodeUnit u) := by
  have hu := u.toNat_lt
  by_cases hone : 0 < u.toNat ∧ u.toNat < 0x80
  · rw [encodeUnit_one hone.1 hone.2]
    exact form_of_numbers [u.toNat] (by simp; omega) (by simp) (by simp; omega)
  · by_cases htwo : u.toNat < 0x800
    · rw [encodeUnit_two (by omega) htwo]
      exact form_of_numbers [u.toNat / 64 + 192, u.toNat % 64 + 128] (by simp; omega) (by simp; omega)
        (by simp; omega)
    · rw [encodeUnit_three (by omega), threeBytes_eq]
      exact form_of_numbers [u.toNat / 4096 + 224, u.toNat / 64 % 64 + 128, u.toNat % 64 + 128]
        (by simp; omega) (by simp; omega) (by simp; omega)

/-- Whatever the units are, their forms are bytes below 0xF0 other than zero. -/
theorem bounds_flatMap {us : List UInt16} {b : UInt8} (h : b ∈ us.flatMap encodeUnit) :
    b ≠ 0 ∧ b < 0xF0 := by
  obtain ⟨u, -, hb⟩ := List.mem_flatMap.mp h
  exact (form_encodeUnit u).bounds b hb

theorem canonical_flatMap (us : List UInt16) : Canonical (us.flatMap encodeUnit) := by
  induction us with
  | nil => exact canonical_nil
  | cons u us ih =>
    exact (form_encodeUnit u).toCanonical.append ih (form_encodeUnit u).last

/-! ## Reading canonical bytes -/

theorem not_overlong_of_cons {a b : UInt8} {bs : Bytes} (h : Canonical (a :: b :: bs)) :
    ¬ (a.toNat = 0xC0 ∧ b.toNat ≠ 0x80 ∨ a.toNat = 0xC1 ∨ a.toNat = 0xE0 ∧ b.toNat < 0xA0) := by
  rw [← overlong_iff]
  exact (List.isChain_cons_cons.mp h.no_overlong).1

theorem Canonical.tail {a : UInt8} {bs : Bytes} (h : Canonical (a :: bs)) : Canonical bs :=
  ⟨fun hzero => h.no_zero (List.mem_cons_of_mem _ hzero), h.no_overlong.tail⟩

theorem toNat_unit {n : Nat} (h : n < 0x10000) : (UInt16.ofNat n).toNat = n :=
  UInt16.toNat_ofNat_of_lt' h

theorem tail_eq {b : UInt8} (h : 0x80 ≤ b.toNat ∧ b.toNat < 0xC0) : tail b = b.toNat - 0x80 := by
  unfold tail
  omega

/-- Canonical bytes are the shortest forms of the units they spell. -/
theorem flatMap_of_units {pos : Nat} {bs : Bytes} {us : List UInt16} (h : units pos bs = .ok us)
    (hbs : Canonical bs) : us.flatMap encodeUnit = bs := by
  fun_induction units pos bs generalizing us with
  | case1 =>
    cases h
    rfl
  | case2 pos a rest hone ih =>
    obtain ⟨vs, hvs, rfl⟩ := map_eq_ok h
    have ha : a.toNat < 0x80 := hone
    have hpos : 0 < a.toNat := by
      refine Nat.pos_of_ne_zero fun hzero => hbs.no_zero ?_
      rw [show a = 0 from UInt8.toNat_inj.mp hzero]
      exact List.mem_cons_self
    have hunit : a.toUInt16.toNat = a.toNat := UInt8.toNat_toUInt16 a
    rw [List.flatMap_cons, ih hvs hbs.tail, encodeUnit_one (by omega) (by omega), byte_eq hunit]
    rfl
  | case3 pos a hone htwo b rest htail ih =>
    obtain ⟨vs, hvs, rfl⟩ := map_eq_ok h
    rw [leadsTwo_iff] at htwo
    rw [isTail_iff] at htail
    have hshort := not_overlong_of_cons hbs
    have hb := tail_eq htail
    have hunit := toNat_unit (n := a.toNat % 32 * 64 + tail b) (by omega)
    rw [List.flatMap_cons, ih hvs hbs.tail.tail, encodeUnit_two (by omega) (by omega),
      byte_eq (a := a) (by omega), byte_eq (a := b) (by omega)]
    rfl
  | case6 pos a hone htwo hthree b c rest htail ih =>
    obtain ⟨vs, hvs, rfl⟩ := map_eq_ok h
    rw [leadsThree_iff] at hthree
    rw [Bool.and_eq_true, isTail_iff, isTail_iff] at htail
    have hshort := not_overlong_of_cons hbs
    have hb := tail_eq htail.1
    have hc := tail_eq htail.2
    have hunit := toNat_unit (n := a.toNat % 16 * 4096 + tail b * 64 + tail c) (by omega)
    rw [List.flatMap_cons, ih hvs hbs.tail.tail.tail, encodeUnit_three (by omega), threeBytes_eq,
      byte_eq (a := a) (by omega), byte_eq (a := b) (by omega), byte_eq (a := c) (by omega)]
    rfl
  | _ => cases h

/-! ## Any text -/

/-- The units of a character. -/
def unitsOf (c : Char) : List UInt16 :=
  if c.toNat < 0x10000 then [UInt16.ofNat c.toNat]
  else [UInt16.ofNat (0xD800 + (c.toNat - 0x10000) / 0x400),
    UInt16.ofNat (0xDC00 + (c.toNat - 0x10000) % 0x400)]

theorem encodeScalar_eq (c : Char) : encodeScalar c = (unitsOf c).flatMap encodeUnit := by
  unfold encodeScalar unitsOf
  dsimp only
  split <;> simp

/-- The form of a lone surrogate is that of a unit. -/
theorem loneSurrogate?_eq_some {bs form rest : Bytes} (h : loneSurrogate? bs = some (form, rest)) :
    ∃ u, form = encodeUnit u := by
  unfold loneSurrogate? at h
  split at h
  · next a b c rest' =>
    rw [Option.ite_none_right_eq_some] at h
    obtain ⟨⟨rfl, hle, hlt, htail⟩, hform⟩ := h
    cases hform
    rw [isTail_iff] at htail
    simp only [UInt8.le_iff_toNat_le, UInt8.reduceToNat] at hle hlt
    have hunit := toNat_unit (n := 0xD000 + (b.toNat - 0x80) * 64 + (c.toNat - 0x80)) (by omega)
    refine ⟨.ofNat (0xD000 + (b.toNat - 0x80) * 64 + (c.toNat - 0x80)), ?_⟩
    rw [encodeUnit_three (by omega), threeBytes_eq, byte_eq (a := 0xED) ?_,
      byte_eq (a := b) ?_, byte_eq (a := c) ?_]
    · omega
    · omega
    · change _ = 0xED
      omega
  · cases h

/-- Whatever a text holds, its encoding spells units, each in its shortest form. -/
theorem exists_units (bs : Bytes) : ∃ us : List UInt16, encodeBytes bs = us.flatMap encodeUnit := by
  fun_induction encodeBytes bs with
  | case1 => exact ⟨[], rfl⟩
  | case2 a bs form rest hlone ih =>
    obtain ⟨us, hus⟩ := ih
    obtain ⟨u, rfl⟩ := loneSurrogate?_eq_some hlone
    exact ⟨u :: us, by rw [hus, List.flatMap_cons]⟩
  | case3 a bs hlone c ih =>
    obtain ⟨us, hus⟩ := ih
    exact ⟨unitsOf c ++ us, by rw [hus, List.flatMap_append, encodeScalar_eq]⟩

/-! ## Decoded text -/

/-- What decoded text consists of: characters, and surrogates that have no partner. -/
inductive Piece where
  | char (c : Char)
  | lone (u : UInt16) (surrogate : (isHigh u || isLow u) = true)

namespace Piece

/-- The piece in text. A surrogate has the three bytes that its number would have in UTF-8. -/
def bytes : Piece → Bytes
  | char c => String.utf8EncodeChar c
  | lone u _ => threeBytes u

/-- The piece as units. -/
def units : Piece → List UInt16
  | char c => unitsOf c
  | lone u _ => [u]

/-- A high surrogate. -/
def IsHigh : Piece → Prop
  | char _ => False
  | lone u _ => isHigh u = true

/-- A low surrogate. -/
def IsLow : Piece → Prop
  | char _ => False
  | lone u _ => isLow u = true

end Piece

/-- Text as it is decoded: nowhere stands a low surrogate right behind a high one. -/
def Kept (t : Text) : Prop :=
  ∃ ps : List Piece, t.bytes = ps.flatMap Piece.bytes ∧ ps.IsChain fun p q => ¬ (p.IsHigh ∧ q.IsLow)

theorem not_isLow_of_isHigh {u : UInt16} (h : isHigh u = true) : isLow u = false := by
  simp only [isHigh, isLow, Bool.and_eq_true, decide_eq_true_eq, Bool.and_eq_false_iff,
    decide_eq_false_iff_not, UInt16.le_iff_toNat_le, UInt16.lt_iff_toNat_lt,
    UInt16.reduceToNat] at h ⊢
  omega

/-- A character below 0x10000 is one unit, which is no surrogate. -/
theorem unitsOf_small {c : Char} (h : c.toNat < 0x10000) :
    unitsOf c = [UInt16.ofNat c.toNat] ∧
      ¬ (isHigh (.ofNat c.toNat) || isLow (.ofNat c.toNat)) = true ∧
      Char.ofNat (UInt16.ofNat c.toNat).toNat = c := by
  have hc := toNat_char c
  have hunit := toNat_unit h
  refine ⟨if_pos h, ?_, ?_⟩
  · rw [isSurrogate_iff]
    omega
  · rw [hunit, Char.ofNat_toNat]

/-- Any other character is a high surrogate and a low one. -/
theorem unitsOf_large {c : Char} (h : 0x10000 ≤ c.toNat) :
    ∃ u v, unitsOf c = [u, v] ∧ isHigh u = true ∧ isLow v = true ∧ pair u v = c := by
  have hc := toNat_char c
  have hhigh := toNat_unit (n := 0xD800 + (c.toNat - 0x10000) / 0x400) (by omega)
  have hlow := toNat_unit (n := 0xDC00 + (c.toNat - 0x10000) % 0x400) (by omega)
  refine ⟨_, _, if_neg (by omega), ?_, ?_, ?_⟩
  · simp only [isHigh, Bool.and_eq_true, decide_eq_true_eq, UInt16.le_iff_toNat_le,
      UInt16.lt_iff_toNat_lt, UInt16.reduceToNat, hhigh]
    omega
  · simp only [isLow, Bool.and_eq_true, decide_eq_true_eq, UInt16.le_iff_toNat_le,
      UInt16.lt_iff_toNat_lt, UInt16.reduceToNat, hlow]
    omega
  · have hnumber : 0x10000 + (0xD800 + (c.toNat - 0x10000) / 0x400 - 0xD800) * 0x400 +
        (0xDC00 + (c.toNat - 0x10000) % 0x400 - 0xDC00) = c.toNat := by omega
    rw [pair, hhigh, hlow, hnumber, Char.ofNat_toNat]

/-- A surrogate keeps its three bytes unless it is high and a low one follows. -/
theorem textOfUnits_lone {u : UInt16} (h : (isHigh u || isLow u) = true) {us : List UInt16}
    (hnext : ∀ v ∈ us.head?, ¬ (isHigh u = true ∧ isLow v = true)) :
    textOfUnits (u :: us) = threeBytes u ++ textOfUnits us := by
  cases us with
  | nil => simp only [textOfUnits, if_pos h, List.append_nil]
  | cons v us =>
    have hpair : ¬ (isHigh u && isLow v) = true := by
      simpa using hnext v rfl
    rw [textOfUnits, if_neg hpair, if_pos h]

/-- The first unit is a low surrogate only where the first piece is. -/
theorem head?_units {ps : List Piece} {v : UInt16} (h : v ∈ (ps.flatMap Piece.units).head?)
    (hlow : isLow v = true) : ∃ p ∈ ps.head?, p.IsLow := by
  cases ps with
  | nil => cases h
  | cons p ps =>
    refine ⟨p, rfl, ?_⟩
    cases p with
    | lone u hu =>
      cases h
      exact hlow
    | char c =>
      by_cases hc : c.toNat < 0x10000
      · obtain ⟨hunits, hplain, -⟩ := unitsOf_small hc
        rw [List.flatMap_cons, Piece.units, hunits] at h
        cases h
        simp [hlow] at hplain
      · obtain ⟨u, w, hunits, hu, -, -⟩ := unitsOf_large (Nat.le_of_not_lt hc)
        rw [List.flatMap_cons, Piece.units, hunits] at h
        cases h
        rw [not_isLow_of_isHigh hu] at hlow
        cases hlow

/-- The units of pieces are read as these pieces. -/
theorem textOfUnits_pieces {ps : List Piece} (h : ps.IsChain fun p q => ¬ (p.IsHigh ∧ q.IsLow)) :
    textOfUnits (ps.flatMap Piece.units) = ps.flatMap Piece.bytes := by
  induction ps with
  | nil => rfl
  | cons p ps ih =>
    rw [List.flatMap_cons, List.flatMap_cons, ← ih h.tail]
    cases p with
    | lone u hu =>
      refine textOfUnits_lone hu fun v hv hpair => ?_
      obtain ⟨q, hq, hlow⟩ := head?_units hv hpair.2
      exact (List.isChain_cons.mp h).1 q hq ⟨hpair.1, hlow⟩
    | char c =>
      by_cases hc : c.toNat < 0x10000
      · obtain ⟨hunits, hplain, hchar⟩ := unitsOf_small hc
        rw [Piece.units, hunits, List.singleton_append, textOfUnits_unit hplain, hchar]
        rfl
      · obtain ⟨u, v, hunits, hu, hv, hpair⟩ := unitsOf_large (Nat.le_of_not_lt hc)
        rw [Piece.units, hunits, List.cons_append, List.singleton_append, textOfUnits,
          if_pos (Bool.and_eq_true_iff.mpr ⟨hu, hv⟩), hpair]
        rfl

/-- Units are always read as pieces, of which the first is a low surrogate only if the first unit
is. -/
theorem exists_pieces (us : List UInt16) :
    ∃ ps : List Piece, textOfUnits us = ps.flatMap Piece.bytes ∧
      (ps.IsChain fun p q => ¬ (p.IsHigh ∧ q.IsLow)) ∧
      ∀ p ∈ ps.head?, p.IsLow → ∃ v ∈ us.head?, isLow v = true := by
  fun_induction textOfUnits us with
  | case1 =>
    refine ⟨[], rfl, .nil, ?_⟩
    rintro p hp
    cases hp
  | case2 u hlone =>
    refine ⟨[.lone u hlone], (List.append_nil _).symm, .singleton _, ?_⟩
    rintro p hp hlow
    cases hp
    exact ⟨u, rfl, hlow⟩
  | case3 u hunit =>
    refine ⟨[.char (Char.ofNat u.toNat)], (List.append_nil _).symm, .singleton _, ?_⟩
    rintro p hp hlow
    cases hp
    exact hlow.elim
  | case4 u v rest hpair ih =>
    obtain ⟨ps, hps, hchain, -⟩ := ih
    refine ⟨.char (pair u v) :: ps, by rw [hps, List.flatMap_cons, Piece.bytes], ?_, ?_⟩
    · exact List.isChain_cons.mpr ⟨fun q _ h => h.1, hchain⟩
    · rintro p hp hlow
      cases hp
      exact hlow.elim
  | case5 u v rest hpair hlone ih =>
    obtain ⟨ps, hps, hchain, hhead⟩ := ih
    refine ⟨.lone u hlone :: ps, by rw [hps, List.flatMap_cons, Piece.bytes], ?_, ?_⟩
    · refine List.isChain_cons.mpr ⟨fun q hq h => hpair ?_, hchain⟩
      obtain ⟨w, hw, hlow⟩ := hhead q hq h.2
      cases hw
      exact Bool.and_eq_true_iff.mpr ⟨h.1, hlow⟩
    · rintro p hp hlow
      cases hp
      exact ⟨u, rfl, hlow⟩
  | case6 u v rest hpair hunit ih =>
    obtain ⟨ps, hps, hchain, -⟩ := ih
    refine ⟨.char (Char.ofNat u.toNat) :: ps, by rw [hps, List.flatMap_cons, Piece.bytes], ?_, ?_⟩
    · exact List.isChain_cons.mpr ⟨fun q _ h => h.1, hchain⟩
    · rintro p hp hlow
      cases hp
      exact hlow.elim

/-- Kept texts are those of units. -/
theorem kept_iff (t : Text) : Kept t ↔ ∃ us, t = ⟨textOfUnits us⟩ := by
  constructor
  · rintro ⟨ps, hps, hchain⟩
    exact ⟨ps.flatMap Piece.units, by rw [textOfUnits_pieces hchain, ← hps]⟩
  · rintro ⟨us, rfl⟩
    obtain ⟨ps, hps, hchain, -⟩ := exists_pieces us
    exact ⟨ps, hps, hchain⟩

/-! ## Round trips -/

/-- Any text has an encoding, without zero and without bytes that lead four, and what it decodes to
has the same encoding. What bytes decode to is kept text, which decodes from its own encoding, and
that encoding is the bytes themselves exactly if they are canonical. Every kept text is decoded from
its own encoding. Plain bytes are treated apart, with the same result. -/
theorem round_trips :
    (∀ s : Text, ∃ t, decode (encode s) = .ok t ∧ encode t = encode s ∧
      ∀ b ∈ encode s, b ≠ 0 ∧ b < 0xF0) ∧
    (∀ bs t, decode bs = .ok t →
      decode (encode t) = .ok t ∧ Kept t ∧ (encode t = bs ↔ Canonical bs)) ∧
    (∀ t, Kept t → decode (encode t) = .ok t) ∧
    ∀ bs, decode bs = decodeUnits bs := by
  refine ⟨fun s => ?_, fun bs t h => ⟨decode_encode h, ?_, ?_⟩, fun t ht => ?_,
    decode_eq_decodeUnits⟩
  · obtain ⟨us, hus⟩ := exists_units s.bytes
    have hencode : encode s = us.flatMap encodeUnit := hus
    refine ⟨⟨textOfUnits us⟩, ?_, ?_, fun b hb => bounds_flatMap (hencode ▸ hb)⟩
    · rw [hencode, decode_flatMap_encodeUnit]
    · rw [hencode, encode, encodeBytes_textOfUnits]
  · obtain ⟨us, -, ht⟩ := decode_eq_ok h
    exact (kept_iff t).mpr ⟨us, ht⟩
  · obtain ⟨us, hus, rfl⟩ := decode_eq_ok h
    rw [encode, encodeBytes_textOfUnits]
    exact ⟨fun hbs => hbs ▸ canonical_flatMap us, flatMap_of_units hus⟩
  · obtain ⟨us, rfl⟩ := (kept_iff t).mp ht
    rw [encode, encodeBytes_textOfUnits, decode_flatMap_encodeUnit]

/-- Of two high surrogates in front of a low one only the second is part of a character, which takes
four bytes in text and six in its encoding. -/
theorem round_trips_surrogates :
    decode [0xED, 0xA0, 0x80, 0xED, 0xA0, 0x80, 0xED, 0xB0, 0x80] =
        .ok ⟨[0xED, 0xA0, 0x80, 0xF0, 0x90, 0x80, 0x80]⟩ ∧
      Kept ⟨[0xED, 0xA0, 0x80, 0xF0, 0x90, 0x80, 0x80]⟩ ∧
      Canonical [0xED, 0xA0, 0x80, 0xED, 0xA0, 0x80, 0xED, 0xB0, 0x80] := by
  have h : decode [0xED, 0xA0, 0x80, 0xED, 0xA0, 0x80, 0xED, 0xB0, 0x80] =
      .ok ⟨[0xED, 0xA0, 0x80, 0xF0, 0x90, 0x80, 0x80]⟩ :=
    ok_of_toOption (by decide +kernel)
  obtain ⟨-, hdecoded, -⟩ := round_trips
  obtain ⟨-, hkept, hcanonical⟩ := hdecoded _ _ h
  exact ⟨h, hkept, hcanonical.mp (by decide +kernel)⟩

end ClassWasm.ModifiedUtf8
