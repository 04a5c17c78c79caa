/-
  Numbers in groups of seven bits. `readGroups` reads them whatever their length is, so that it takes
  every form of a number that there is; signed and unsigned numbers differ only in what the last
  group stands for. What is written is read back with nothing that follows it taken along, no form of
  the same number is shorter, and words of 64 bits take ten bytes at most, words of 32 bits five
  (`shortest_form`). `signed_word` and `unsigned_word` give one step of the writing in machine words.
-/
import ClassWasm.Proofs.Text.Utf8
import ClassWasm.Proofs.Wasm.Binary

namespace ClassWasm.Wasm.Leb128

open Binary (Parse Reads toNat_ofNat_byte)
open Text.Utf8 (byte_eq)

/-! ## Reading -/

/-- The number that the groups at the front of some bytes make, the lowest first. `last` says what
the last group stands for, the one without the top bit. -/
def readGroups (last : Nat → Int) : Parse Int
  | [] => none
  | b :: bs =>
    if b.toNat < 128 then some (last b.toNat, bs)
    else do
      let (high, bs) ← readGroups last bs
      some (128 * high + (b.toNat - 128), bs)

/-- The last group of a signed number, whose highest bit is the sign. -/
def withSign (group : Nat) : Int := if group < 64 then group else group - 128

/-- The last group of an unsigned number. -/
def withoutSign (group : Nat) : Int := group

variable {last : Nat → Int}

theorem readGroups_last {n : Nat} (hn : n < 128) (bs : Bytes) :
    readGroups last (UInt8.ofNat n :: bs) = some (last n, bs) := by
  rw [readGroups, toNat_ofNat_byte (by omega), if_pos hn]

theorem readGroups_more {n : Nat} (hn : n < 128) {bs rest : Bytes} {high : Int}
    (h : readGroups last bs = some (high, rest)) :
    readGroups last (UInt8.ofNat (n + 128) :: bs) = some (128 * high + n, rest) := by
  rw [readGroups, toNat_ofNat_byte (by omega), if_neg (by omega), h]
  simp

theorem isLast_iff (group rest : Int) :
    isLast group rest = true ↔ rest = 0 ∧ group < 64 ∨ rest = -1 ∧ 64 ≤ group := by
  simp [isLast]

theorem reads_signed (v : Int) : Reads (readGroups withSign) (signed v) v := by
  intro bs
  induction v using signed.induct with
  | case1 v hlast =>
    rw [signed, if_pos hlast, List.singleton_append, readGroups_last (by omega)]
    rw [isLast_iff] at hlast
    have hv : withSign (v % 128).toNat = v := by
      unfold withSign
      split <;> omega
    rw [hv]
  | case2 v hlast ih =>
    rw [signed, if_neg hlast, List.cons_append, readGroups_more (by omega) ih]
    have hv : 128 * (v / 128) + ((v % 128).toNat : Int) = v := by omega
    rw [hv]

theorem reads_unsigned (n : Nat) : Reads (readGroups withoutSign) (unsigned n) n := by
  intro bs
  induction n using unsigned.induct with
  | case1 n hn =>
    rw [unsigned, if_pos hn, List.singleton_append, readGroups_last hn]
    rfl
  | case2 n hn ih =>
    rw [unsigned, if_neg hn, List.cons_append, readGroups_more (by omega) ih]
    have hn : 128 * ((n / 128 : Nat) : Int) + ((n % 128 : Nat) : Int) = n := by omega
    rw [hn]

/-! ## Length -/

/-- One group more than the rest at most, and one alone for what its sign extends to. -/
theorem length_signed_le (high group : Int) (hgroup : 0 ≤ group ∧ group < 128) :
    (signed (128 * high + group)).length ≤ (signed high).length + 1 := by
  have hhigh : (128 * high + group) / 128 = high := by omega
  rw [signed, hhigh]
  split <;> simp

theorem length_signed_small {v : Int} (hlow : -64 ≤ v) (hhigh : v < 64) : (signed v).length = 1 := by
  rw [signed, if_pos]
  · rfl
  · rw [isLast_iff]
    omega

/-- No form of a number is shorter than the one that is written. -/
theorem signed_shortest {v : Int} {bs rest : Bytes}
    (h : readGroups withSign bs = some (v, rest)) :
    (signed v).length + rest.length ≤ bs.length := by
  induction bs generalizing v with
  | nil => cases h
  | cons b bs ih =>
    have hb := b.toNat_lt
    rw [readGroups] at h
    split at h
    · cases h
      have hsmall : -64 ≤ withSign b.toNat ∧ withSign b.toNat < 64 := by
        unfold withSign
        split <;> omega
      rw [length_signed_small hsmall.1 hsmall.2, List.length_cons]
      omega
    · obtain ⟨⟨high, bs'⟩, hread, hpair⟩ := Option.bind_eq_some_iff.mp h
      cases hpair
      have hle := length_signed_le high (b.toNat - 128) (by omega)
      have := ih hread
      rw [List.length_cons]
      omega

theorem length_unsigned_le (n : Nat) : (unsigned n).length ≤ (unsigned (n / 128)).length + 1 := by
  rw [unsigned]
  split <;> simp

theorem unsigned_shortest {n : Nat} {bs rest : Bytes}
    (h : readGroups withoutSign bs = some ((n : Int), rest)) :
    (unsigned n).length + rest.length ≤ bs.length := by
  induction bs generalizing n with
  | nil => cases h
  | cons b bs ih =>
    have hb := b.toNat_lt
    rw [List.length_cons]
    rw [readGroups] at h
    split at h
    · obtain ⟨hn, rfl⟩ := Prod.mk.inj (Option.some.inj h)
      unfold withoutSign at hn
      have hone : (unsigned n).length = 1 := by
        rw [unsigned, if_pos (by omega)]
        rfl
      omega
    · obtain ⟨⟨high, bs'⟩, hread, hpair⟩ := Option.bind_eq_some_iff.mp h
      obtain ⟨hn, rfl⟩ := Prod.mk.inj (Option.some.inj hpair)
      have hhigh : high = ((n / 128 : Nat) : Int) := by omega
      rw [hhigh] at hread
      have hle := length_unsigned_le n
      have := ih hread
      omega

/-- Ten groups are enough for every word of 64 bits and five for one of 32, as `k` groups and one
more hold `7 * k + 7` bits. -/
theorem length_signed_bits (k : Nat) {v : Int} (hlow : -2 ^ (7 * k + 6) ≤ v)
    (hhigh : v < 2 ^ (7 * k + 6)) : (signed v).length ≤ k + 1 := by
  induction k generalizing v with
  | zero => rw [length_signed_small (by simpa using hlow) (by simpa using hhigh)]
  | succ k ih =>
    have hpow : (2 : Int) ^ (7 * (k + 1) + 6) = 128 * 2 ^ (7 * k + 6) := by
      rw [show 7 * (k + 1) + 6 = 7 * k + 6 + 7 by ring, pow_add]
      ring
    have hsplit : 128 * (v / 128) + v % 128 = v := by omega
    have hle := length_signed_le (v / 128) (v % 128) (by omega)
    rw [hsplit] at hle
    have := ih (v := v / 128) (by omega) (by omega)
    omega

theorem length_unsigned_bits (k : Nat) {n : Nat} (h : n < 2 ^ (7 * (k + 1))) :
    (unsigned n).length ≤ k + 1 := by
  induction k generalizing n with
  | zero =>
    rw [unsigned, if_pos (by simpa using h)]
    rfl
  | succ k ih =>
    have hpow : 2 ^ (7 * (k + 1 + 1)) = 128 * 2 ^ (7 * (k + 1)) := by
      rw [show 7 * (k + 1 + 1) = 7 * (k + 1) + 7 by ring, pow_add]
      ring
    have hle := length_unsigned_le n
    have := ih (n := n / 128) (by omega)
    omega

/-! ## Machine words -/

/-- The lowest seven bits of a byte, and the byte with its top bit set. -/
theorem group_byte (b : UInt8) :
    (b &&& 0x7F).toNat = b.toNat % 128 ∧ ((b &&& 0x7F) ||| 0x80).toNat = b.toNat % 128 + 128 ∧
      (b ||| 0x80).toNat = b.toNat % 128 + 128 ∧ (b &&& 0x7F &&& 0x40 = 0 ↔ b.toNat % 128 < 64) := by
  have h : ∀ n : Fin 256, (UInt8.ofFin n &&& 0x7F).toNat = n.val % 128 ∧
      ((UInt8.ofFin n &&& 0x7F) ||| 0x80).toNat = n.val % 128 + 128 ∧
      (UInt8.ofFin n ||| 0x80).toNat = n.val % 128 + 128 ∧
      (UInt8.ofFin n &&& 0x7F &&& 0x40 = 0 ↔ n.val % 128 < 64) := by
    decide +kernel
  exact h b.toFin

theorem toInt_shiftRight_seven (v : Int64) : (v >>> 7).toInt = v.toInt / 128 := by
  rw [← Int64.toInt_toBitVec, Int64.toBitVec_shiftRight]
  simp [Int.shiftRight_eq_div_pow]

theorem toInt_emod_byte (v : Int64) : (v.toUInt64.toUInt8.toNat : Int) = v.toInt % 256 := by
  have hword : v.toUInt64.toUInt8.toNat = v.toBitVec.toNat % 256 := UInt64.toNat_toUInt8 v.toUInt64
  have hint : v.toInt = if 2 * v.toBitVec.toNat < 2 ^ 64 then (v.toBitVec.toNat : Int)
      else v.toBitVec.toNat - (2 ^ 64 : Nat) := BitVec.toInt_eq_toNat_cond v.toBitVec
  rw [hword, hint]
  split <;> omega

/-- A step of the writing of a signed word: its lowest seven bits are the group, and it is shifted
down with its sign. -/
theorem signed_word (v : Int64) : signed v.toInt =
    let group := v.toUInt64.toUInt8 &&& 0x7F
    let rest := v >>> 7
    if rest = 0 ∧ group &&& 0x40 = 0 ∨ rest = -1 ∧ group &&& 0x40 ≠ 0 then [group]
    else (group ||| 0x80) :: signed rest.toInt := by
  have hbyte := toInt_emod_byte v
  obtain ⟨hgroup, hmore, -, hsign⟩ := group_byte v.toUInt64.toUInt8
  have hrest := toInt_shiftRight_seven v
  have hlast : isLast (v.toInt % 128) (v.toInt / 128) = true ↔
      v >>> 7 = 0 ∧ v.toUInt64.toUInt8 &&& 0x7F &&& 0x40 = 0 ∨
        v >>> 7 = -1 ∧ v.toUInt64.toUInt8 &&& 0x7F &&& 0x40 ≠ 0 := by
    rw [isLast_iff, ne_eq, hsign, ← Int64.toInt_inj, ← Int64.toInt_inj, hrest,
      show (0 : Int64).toInt = 0 by decide, show (-1 : Int64).toInt = -1 by decide]
    omega
  have hone : UInt8.ofNat (v.toInt % 128).toNat = v.toUInt64.toUInt8 &&& 0x7F := byte_eq (by omega)
  have htop : UInt8.ofNat ((v.toInt % 128).toNat + 128) = v.toUInt64.toUInt8 &&& 0x7F ||| 0x80 :=
    byte_eq (by omega)
  dsimp only
  rw [signed, hone, htop]
  by_cases h : isLast (v.toInt % 128) (v.toInt / 128) = true
  · rw [if_pos h, if_pos (hlast.mp h)]
  · rw [if_neg h, if_neg (mt hlast.mpr h), hrest]

/-- A step of the writing of an unsigned word. -/
theorem unsigned_word (n : UInt64) : unsigned n.toNat =
    if n < 0x80 then [n.toUInt8] else (n.toUInt8 ||| 0x80) :: unsigned (n >>> 7).toNat := by
  have hbyte : n.toUInt8.toNat = n.toNat % 256 := UInt64.toNat_toUInt8 n
  obtain ⟨-, -, hmore, -⟩ := group_byte n.toUInt8
  have hrest : (n >>> 7).toNat = n.toNat / 128 := by
    rw [UInt64.toNat_shiftRight]
    exact Nat.shiftRight_eq_div_pow n.toNat 7
  have hlast : n < 0x80 ↔ n.toNat < 128 := UInt64.lt_iff_toNat_lt
  have htop : UInt8.ofNat (n.toNat % 128 + 128) = n.toUInt8 ||| 0x80 := byte_eq (by omega)
  rw [unsigned, htop, hrest, if_congr hlast rfl rfl]
  split
  · rw [byte_eq (a := n.toUInt8) (by omega)]
  · rfl

/-! ## Shortest forms -/

/-- What is written behind some bytes leaves these as they are and is read back as the number, with
all that follows left. No other form of the number is shorter, ten bytes are enough for every word of
64 bits, and five for the numbers of 32 bits. -/
theorem shortest_form :
    (∀ (v : Int64) (before behind : Bytes),
      let written := before ++ signed v.toInt ++ behind
      written.take before.length = before ∧
        readGroups withSign (written.drop before.length) = some (v.toInt, behind) ∧
        Binary.readSigned 64 (written.drop before.length) = some (v.toInt, behind) ∧
        (∀ bs rest, readGroups withSign bs = some (v.toInt, rest) →
          (signed v.toInt).length + rest.length ≤ bs.length) ∧
        (signed v.toInt).length ≤ 10 ∧
        (-2 ^ 31 ≤ v.toInt ∧ v.toInt < 2 ^ 31 → (signed v.toInt).length ≤ 5)) ∧
    ∀ (n : UInt64) (before behind : Bytes),
      let written := before ++ unsigned n.toNat ++ behind
      written.take before.length = before ∧
        readGroups withoutSign (written.drop before.length) = some ((n.toNat : Int), behind) ∧
        Binary.readUnsigned 64 (written.drop before.length) = some (n.toNat, behind) ∧
        (∀ bs rest, readGroups withoutSign bs = some ((n.toNat : Int), rest) →
          (unsigned n.toNat).length + rest.length ≤ bs.length) ∧
        (unsigned n.toNat).length ≤ 10 ∧
        (n.toNat < 2 ^ 32 → (unsigned n.toNat).length ≤ 5) := by
  refine ⟨fun v before behind => ?_, fun n before behind => ?_⟩
  · have hlow := v.le_toInt
    have hhigh := v.toInt_lt
    dsimp only
    rw [List.append_assoc, List.take_left, List.drop_left]
    refine ⟨rfl, reads_signed v.toInt behind, ?_, fun bs rest => signed_shortest, ?_, fun h => ?_⟩
    · exact Binary.reads_signed 64 (by decide) hlow hhigh behind
    · exact length_signed_bits 9 (by omega) (by omega)
    · exact length_signed_bits 4 (by omega) (by omega)
  · have hlt := n.toNat_lt
    dsimp only
    rw [List.append_assoc, List.take_left, List.drop_left]
    refine ⟨rfl, reads_unsigned n.toNat behind, ?_, fun bs rest => unsigned_shortest, ?_,
      fun h => ?_⟩
    · exact Binary.reads_unsigned 64 hlt behind
    · exact length_unsigned_bits 9 (by omega)
    · exact length_unsigned_bits 4 (by omega)

/-- A form of -1 with one group more than it needs. -/
theorem shortest_form_padded :
    readGroups withSign [0xFF, 0x7F] = some (-1, []) ∧ (signed (-1)).length ≤ 2 := by
  have hread : readGroups withSign [0xFF, 0x7F] = some ((-1 : Int64).toInt, []) := by decide
  obtain ⟨-, -, -, hshortest, -⟩ := shortest_form.1 (-1) [] []
  exact ⟨hread, hshortest _ _ hread⟩

end ClassWasm.Wasm.Leb128
