/-
  Readers and the bytes they take. `Consumes r bs a` says that `r` takes exactly the bytes `bs` off
  whatever starts with them and makes `a` of them: numbers of fixed width are read back as they were
  written. `Ensures r P` says that whatever `r` gives has the property `P`, which tells what readers
  check.
-/
import ClassWasm.Cursor
import ClassWasm.Proofs.Results

namespace ClassWasm

namespace Bytes

theorem shiftLeft_or {a b k w : Nat} (hb : b < 2 ^ k) (ha : a * 2 ^ k < 2 ^ w) :
    a <<< k % 2 ^ w ||| b = a * 2 ^ k + b := by
  rw [Nat.shiftLeft_eq, Nat.mod_eq_of_lt ha, Nat.mul_comm, Nat.two_pow_add_eq_or_of_lt hb]

theorem toNat_of16 (a b : UInt8) : (of16 a b).toNat = a.toNat * 2 ^ 8 + b.toNat := by
  have ha : a.toNat * 2 ^ 8 < 2 ^ 16 := by have := a.toNat_lt; omega
  exact shiftLeft_or b.toNat_lt ha

theorem toNat_of32 (a b c d : UInt8) :
    (of32 a b c d).toNat = (of16 a b).toNat * 2 ^ 16 + (of16 c d).toNat := by
  have hab : (of16 a b).toNat * 2 ^ 16 < 2 ^ 32 := by have := (of16 a b).toNat_lt; omega
  exact shiftLeft_or (of16 c d).toNat_lt hab

theorem toNat_of64 (hi lo : UInt32) : (of64 hi lo).toNat = hi.toNat * 2 ^ 32 + lo.toNat := by
  have hhi : hi.toNat * 2 ^ 32 < 2 ^ 64 := by have := hi.toNat_lt; omega
  exact shiftLeft_or lo.toNat_lt hhi

theorem of16_be16 (n : UInt16) : of16 (n >>> 8).toUInt8 n.toUInt8 = n := by
  have hn := n.toNat_lt
  rw [← UInt16.toNat_inj, toNat_of16]
  simp [Nat.shiftRight_eq_div_pow]
  omega

theorem of32_be32 (n : UInt32) :
    of32 (n >>> 24).toUInt8 (n >>> 16).toUInt8 (n >>> 8).toUInt8 n.toUInt8 = n := by
  have hn := n.toNat_lt
  rw [← UInt32.toNat_inj, toNat_of32, toNat_of16, toNat_of16]
  simp [Nat.shiftRight_eq_div_pow]
  omega

theorem of64_be64 (n : UInt64) : of64 (n >>> 32).toUInt32 n.toUInt32 = n := by
  have hn := n.toNat_lt
  rw [← UInt64.toNat_inj, toNat_of64]
  simp [Nat.shiftRight_eq_div_pow]
  omega

/-- Bytes as a number, the highest first. -/
def big (bs : Bytes) : Nat := bs.foldl (fun v b => v * 256 + b.toNat) 0

theorem big_be16 (n : UInt16) : big (be16 n) = n.toNat := by
  have := n.toNat_lt
  simp [big, be16, Nat.shiftRight_eq_div_pow]
  omega

theorem big_be32 (n : UInt32) : big (be32 n) = n.toNat := by
  have := n.toNat_lt
  simp [big, be32, Nat.shiftRight_eq_div_pow]
  omega

theorem big_append (bs bs' : Bytes) : big (bs ++ bs') = big bs * 256 ^ bs'.length + big bs' := by
  induction bs' using List.reverseRecOn with
  | nil => simp [big]
  | append_singleton bs' b ih =>
    have hlast (bs : Bytes) : big (bs ++ [b]) = big bs * 256 + b.toNat := by simp [big]
    rw [← List.append_assoc, hlast, hlast, ih, List.length_append, List.length_singleton, pow_succ,
      Nat.add_mul, Nat.mul_assoc, Nat.add_assoc]

theorem big_be64 (n : UInt64) : big (be64 n) = n.toNat := by
  have hn := n.toNat_lt
  unfold be64
  rw [big_append, big_be32, big_be32]
  simp [be32, Nat.shiftRight_eq_div_pow]
  omega

end Bytes

namespace Reader

variable {ε ε' α β : Type}

/-! ## What readers take -/

section

variable {bs bs' : Bytes} {a : α}

/-- `r` takes `bs` off the front of the bytes for `a`. -/
def Consumes (r : Reader ε α) (bs : Bytes) (a : α) : Prop :=
  ∀ rest offset, r ⟨bs ++ rest, offset⟩ = .ok (a, ⟨rest, offset + bs.length⟩)

theorem consumes_pure (a : α) : Consumes (pure a : Reader ε α) [] a := fun _ _ => rfl

theorem Consumes.bind {r : Reader ε α} {f : α → Reader ε β} {b : β} (h : Consumes r bs a)
    (hf : Consumes (f a) bs' b) : Consumes (r >>= f) (bs ++ bs') b := by
  intro rest offset
  rw [List.append_assoc]
  refine bind_eq_ok.mpr ⟨_, h (bs' ++ rest) offset, ?_⟩
  rw [List.length_append, ← Nat.add_assoc]
  exact hf rest (offset + bs.length)

theorem Consumes.map {r : Reader ε α} (h : Consumes r bs a) (f : α → β) :
    Consumes (f <$> r) bs (f a) := by
  have hmap := h.bind (f := fun a => pure (f a)) (consumes_pure (f a))
  rwa [List.append_nil, ← map_eq_pure_bind] at hmap

theorem Consumes.mapError {r : Reader ε α} (h : Consumes r bs a) (f : ε → ε') :
    Consumes (r.mapError f) bs a := by
  intro rest offset
  unfold Reader.mapError
  rw [h rest offset]
  rfl

/-- What follows need not read anything. -/
theorem Consumes.andThen {r : Reader ε α} {f : α → Reader ε β} {b : β} (h : Consumes r bs a)
    (hf : Consumes (f a) [] b) : Consumes (r >>= f) bs b := by
  have hbind := h.bind hf
  rwa [List.append_nil] at hbind

theorem Consumes.listFrom {γ : Type} {r : Nat → Reader ε α} {write : γ → Bytes} {cs : List γ}
    {as : List α} (h : List.Forall₂ (fun c a => ∀ i, Consumes (r i) (write c) a) cs as) (i : Nat) :
    Consumes (listFrom r i cs.length) (cs.flatMap write) as := by
  induction h generalizing i with
  | nil => exact consumes_pure []
  | cons hc _ ih => exact (hc i).bind ((ih (i + 1)).map _)

theorem toNat_count {n : Nat} (h : n ≤ 65535) : (UInt16.ofNat n).toNat = n := by
  rw [UInt16.toNat_ofNat', Nat.mod_eq_of_lt (Nat.lt_succ_of_le h)]

/-- A count in 16 bits and so many items. -/
theorem Consumes.counted {γ : Type} {r : Nat → Reader ε α} {write : γ → Bytes} {cs : List γ}
    {as : List α} {count : Reader ε UInt16} (hcount : ∀ n, Consumes count (Bytes.be16 n) n)
    (hlength : cs.length ≤ 65535)
    (h : List.Forall₂ (fun c a => ∀ i, Consumes (r i) (write c) a) cs as) :
    Consumes (do let n ← count; list n.toNat r)
      (Bytes.be16 (UInt16.ofNat cs.length) ++ cs.flatMap write) as := by
  refine (hcount _).bind ?_
  rw [toNat_count hlength]
  exact Consumes.listFrom h 0

theorem Consumes.countedBind {r : Nat → Reader ε α} {count : Reader ε UInt16}
    {f : List α → Reader ε β} {as : List α} {b : β}
    (h : Consumes (do let n ← count; list n.toNat r) bs as) (hf : Consumes (f as) bs' b) :
    Consumes (do let n ← count; let as ← list n.toNat r; f as) (bs ++ bs') b := by
  have hbind := h.bind hf
  rwa [bind_assoc] at hbind

end

/-! ## What readers ensure -/

section

variable {P : α → Prop} {Q : β → Prop}

/-- Where `r` succeeds, its value has the property `P`. -/
def Ensures (r : Reader ε α) (P : α → Prop) : Prop := ∀ c a c', r c = .ok (a, c') → P a

theorem ensures_pure {a : α} (h : P a) : Ensures (pure a : Reader ε α) P := by
  intro c a' c' hr
  cases hr
  exact h

theorem ensures_ite {p : Prop} [Decidable p] {r r' : Reader ε α} (h : Ensures r P)
    (h' : Ensures r' P) : Ensures (if p then r else r') P := by
  split
  · exact h
  · exact h'

theorem ensures_ofExcept (x : Except ε α) : Ensures (ofExcept x) fun a => x = .ok a := by
  intro c a c' hr
  obtain ⟨a', ha, hpair⟩ := map_eq_ok hr
  cases hpair
  exact ha

theorem Ensures.bind {r : Reader ε α} {f : α → Reader ε β} (h : Ensures r P)
    (hf : ∀ a, P a → Ensures (f a) Q) : Ensures (r >>= f) Q := by
  intro c b c' hr
  obtain ⟨⟨a, d⟩, hra, hr⟩ := bind_eq_ok.mp hr
  exact hf a (h c a d hra) d b c' hr

/-- What the last part of a reader ensures, all of it does. -/
theorem ensures_bind {r : Reader ε α} {f : α → Reader ε β} (hf : ∀ a, Ensures (f a) Q) :
    Ensures (r >>= f) Q :=
  Ensures.bind (P := fun _ => True) (fun _ _ _ _ => trivial) fun a _ => hf a

theorem ensures_map {r : Reader ε α} {f : α → β} (hf : ∀ a, Q (f a)) : Ensures (f <$> r) Q := by
  rw [map_eq_pure_bind]
  exact ensures_bind fun a => ensures_pure (hf a)

theorem Ensures.map {r : Reader ε α} {f : α → β} (h : Ensures r P) (hf : ∀ a, P a → Q (f a)) :
    Ensures (f <$> r) Q := by
  rw [map_eq_pure_bind]
  exact h.bind fun a ha => ensures_pure (hf a ha)

theorem Ensures.mapError {r : Reader ε α} (h : Ensures r P) (f : ε → ε') :
    Ensures (r.mapError f) P := by
  intro c a c' hr
  exact h c a c' (mapError_eq_ok hr)

theorem Ensures.listFrom {r : Nat → Reader ε α} (h : ∀ i, Ensures (r i) P) (i n : Nat) :
    Ensures (listFrom r i n) fun as => ∀ a ∈ as, P a := by
  induction n generalizing i with
  | zero => exact ensures_pure fun a ha => (List.not_mem_nil ha).elim
  | succ n ih =>
    unfold Reader.listFrom
    refine (h i).bind fun a ha => (ih (i + 1)).bind fun as has => ensures_pure fun b hb => ?_
    rcases List.mem_cons.mp hb with rfl | hb
    · exact ha
    · exact has b hb

end

end Reader

namespace Cursor

open Reader

theorem consumes_u8 (n : UInt8) : Consumes u8 [n] n := fun _ _ => rfl

theorem consumes_u16 (n : UInt16) : Consumes u16 (Bytes.be16 n) n := by
  intro rest offset
  change Except.ok (Bytes.of16 _ _, _) = _
  rw [Bytes.of16_be16]
  rfl

theorem consumes_u32 (n : UInt32) : Consumes u32 (Bytes.be32 n) n := by
  intro rest offset
  change Except.ok (Bytes.of32 _ _ _ _, _) = _
  rw [Bytes.of32_be32]
  rfl

theorem consumes_u64 (n : UInt64) : Consumes u64 (Bytes.be64 n) n := by
  intro rest offset
  change Except.ok (Bytes.of64 (Bytes.of32 _ _ _ _) (Bytes.of32 _ _ _ _), _) = _
  rw [Bytes.of32_be32, Bytes.of32_be32, Bytes.of64_be64]
  rfl

theorem consumes_i8 (n : Int8) : Consumes i8 [n.toUInt8] n := by
  have h := (consumes_u8 n.toUInt8).map UInt8.toInt8
  rwa [Int8.toInt8_toUInt8] at h

theorem consumes_i16 (n : Int16) : Consumes i16 (Bytes.be16 n.toUInt16) n := by
  have h := (consumes_u16 n.toUInt16).map UInt16.toInt16
  rwa [Int16.toInt16_toUInt16] at h

theorem consumes_i32 (n : Int32) : Consumes i32 (Bytes.be32 n.toUInt32) n := by
  have h := (consumes_u32 n.toUInt32).map UInt32.toInt32
  rwa [Int32.toInt32_toUInt32] at h

theorem consumes_i64 (n : Int64) : Consumes i64 (Bytes.be64 n.toUInt64) n := by
  have h := (consumes_u64 n.toUInt64).map UInt64.toInt64
  rwa [Int64.toInt64_toUInt64] at h

theorem consumes_take (bs : Bytes) : Consumes (take bs.length) bs bs := by
  intro rest offset
  simp [take]

end Cursor

end ClassWasm
