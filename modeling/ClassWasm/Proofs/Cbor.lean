/-
  What is written as a data item is read back as that item. `item?_encode`: within the limits of
  reading, an item is taken off the front of whatever starts with its bytes. `encode_inj`: no item
  starts with the bytes of another one, whatever its size, so bytes belong to one item only.
-/
import ClassWasm.Cbor
import ClassWasm.Proofs.Cursor

namespace ClassWasm.Cbor

/-! ## Heads -/

theorem number?_append (bs rest : Bytes) :
    number? bs.length (bs ++ rest) = some (Bytes.big bs, rest) := by
  unfold number?
  simp [Bytes.big]

section

variable {major : UInt8} (low : UInt8)

/-- The first byte of a head. -/
theorem toNat_first (hmajor : major.toNat < 8) (hlow : low.toNat < 32) :
    (major <<< 5 ||| low).toNat / 32 = major.toNat ∧
      (major <<< 5 ||| low).toNat % 32 = low.toNat := by
  have hfits : major.toNat * 2 ^ 5 < 2 ^ 8 := by omega
  have hfirst : (major <<< 5 ||| low).toNat = major.toNat * 2 ^ 5 + low.toNat :=
    Bytes.shiftLeft_or hlow hfits
  omega

theorem head?_first (hmajor : major.toNat < 8) (hlow : low.toNat < 24) (bs : Bytes) :
    head? ((major <<< 5 ||| low) :: bs) = some (⟨major.toNat, low.toNat, low.toNat⟩, bs) := by
  obtain ⟨hhigh, hinfo⟩ := toNat_first low hmajor (Nat.lt_trans hlow (by decide))
  unfold head?
  simp only [hhigh, hinfo]
  rw [if_pos hlow]

/-- An argument in the bytes behind the first one, as many as the first one says. -/
theorem head?_wide (hmajor : major.toNat < 8) (bs : Bytes)
    (hwidth : (low.toNat, bs.length) ∈ [(24, 1), (25, 2), (26, 4), (27, 8)]) (rest : Bytes) :
    head? ((major <<< 5 ||| low) :: bs ++ rest) =
      some (⟨major.toNat, low.toNat, Bytes.big bs⟩, rest) := by
  have hnumber := number?_append bs rest
  simp only [List.mem_cons, Prod.mk.injEq, List.not_mem_nil, or_false] at hwidth
  obtain ⟨hhigh, hinfo⟩ := toNat_first low hmajor (by omega)
  rw [List.cons_append]
  unfold head?
  simp only [hhigh, hinfo]
  rcases hwidth with ⟨hlow, hlen⟩ | ⟨hlow, hlen⟩ | ⟨hlow, hlen⟩ | ⟨hlow, hlen⟩ <;>
  · rw [hlen] at hnumber
    simp [hlow, hnumber]

/-- A head is read back. Small arguments stand in the first byte, and a head that is written never
says that the length is unknown. -/
theorem head?_head (major : UInt8) {n : Nat} (hmajor : major.toNat < 8) (hn : n < 2 ^ 64)
    (rest : Bytes) :
    ∃ info, info ≠ 31 ∧ (n < 24 → info = n) ∧
      head? (head major n ++ rest) = some (⟨major.toNat, info, n⟩, rest) := by
  unfold head
  split
  · next hsmall =>
    have hlow : (UInt8.ofNat n).toNat = n :=
      UInt8.toNat_ofNat_of_lt' (Nat.lt_trans hsmall (by decide))
    have hfirst := head?_first (UInt8.ofNat n) hmajor (by rwa [hlow]) rest
    rw [hlow] at hfirst
    exact ⟨n, by omega, fun _ => rfl, hfirst⟩
  · split
    · next hlt =>
      have hwide := head?_wide 24 hmajor [UInt8.ofNat n] (by simp) rest
      have hbig : Bytes.big [UInt8.ofNat n] = n := by
        simp [Bytes.big, UInt8.toNat_ofNat_of_lt' (show n < UInt8.size from hlt)]
      rw [hbig] at hwide
      exact ⟨24, by decide, by omega, hwide⟩
    · split
      · next hlt =>
        have hwide := head?_wide 25 hmajor (Bytes.be16 (UInt16.ofNat n))
          (by simp [Bytes.be16]) rest
        rw [Bytes.big_be16, UInt16.toNat_ofNat_of_lt' hlt] at hwide
        exact ⟨25, by decide, by omega, hwide⟩
      · split
        · next hlt =>
          have hwide := head?_wide 26 hmajor (Bytes.be32 (UInt32.ofNat n))
            (by simp [Bytes.be32]) rest
          rw [Bytes.big_be32, UInt32.toNat_ofNat_of_lt' hlt] at hwide
          exact ⟨26, by decide, by omega, hwide⟩
        · have hwide := head?_wide 27 hmajor (Bytes.be64 (UInt64.ofNat n))
            (by simp [Bytes.be64, Bytes.be32]) rest
          rw [Bytes.big_be64, UInt64.toNat_ofNat_of_lt' hn] at hwide
          exact ⟨27, by decide, by omega, hwide⟩

theorem length_head_pos (major : UInt8) (n : Nat) : 0 < (head major n).length := by
  unfold head
  dsimp only
  repeat' split
  all_goals simp

end

/-! ## Items -/

/-- Items without tags and fractions that containers of up to `limit` items hold, `room` of them
inside each other, with texts in one piece. -/
inductive Storable (limit : Nat) : (room : Nat) → Cbor → Prop where
  | unsigned {room n : Nat} (h : n < 2 ^ 64) : Storable limit room (.unsigned n)
  | negative {room n : Nat} (h : n < 2 ^ 64) : Storable limit room (.negative n)
  | bytes {room : Nat} {bs : Bytes} (h : bs.length < 2 ^ 64) : Storable limit room (.bytes bs)
  | text {room : Nat} {piece : Bytes} (h : piece.length < 2 ^ 64) :
    Storable limit room (.text [piece])
  | array {room : Nat} {items : List Cbor} (h : items.length ≤ limit)
    (hitems : ∀ i ∈ items, Storable limit room i) : Storable limit (room + 1) (.array items)
  | map {room : Nat} {pairs : List (Cbor × Cbor)} (h : pairs.length ≤ limit)
    (hkeys : ∀ p ∈ pairs, Storable limit room p.1)
    (hvalues : ∀ p ∈ pairs, Storable limit room p.2) : Storable limit (room + 1) (.map pairs)
  | simple {room n : Nat} (h : n < 24) : Storable limit room (.simple n)

theorem encodeAll_eq (items : List Cbor) : encodeAll items = items.flatMap encode := by
  induction items with
  | nil => rfl
  | cons i is ih => rw [encodeAll, ih, List.flatMap_cons]

/-- The bytes of a pair. -/
def encodePair (p : Cbor × Cbor) : Bytes := encode p.1 ++ encode p.2

theorem encodePairs_eq (pairs : List (Cbor × Cbor)) :
    encodePairs pairs = pairs.flatMap encodePair := by
  induction pairs with
  | nil => rfl
  | cons p ps ih => rw [encodePairs, ih, List.flatMap_cons, encodePair]

/-! ## Reading -/

/-- `one` takes the bytes of `a` off whatever starts with them. -/
def Takes {α : Type} (one : Bytes → Option (α × Bytes)) (bs : Bytes) (a : α) : Prop :=
  ∀ rest, one (bs ++ rest) = some (a, rest)

theorem takes_times {α : Type} {one : Bytes → Option (α × Bytes)} {write : α → Bytes} {as : List α}
    (h : ∀ a ∈ as, Takes one (write a) a) : Takes (times one as.length) (as.flatMap write) as := by
  induction as with
  | nil => exact fun _ => rfl
  | cons a as ih =>
    intro rest
    have hrest := ih (fun b hb => h b (List.mem_cons_of_mem a hb)) rest
    rw [List.flatMap_cons, List.append_assoc, List.length_cons, times, h a List.mem_cons_self]
    simp [hrest]

theorem takes_pair {one : Bytes → Option (Cbor × Bytes)} {p : Cbor × Cbor}
    (hkey : Takes one (encode p.1) p.1) (hvalue : Takes one (encode p.2) p.2) :
    Takes (pair? one) (encodePair p) p := by
  intro rest
  rw [encodePair, List.append_assoc, pair?, hkey]
  simp [hvalue rest]

theorem takes_chunk (bs : Bytes) : Takes (chunk? bs.length) bs bs := by
  intro rest
  unfold chunk?
  simp

/-- Contents of known length within the limit. -/
theorem takes_contents {α : Type} {one : Bytes → Option (α × Bytes)} {write : α → Bytes}
    {as : List α} {h : Head} (hinfo : h.info ≠ 31) (hcount : h.argument = as.length)
    (hlimit : as.length ≤ maxItems) (hone : ∀ a ∈ as, Takes one (write a) a) :
    Takes (contents? one h) (as.flatMap write) as := by
  intro rest
  unfold contents?
  rw [if_neg hinfo, hcount, if_neg (Nat.not_lt.mpr hlimit), takes_times hone rest]
  simp [hlimit]

/-- The items inside are read with one less of fuel, which the byte of the head pays for, and one
level deeper. -/
theorem item?_encode {room : Nat} {c : Cbor} (h : Storable maxItems room c) {fuel depth : Nat}
    (hfuel : (encode c).length ≤ fuel) (hdepth : depth + room ≤ maxDepth) :
    Takes (item? (fuel + 1) depth) (encode c) c := by
  intro rest
  induction h generalizing fuel depth rest with
  | unsigned hn =>
    obtain ⟨info, hinfo, -, hhead⟩ := head?_head 0 (by decide) hn rest
    rw [encode, item?, hhead]
    simp [hinfo]
  | negative hn =>
    obtain ⟨info, hinfo, -, hhead⟩ := head?_head 1 (by decide) hn rest
    rw [encode, item?, hhead]
    simp [hinfo]
  | @bytes _ bs hn =>
    obtain ⟨info, hinfo, -, hhead⟩ := head?_head 2 (by decide) hn (bs ++ rest)
    rw [encode, List.append_assoc, item?, hhead]
    simp [hinfo, pieces?, takes_chunk bs rest]
  | @text _ piece hn =>
    obtain ⟨info, hinfo, -, hhead⟩ := head?_head 3 (by decide) hn (piece ++ rest)
    rw [encode, List.flatten_singleton, List.append_assoc, item?, hhead]
    simp [hinfo, pieces?, takes_chunk piece rest]
  | @array room items hcount _ ih =>
    have hpos := length_head_pos 4 items.length
    rw [encode, List.length_append, encodeAll_eq] at hfuel
    obtain ⟨fuel, rfl⟩ : ∃ f, fuel = f + 1 := ⟨fuel - 1, by omega⟩
    have hitems : ∀ i ∈ items, Takes (item? (fuel + 1) (depth + 1)) (encode i) i := by
      intro i hi
      have hlen := length_le_flatMap (f := encode) hi
      exact ih i hi (by omega) (by omega)
    obtain ⟨info, hinfo, -, hhead⟩ := head?_head 4 (n := items.length) (by decide)
      (Nat.lt_of_le_of_lt hcount (by decide)) (items.flatMap encode ++ rest)
    have hcontents := takes_contents (h := ⟨4, info, items.length⟩) hinfo rfl hcount hitems rest
    rw [encode, encodeAll_eq, List.append_assoc, item?, hhead]
    simp [show ¬ maxDepth ≤ depth by omega, hcontents]
  | @map room pairs hcount _ _ ihkeys ihvalues =>
    have hpos := length_head_pos 5 pairs.length
    rw [encode, List.length_append, encodePairs_eq] at hfuel
    obtain ⟨fuel, rfl⟩ : ∃ f, fuel = f + 1 := ⟨fuel - 1, by omega⟩
    have hpairs : ∀ p ∈ pairs, Takes (pair? (item? (fuel + 1) (depth + 1))) (encodePair p) p := by
      intro p hp
      have hlen := length_le_flatMap (f := encodePair) hp
      rw [encodePair, List.length_append] at hlen
      exact takes_pair (ihkeys p hp (by omega) (by omega)) (ihvalues p hp (by omega) (by omega))
    obtain ⟨info, hinfo, -, hhead⟩ := head?_head 5 (n := pairs.length) (by decide)
      (Nat.lt_of_le_of_lt hcount (by decide)) (pairs.flatMap encodePair ++ rest)
    have hcontents := takes_contents (h := ⟨5, info, pairs.length⟩) hinfo rfl hcount hpairs rest
    rw [encode, encodePairs_eq, List.append_assoc, item?, hhead]
    simp [show ¬ maxDepth ≤ depth by omega, hcontents]
  | @simple _ n hn =>
    obtain ⟨info, -, hinfo, hhead⟩ := head?_head 7 (n := n) (by decide) (by omega) rest
    obtain rfl := hinfo hn
    rw [encode, item?, hhead]
    simp [simple?, hn]

/-- An item within the limits is what its bytes are. -/
theorem parse?_encode {c : Cbor} (h : Storable maxItems maxDepth c) :
    parse? (encode c) = some c := by
  have hitem := item?_encode h (Nat.le_refl _) (Nat.le_of_eq (Nat.zero_add _)) []
  rw [List.append_nil] at hitem
  unfold parse?
  rw [hitem]

/-! ## Bytes of one item only -/

/-- No other value with the property `P` starts with the bytes of `a`. -/
def Sole {α : Type} (write : α → Bytes) (P : α → Prop) (a : α) : Prop :=
  ∀ b, P b → ∀ r s, write a ++ r = write b ++ s → a = b ∧ r = s

theorem sole_flatMap {α : Type} {write : α → Bytes} {P : α → Prop} {as bs : List α}
    (ha : ∀ a ∈ as, Sole write P a) (hb : ∀ b ∈ bs, P b) (hlen : as.length = bs.length)
    {r s : Bytes} (h : as.flatMap write ++ r = bs.flatMap write ++ s) : as = bs ∧ r = s := by
  induction as generalizing bs with
  | nil =>
    cases bs with
    | nil => exact ⟨rfl, h⟩
    | cons b bs => cases hlen
  | cons a as ih =>
    cases bs with
    | nil => cases hlen
    | cons b bs =>
      rw [List.flatMap_cons, List.flatMap_cons, List.append_assoc, List.append_assoc] at h
      obtain ⟨rfl, hrest⟩ := ha a List.mem_cons_self b (hb b List.mem_cons_self) _ _ h
      obtain ⟨rfl, hrs⟩ := ih (fun c hc => ha c (List.mem_cons_of_mem a hc))
        (fun c hc => hb c (List.mem_cons_of_mem a hc)) (Nat.succ.inj hlen) hrest
      exact ⟨rfl, hrs⟩

theorem sole_pair {P : Cbor → Prop} {p : Cbor × Cbor} (hkey : Sole encode P p.1)
    (hvalue : Sole encode P p.2) : Sole encodePair (fun q => P q.1 ∧ P q.2) p := by
  rintro ⟨k, v⟩ ⟨hk, hv⟩ r s h
  rw [encodePair, encodePair, List.append_assoc, List.append_assoc] at h
  obtain ⟨rfl, hrest⟩ := hkey k hk _ _ h
  obtain ⟨rfl, hrs⟩ := hvalue v hv _ _ hrest
  exact ⟨rfl, hrs⟩

theorem head_inj {major major' : UInt8} {n n' : Nat} {r s : Bytes} (hmajor : major.toNat < 8)
    (hmajor' : major'.toNat < 8) (hn : n < 2 ^ 64) (hn' : n' < 2 ^ 64)
    (h : head major n ++ r = head major' n' ++ s) : major = major' ∧ n = n' ∧ r = s := by
  obtain ⟨info, -, -, hhead⟩ := head?_head major hmajor hn r
  obtain ⟨info', -, -, hhead'⟩ := head?_head major' hmajor' hn' s
  rw [h, hhead', Option.some.injEq, Prod.mk.injEq, Head.mk.injEq, UInt8.toNat_inj] at hhead
  obtain ⟨⟨rfl, -, rfl⟩, rfl⟩ := hhead
  exact ⟨rfl, rfl, rfl⟩

/-- The major type in the head of an item. -/
def major : Cbor → UInt8
  | unsigned _ => 0
  | negative _ => 1
  | bytes _ => 2
  | text _ => 3
  | array _ => 4
  | map _ => 5
  | tag _ _ => 6
  | simple _ | float => 7

/-- The argument in the head of an item. -/
def argument : Cbor → Nat
  | unsigned n | negative n | simple n | tag n _ => n
  | bytes bs => bs.length
  | text pieces => pieces.flatten.length
  | array items => items.length
  | map pairs => pairs.length
  | float => 0

/-- What stands behind the head of an item. -/
def contents : Cbor → Bytes
  | bytes bs => bs
  | text pieces => pieces.flatten
  | array items => items.flatMap encode
  | map pairs => pairs.flatMap encodePair
  | tag _ content => encode content
  | unsigned _ | negative _ | simple _ | float => []

section

variable {limit room : Nat} {c : Cbor}

theorem Storable.encode_eq (h : Storable limit room c) :
    encode c = head c.major c.argument ++ c.contents := by
  cases h <;> simp [encode, major, argument, contents, encodeAll_eq, encodePairs_eq]

theorem Storable.argument_lt (h : Storable limit room c) (hlimit : limit < 2 ^ 64) :
    c.argument < 2 ^ 64 := by
  cases h with
  | unsigned h | negative h | bytes h => exact h
  | text h =>
    rw [argument, List.flatten_singleton]
    exact h
  | array h | map h => exact Nat.lt_of_le_of_lt h hlimit
  | simple h => exact Nat.lt_trans h (by decide)

theorem toNat_major_lt (c : Cbor) : c.major.toNat < 8 := by
  cases c <;> simp [major]

/-- Where bytes start with two items, the heads agree. -/
theorem Storable.heads {room' : Nat} {c' : Cbor} {r s : Bytes} (hc : Storable limit room c)
    (hc' : Storable limit room' c') (hlimit : limit < 2 ^ 64)
    (h : encode c ++ r = encode c' ++ s) :
    c.major = c'.major ∧ c.argument = c'.argument ∧ c.contents ++ r = c'.contents ++ s := by
  rw [hc.encode_eq, hc'.encode_eq, List.append_assoc, List.append_assoc] at h
  exact head_inj (toNat_major_lt c) (toNat_major_lt c') (hc.argument_lt hlimit)
    (hc'.argument_lt hlimit) h

/-- The heads agree, so both are of one kind and as long as each other, and then what the one holds
is what the other holds. -/
theorem encode_sole (hlimit : limit < 2 ^ 64) (hc : Storable limit room c) :
    ∀ {room'}, Sole encode (Storable limit room') c := by
  induction hc with
  | unsigned hn =>
    intro room' b hb r s h
    obtain ⟨hmajor, hargument, hrest⟩ :=
      (show Storable limit 0 _ from .unsigned hn).heads hb hlimit h
    cases hb with
    | unsigned => exact ⟨congrArg Cbor.unsigned hargument, hrest⟩
    | _ => simp [major] at hmajor
  | negative hn =>
    intro room' b hb r s h
    obtain ⟨hmajor, hargument, hrest⟩ :=
      (show Storable limit 0 _ from .negative hn).heads hb hlimit h
    cases hb with
    | negative => exact ⟨congrArg Cbor.negative hargument, hrest⟩
    | _ => simp [major] at hmajor
  | simple hn =>
    intro room' b hb r s h
    obtain ⟨hmajor, hargument, hrest⟩ :=
      (show Storable limit 0 _ from .simple hn).heads hb hlimit h
    cases hb with
    | simple => exact ⟨congrArg Cbor.simple hargument, hrest⟩
    | _ => simp [major] at hmajor
  | bytes hn =>
    intro room' b hb r s h
    obtain ⟨hmajor, hargument, hrest⟩ :=
      (show Storable limit 0 _ from .bytes hn).heads hb hlimit h
    cases hb with
    | bytes =>
      obtain ⟨rfl, rfl⟩ := List.append_inj hrest hargument
      exact ⟨rfl, rfl⟩
    | _ => simp [major] at hmajor
  | text hn =>
    intro room' b hb r s h
    obtain ⟨hmajor, hargument, hrest⟩ :=
      (show Storable limit 0 _ from .text hn).heads hb hlimit h
    cases hb with
    | text =>
      simp only [argument, contents, List.flatten_singleton] at hargument hrest
      obtain ⟨rfl, rfl⟩ := List.append_inj hrest hargument
      exact ⟨rfl, rfl⟩
    | _ => simp [major] at hmajor
  | array hcount hitems ih =>
    intro room' b hb r s h
    obtain ⟨hmajor, hargument, hrest⟩ := (Storable.array hcount hitems).heads hb hlimit h
    cases hb with
    | array _ hitems' =>
      obtain ⟨rfl, rfl⟩ := sole_flatMap (fun i hi => ih i hi) hitems' hargument hrest
      exact ⟨rfl, rfl⟩
    | _ => simp [major] at hmajor
  | map hcount hkeys hvalues ihkeys ihvalues =>
    intro room' b hb r s h
    obtain ⟨hmajor, hargument, hrest⟩ := (Storable.map hcount hkeys hvalues).heads hb hlimit h
    cases hb with
    | map _ hkeys' hvalues' =>
      obtain ⟨rfl, rfl⟩ := sole_flatMap
        (fun p hp => sole_pair (ihkeys p hp) (ihvalues p hp))
        (fun p hp => ⟨hkeys' p hp, hvalues' p hp⟩) hargument hrest
      exact ⟨rfl, rfl⟩
    | _ => simp [major] at hmajor

/-- Bytes belong to one item only. -/
theorem encode_inj {room' : Nat} {c' : Cbor} (hlimit : limit < 2 ^ 64) (hc : Storable limit room c)
    (hc' : Storable limit room' c') (h : encode c = encode c') : c = c' :=
  (encode_sole hlimit hc c' hc' [] [] (congrArg (· ++ []) h)).1

end

end ClassWasm.Cbor
