/-
  Values that a library stores. What is taken for granted of it are rules for one layer of a value
  at a time, `Library.Canonical` for writing and `Library.Default` for reading. By induction over
  shapes, a value is written as the bytes of the data item that stands for it (`marshal_eq`), no two
  values have the same item (`item_inj`), and reading the item gives the value back unless some text
  in it is not UTF-8 (`read?_item`). The library of reference keeps the rules.
-/
import ClassWasm.Cbor.Library
import ClassWasm.Proofs.Cbor
import ClassWasm.Proofs.Entries
import ClassWasm.Proofs.Text.Utf8

namespace ClassWasm.Cbor

/-! ## Rules -/

/-- The numbers of fields ascend, and are not above those of 64 bits with a sign. -/
structure Fields.Ordered (fs : Fields) : Prop where
  ascending : fs.numbers.Pairwise (· < ·)
  small : ∀ n ∈ fs.numbers, n < 2 ^ 63

section

variable {ε : Type}

/-- The fields that are not left out, as the library writes them, each behind its number. -/
def Fields.parts (lib : Library ε) : (fs : Fields) → fs.Val → Except ε (List Bytes)
  | .nil, _ => .ok []
  | .cons n omitEmpty s fs, (v, vs) =>
    if omitEmpty && s.isEmpty v then fs.parts lib vs
    else do
      let bs ← lib.marshal s v
      let bss ← fs.parts lib vs
      .ok ((head 0 n ++ bs) :: bss)

/-- Canonical writing: heads are as short as can be, texts are not checked, and the fields of a
record stand in ascending order, without those that are left out. -/
structure Library.Canonical (lib : Library ε) : Prop where
  u32 : ∀ n : UInt32, lib.marshal .u32 n = .ok (head 0 n.toNat)
  bool : ∀ b : Bool, lib.marshal .bool b = .ok (head 7 (if b then 21 else 20))
  text : ∀ t : Text, t.bytes.length < 2 ^ 64 →
    lib.marshal .text t = .ok (head 3 t.bytes.length ++ t.bytes)
  list : ∀ (s : Shape) (vs : List s.Val), vs ≠ [] → vs.length < 2 ^ 64 →
    lib.marshal (.list s) vs =
      (vs.mapM (lib.marshal s)).map fun bss => head 4 bss.length ++ bss.flatten
  null : ∀ s : Shape, lib.marshal (.pointer s) none = .ok (head 7 22)
  pointer : ∀ (s : Shape) (v : s.Val), lib.marshal (.pointer s) (some v) = lib.marshal s v
  record : ∀ (fs : Fields) (vs : fs.Val), fs.Ordered →
    lib.marshal (.record fs) vs =
      (fs.parts lib vs).map fun bss => head 5 bss.length ++ bss.flatten

/-- What the library reads from the bytes of a data item, if anything. -/
def Library.read? (lib : Library ε) (s : Shape) (c : Cbor) : Option s.Val :=
  (lib.unmarshal s c.encode).toOption

/-- The fields of a record, each read from the item under its number, and zero where there is
none. -/
def Fields.collect (read : (s : Shape) → Cbor → Option s.Val) (pairs : List (Nat × Cbor)) :
    (fs : Fields) → Option fs.Val
  | .nil => some ()
  | .cons n _ s fs => do
    let v ← (pairs.lookup n).elim (some s.zero) (read s)
    let vs ← fs.collect read pairs
    some (v, vs)

/-- Reading with the limits that are set by default. Texts are checked, a list or record is what its
items are, and fields that are missing are zero. -/
structure Library.Default (lib : Library ε) : Prop where
  u32 : ∀ n : UInt32, lib.read? .u32 (.unsigned n.toNat) = some n
  bool : ∀ b : Bool, lib.read? .bool (.ofBool b) = some b
  text : ∀ t : Text, t.bytes.length < 2 ^ 64 →
    lib.read? .text (.ofText t) = if t.isUtf8 then some t else none
  list : ∀ (s : Shape) (items : List Cbor), Storable maxItems maxDepth (.array items) →
    lib.read? (.list s) (.array items) = items.mapM (lib.read? s)
  null : ∀ s : Shape, lib.read? (.pointer s) (.simple 22) = some none
  pointer : ∀ (s : Shape) (c : Cbor), Storable maxItems maxDepth c → c.isNull = false →
    lib.read? (.pointer s) c = (lib.read? s c).map some
  record : ∀ (fs : Fields) (pairs : List (Nat × Cbor)), fs.Ordered → (∀ p ∈ pairs, p.1 < 2 ^ 63) →
    (pairs.map Prod.fst).Nodup → Storable maxItems maxDepth (numbered pairs) →
    lib.read? (.record fs) (numbered pairs) = fs.collect lib.read? pairs

end

/-! ## Shapes and values -/

def Shape.isPointer : Shape → Bool
  | .pointer _ => true
  | _ => false

mutual

/-- The fields of all records are ordered, and no pointer leads to a pointer. -/
def Shape.Regular : Shape → Prop
  | .u32 | .bool | .text => True
  | .list s => s.Regular
  | .pointer s => s.isPointer = false ∧ s.Regular
  | .record fs => fs.Ordered ∧ fs.Regular

def Fields.Regular : Fields → Prop
  | .nil => True
  | .cons _ _ s fs => s.Regular ∧ fs.Regular

end

mutual

/-- How many containers stand inside each other. -/
def Shape.depth : Shape → Nat
  | .u32 | .bool | .text => 0
  | .list s => s.depth + 1
  | .pointer s => s.depth
  | .record fs => fs.depth + 1

def Fields.depth : Fields → Nat
  | .nil => 0
  | .cons _ _ s fs => max s.depth fs.depth

end

/-- What holds of all fields that are not left out. -/
def Fields.Each (P : (s : Shape) → s.Val → Prop) : (fs : Fields) → fs.Val → Prop
  | .nil, _ => True
  | .cons _ omitEmpty s fs, (v, vs) =>
    ((omitEmpty && s.isEmpty v) = false → P s v) ∧ fs.Each P vs

mutual

/-- Texts whose lengths 64 bits can say, and containers with `limit` items at most. Only a field can
be an empty list, if it is left out. -/
def Shape.Fits (limit : Nat) : (s : Shape) → s.Val → Prop
  | .u32, _ | .bool, _ => True
  | .text, (t : Text) => t.bytes.length < 2 ^ 64
  | .list s, (vs : List s.Val) => vs ≠ [] ∧ vs.length ≤ limit ∧ ∀ v ∈ vs, s.Fits limit v
  | .pointer s, (v : Option s.Val) => ∀ a ∈ v, s.Fits limit a
  | .record fs, vs => fs.numbers.length ≤ limit ∧ fs.Fits limit vs

def Fields.Fits (limit : Nat) : (fs : Fields) → fs.Val → Prop
  | .nil, _ => True
  | .cons _ omitEmpty s fs, (v, vs) =>
    ((omitEmpty && s.isEmpty v) = false → s.Fits limit v) ∧ fs.Fits limit vs

end

mutual

/-- All texts in a value. -/
def Shape.texts : (s : Shape) → s.Val → List Text
  | .u32, _ | .bool, _ => []
  | .text, t => [t]
  | .list s, vs => List.flatMap s.texts vs
  | .pointer s, v => Option.elim v [] s.texts
  | .record fs, vs => fs.texts vs

def Fields.texts : (fs : Fields) → fs.Val → List Text
  | .nil, _ => []
  | .cons _ _ s fs, (v, vs) => s.texts v ++ fs.texts vs

end

mutual

theorem Shape.eq_zero_of_isEmpty : (s : Shape) → (v : s.Val) → s.isEmpty v = true → v = s.zero
  | .u32, (n : UInt32), h => of_decide_eq_true (p := n = 0) h
  | .bool, b, h => by
    cases b with
    | false => rfl
    | true => cases h
  | .text, ⟨_⟩, h => congrArg Text.mk (List.isEmpty_iff.mp h)
  | .list _, _, h => List.isEmpty_iff.mp h
  | .pointer _, _, h => Option.isNone_iff_eq_none.mp h
  | .record fs, vs, h => fs.eq_zero_of_isEmpty vs h

theorem Fields.eq_zero_of_isEmpty :
    (fs : Fields) → (vs : fs.Val) → fs.isEmpty vs = true → vs = fs.zero
  | .nil, _, _ => rfl
  | .cons _ omitEmpty s fs, (v, vs), h => by
    obtain ⟨hv, hvs⟩ := Bool.and_eq_true_iff.mp h
    exact Prod.ext (s.eq_zero_of_isEmpty v (Bool.and_eq_true_iff.mp hv).2)
      (fs.eq_zero_of_isEmpty vs hvs)

end

section

variable {fs : Fields} {vs : fs.Val}

theorem Fields.pairs_cons {n : Nat} {omitEmpty : Bool} {s : Shape} (v : s.Val) :
    (Fields.cons n omitEmpty s fs).pairs (v, vs) =
      if omitEmpty && s.isEmpty v then fs.pairs vs else (n, s.item v) :: fs.pairs vs := rfl

theorem Fields.each_of_forall {P : (s : Shape) → s.Val → Prop} (h : ∀ s v, P s v) :
    (fs : Fields) → (vs : fs.Val) → fs.Each P vs
  | .nil, _ => trivial
  | .cons _ _ s fs, (v, vs) => ⟨fun _ => h s v, fs.each_of_forall h vs⟩

/-- A pair for each field, without those that are left out. -/
theorem Fields.pairs_sublist : (fs : Fields) → (vs : fs.Val) →
    ((fs.pairs vs).map Prod.fst).Sublist fs.numbers
  | .nil, _ => .slnil
  | .cons n omitEmpty s fs, (v, vs) => by
    rw [pairs_cons]
    split
    · exact (fs.pairs_sublist vs).cons n
    · exact (fs.pairs_sublist vs).cons_cons n

/-- A field is not among those behind it. -/
theorem Fields.notMem_pairs {n : Nat} {omitEmpty : Bool} {s : Shape}
    (h : (Fields.cons n omitEmpty s fs).numbers.Pairwise (· < ·)) (vs : fs.Val) :
    n ∉ (fs.pairs vs).map Prod.fst := fun hn =>
  Nat.lt_irrefl n ((List.pairwise_cons.mp h).1 n ((fs.pairs_sublist vs).subset hn))

end

/-! ## Writing -/

section

variable {ε : Type} {lib : Library ε}

/-- The parts of a record are the pairs of its item. -/
theorem Fields.parts_eq : (fs : Fields) → (vs : fs.Val) →
    fs.Each (fun s v => lib.marshal s v = .ok (s.item v).encode) vs →
    fs.parts lib vs = .ok ((fs.pairs vs).map fun p => encodePair (.unsigned p.1, p.2))
  | .nil, _, _ => rfl
  | .cons n omitEmpty s fs, (v, vs), ⟨hv, hvs⟩ => by
    rw [pairs_cons, parts, fs.parts_eq vs hvs]
    split
    · rfl
    · next hpresent =>
      rw [hv (Bool.eq_false_iff.mpr hpresent)]
      rfl

theorem encode_ofText (t : Text) :
    encode (.ofText t) = head 3 t.bytes.length ++ t.bytes := by
  rw [ofText, encode, List.flatten_singleton]

theorem encode_array (items : List Cbor) :
    encode (.array items) = head 4 items.length ++ (items.map encode).flatten := by
  rw [encode, encodeAll_eq, List.flatMap_def]

theorem encode_numbered (pairs : List (Nat × Cbor)) :
    encode (numbered pairs) = head 5 pairs.length ++
      (pairs.map fun p => encodePair (.unsigned p.1, p.2)).flatten := by
  rw [numbered, encode, encodePairs_eq, List.length_map, List.flatMap_map, List.flatMap_def]

/-- A record is written as its item where its fields are. -/
theorem Fields.map_parts {fs : Fields} {vs : fs.Val}
    (h : fs.Each (fun s v => lib.marshal s v = .ok (s.item v).encode) vs) :
    (fs.parts lib vs).map (fun bss => head 5 bss.length ++ bss.flatten) =
      .ok ((Shape.record fs).item vs).encode := by
  rw [fs.parts_eq vs h, Except.map, List.length_map]
  exact congrArg Except.ok (encode_numbered (fs.pairs vs)).symm

/-- A list is written as its item where its items are. -/
theorem Shape.map_mapM {s : Shape} {vs : List s.Val}
    (h : ∀ v ∈ vs, lib.marshal s v = .ok (s.item v).encode) :
    (vs.mapM (lib.marshal s)).map (fun bss => head 4 bss.length ++ bss.flatten) =
      .ok ((Shape.list s).item vs).encode := by
  have hitem : (Shape.list s).item vs = .array (vs.map s.item) := rfl
  rw [mapM_eq_ok_map h, Except.map, hitem, encode_array, List.length_map, List.length_map,
    List.map_map]
  rfl

mutual

/-- A library that writes canonically writes the item of a value. -/
theorem Shape.marshal_eq (h : lib.Canonical) : (s : Shape) → s.Regular → (v : s.Val) →
    s.Fits (2 ^ 64 - 1) v → lib.marshal s v = .ok (s.item v).encode
  | .u32, _, (n : UInt32), _ => h.u32 n
  | .bool, _, (b : Bool), _ => h.bool b
  | .text, _, (t : Text), hv =>
    (h.text t hv).trans (congrArg Except.ok (encode_ofText t).symm)
  | .list s, hs, (vs : List s.Val), ⟨hne, hlen, hvs⟩ => by
    rw [h.list s vs hne (by omega)]
    exact Shape.map_mapM fun v hv => s.marshal_eq h hs v (hvs v hv)
  | .pointer s, _, none, _ => h.null s
  | .pointer s, hs, some v, hv =>
    (h.pointer s v).trans (s.marshal_eq h hs.2 v (hv v rfl))
  | .record fs, hs, vs, hvs => by
    rw [h.record fs vs hs.1]
    exact Fields.map_parts (fs.each_marshal_eq h hs.2 vs hvs.2)

theorem Fields.each_marshal_eq (h : lib.Canonical) : (fs : Fields) → fs.Regular → (vs : fs.Val) →
    fs.Fits (2 ^ 64 - 1) vs → fs.Each (fun s v => lib.marshal s v = .ok (s.item v).encode) vs
  | .nil, _, _, _ => trivial
  | .cons _ _ s fs, hs, (v, vs), hvs =>
    ⟨fun hpresent => s.marshal_eq h hs.1 v (hvs.1 hpresent),
      fs.each_marshal_eq h hs.2 vs hvs.2⟩

end

end

/-! ## Items -/

theorem ofText_inj {t t' : Text} (h : ofText t = ofText t') : t = t' := by
  obtain ⟨_⟩ := t
  obtain ⟨_⟩ := t'
  exact congrArg Text.mk (List.cons.inj (Cbor.text.inj h)).1

theorem numbered_inj {pairs pairs' : List (Nat × Cbor)} (h : numbered pairs = numbered pairs') :
    pairs = pairs' := by
  refine List.map_injective_iff.mpr ?_ (Cbor.map.inj h)
  rintro ⟨n, c⟩ ⟨n', c'⟩ hf
  cases hf
  rfl

theorem Shape.isNull_item {s : Shape} (hs : s.isPointer = false) (v : s.Val) :
    (s.item v).isNull = false := by
  cases s with
  | bool =>
    cases v <;> rfl
  | pointer => cases hs
  | _ => rfl

mutual

/-- No two values have the same item. -/
theorem Shape.item_inj : (s : Shape) → s.Regular → (v v' : s.Val) → s.item v = s.item v' → v = v'
  | .u32, _, _, _, h => UInt32.toNat_inj.mp (Cbor.unsigned.inj h)
  | .bool, _, b, b', h => by
    cases b <;> cases b' <;> first | rfl | cases h
  | .text, _, _, _, h => ofText_inj h
  | .list s, hs, _, _, h =>
    List.map_injective_iff.mpr (fun v v' => s.item_inj hs v v') (Cbor.array.inj h)
  | .pointer s, hs, v, v', h => by
    have hnull (v : s.Val) : s.item v ≠ .simple 22 := fun heq => by
      cases heq ▸ Shape.isNull_item hs.1 v
    cases v with
    | none =>
      cases v' with
      | none => rfl
      | some v' => exact absurd h.symm (hnull v')
    | some v =>
      cases v' with
      | none => exact absurd h (hnull v)
      | some v' => exact congrArg some (s.item_inj hs.2 v v' h)
  | .record fs, hs, vs, vs', h =>
    fs.pairs_inj hs.2 hs.1.ascending vs vs' (numbered_inj h)

/-- Where one field is left out and the other one is not, its number is there once only. -/
theorem Fields.pairs_inj : (fs : Fields) → fs.Regular → fs.numbers.Pairwise (· < ·) →
    (vs vs' : fs.Val) → fs.pairs vs = fs.pairs vs' → vs = vs'
  | .nil, _, _, _, _, _ => rfl
  | .cons n omitEmpty s fs, hs, hordered, (v, vs), (v', vs'), h => by
    have hrest := (List.pairwise_cons.mp hordered).2
    have hfirst {vs : fs.Val} {c : Cbor} {ps : List (Nat × Cbor)} (heq : fs.pairs vs = (n, c) :: ps) :
        False := by
      refine Fields.notMem_pairs hordered vs ?_
      rw [heq]
      exact List.mem_cons_self
    rw [Fields.pairs_cons, Fields.pairs_cons] at h
    split at h <;> split at h
    · next hv hv' =>
      rw [s.eq_zero_of_isEmpty v (Bool.and_eq_true_iff.mp hv).2,
        s.eq_zero_of_isEmpty v' (Bool.and_eq_true_iff.mp hv').2,
        fs.pairs_inj hs.2 hrest vs vs' h]
    · exact (hfirst h).elim
    · exact (hfirst h.symm).elim
    · obtain ⟨hpair, htail⟩ := List.cons.inj h
      rw [s.item_inj hs.1 v v' (Prod.mk.inj hpair).2, fs.pairs_inj hs.2 hrest vs vs' htail]

end

theorem Storable.mono {limit room room' : Nat} {c : Cbor} (h : Storable limit room c)
    (hroom : room ≤ room') : Storable limit room' c := by
  induction h generalizing room' with
  | unsigned h => exact .unsigned h
  | negative h => exact .negative h
  | bytes h => exact .bytes h
  | text h => exact .text h
  | array h _ ih =>
    obtain ⟨room', rfl⟩ : ∃ r, room' = r + 1 := ⟨room' - 1, by omega⟩
    exact .array h fun i hi => ih i hi (by omega)
  | map h _ _ ihkeys ihvalues =>
    obtain ⟨room', rfl⟩ : ∃ r, room' = r + 1 := ⟨room' - 1, by omega⟩
    exact .map h (fun p hp => ihkeys p hp (by omega)) fun p hp => ihvalues p hp (by omega)
  | simple h => exact .simple h

theorem storable_numbered {limit room : Nat} {pairs : List (Nat × Cbor)}
    (hlength : pairs.length ≤ limit) (hnumbers : ∀ p ∈ pairs, p.1 < 2 ^ 64)
    (hvalues : ∀ p ∈ pairs, Storable limit room p.2) :
    Storable limit (room + 1) (numbered pairs) := by
  refine .map ((List.length_map _).le.trans hlength) (fun p hp => ?_) fun p hp => ?_ <;>
  · obtain ⟨q, hq, rfl⟩ := List.mem_map.mp hp
    first
      | exact .unsigned (hnumbers q hq)
      | exact hvalues q hq

mutual

theorem Shape.storable_item {limit : Nat} : (s : Shape) → s.Regular → (v : s.Val) →
    s.Fits limit v → Storable limit s.depth (s.item v)
  | .u32, _, (n : UInt32), _ => .unsigned (n.toNat_lt.trans (by decide))
  | .bool, _, b, _ => .simple (by cases b <;> decide)
  | .text, _, _, hv => .text hv
  | .list s, hs, (vs : List s.Val), ⟨_, hlen, hvs⟩ => by
    refine .array ((List.length_map _).le.trans hlen) fun i hi => ?_
    obtain ⟨v, hv, rfl⟩ := List.mem_map.mp hi
    exact s.storable_item hs v (hvs v hv)
  | .pointer _, _, none, _ => .simple (by decide)
  | .pointer s, hs, some v, hv => s.storable_item hs.2 v (hv v rfl)
  | .record fs, hs, vs, hvs => by
    have hnumbers := fs.pairs_sublist vs
    refine storable_numbered ?_ (fun p hp => ?_) (fs.storable_pairs hs.2 vs hvs.2)
    · exact (List.length_map _).symm.le.trans (hnumbers.length_le.trans hvs.1)
    · exact (hs.1.small p.1 (hnumbers.subset (List.mem_map_of_mem hp))).trans (by decide)

theorem Fields.storable_pairs {limit : Nat} : (fs : Fields) → fs.Regular → (vs : fs.Val) →
    fs.Fits limit vs → ∀ p ∈ fs.pairs vs, Storable limit fs.depth p.2
  | .nil, _, _, _ => nofun
  | .cons n omitEmpty s fs, hs, (v, vs), hvs => by
    have hrest (p : Nat × Cbor) (hp : p ∈ fs.pairs vs) :
        Storable limit (Fields.cons n omitEmpty s fs).depth p.2 :=
      (fs.storable_pairs hs.2 vs hvs.2 p hp).mono (le_max_right _ _)
    rw [Fields.pairs_cons]
    split
    · exact hrest
    · next hpresent =>
      refine List.forall_mem_cons.mpr ⟨?_, hrest⟩
      exact (s.storable_item hs.1 v (hvs.1 (Bool.eq_false_iff.mpr hpresent))).mono (le_max_left _ _)

end

/-! ## Reading -/

/-- A value whose texts are all UTF-8. -/
def checked {α : Type} (texts : List Text) (a : α) : Option α :=
  if texts.all Text.isUtf8 then some a else none

theorem checked_append {α β : Type} (ts ts' : List Text) (a : α) (b : β) :
    (do
      let a ← checked ts a
      let b ← checked ts' b
      some (a, b)) = checked (ts ++ ts') (a, b) := by
  unfold checked
  rw [List.all_append]
  cases ts.all Text.isUtf8 <;> cases ts'.all Text.isUtf8 <;> rfl

theorem mapM_checked {α β : Type} {read : β → Option α} {item : α → β} {texts : α → List Text}
    {as : List α} (h : ∀ a ∈ as, read (item a) = checked (texts a) a) :
    (as.map item).mapM read = checked (as.flatMap texts) as := by
  induction as with
  | nil => rfl
  | cons a as ih =>
    rw [List.map_cons, List.mapM_cons, h a List.mem_cons_self,
      ih fun b hb => h b (List.mem_cons_of_mem a hb), List.flatMap_cons]
    unfold checked
    rw [List.all_append]
    cases (texts a).all Text.isUtf8 <;> cases (as.flatMap texts).all Text.isUtf8 <;> rfl

mutual

theorem Shape.checked_zero : (s : Shape) → (s.texts s.zero).all Text.isUtf8 = true
  | .u32 | .bool | .list _ | .pointer _ => rfl
  | .text => by simp [Shape.texts, Shape.zero, Text.isUtf8, Text.Utf8.isValid, Text.Utf8.glyphs]
  | .record fs => fs.checked_zero

theorem Fields.checked_zero : (fs : Fields) → (fs.texts fs.zero).all Text.isUtf8 = true
  | .nil => rfl
  | .cons _ _ s fs => by
    change (s.texts s.zero ++ fs.texts fs.zero).all Text.isUtf8 = true
    rw [List.all_append, s.checked_zero, fs.checked_zero]
    rfl

end

/-- Fields that are left out are zero, and those behind a field have other numbers. -/
theorem Fields.collect_pairs {read : (s : Shape) → Cbor → Option s.Val} : (fs : Fields) →
    fs.numbers.Pairwise (· < ·) → (vs : fs.Val) →
    fs.Each (fun s v => read s (s.item v) = checked (s.texts v) v) vs →
    (pairs : List (Nat × Cbor)) → (∀ n ∈ fs.numbers, pairs.lookup n = (fs.pairs vs).lookup n) →
    fs.collect read pairs = checked (fs.texts vs) vs
  | .nil, _, _, _, _, _ => rfl
  | .cons n omitEmpty s fs, hordered, (v, vs), ⟨hv, hvs⟩, pairs, hpairs => by
    have hrest := (List.pairwise_cons.mp hordered).2
    have hbehind (k : Nat) (hk : k ∈ fs.numbers) : pairs.lookup k = (fs.pairs vs).lookup k := by
      have hne : (k == n) = false :=
        beq_false_of_ne (Nat.ne_of_gt ((List.pairwise_cons.mp hordered).1 k hk))
      rw [hpairs k (List.mem_cons_of_mem n hk), pairs_cons]
      split
      · rfl
      · rw [List.lookup_cons, hne]
    have hfirst : (pairs.lookup n).elim (some s.zero) (read s) = checked (s.texts v) v := by
      rw [hpairs n List.mem_cons_self, pairs_cons]
      by_cases hempty : (omitEmpty && s.isEmpty v) = true
      · have hnone : (fs.pairs vs).lookup n = none := by
          rw [List.lookup_eq_none_iff]
          rintro ⟨k, c⟩ hp
          have hne : n ≠ k := by
            rintro rfl
            exact notMem_pairs hordered vs (List.mem_map_of_mem hp)
          exact bne_iff_ne.mpr hne
        rw [if_pos hempty, hnone, s.eq_zero_of_isEmpty v (Bool.and_eq_true_iff.mp hempty).2,
          checked, if_pos s.checked_zero]
        rfl
      · rw [if_neg hempty, List.lookup_cons_self]
        exact hv (Bool.eq_false_iff.mpr hempty)
    rw [collect, hfirst, fs.collect_pairs hrest vs hvs pairs hbehind]
    exact checked_append _ _ v vs

section

variable {limit room : Nat}

/-- The items of a list could stand where the list stands. -/
theorem Storable.of_array {items : List Cbor} (h : Storable limit room (.array items)) :
    ∀ i ∈ items, Storable limit room i := by
  cases h with
  | array _ hitems => exact fun i hi => (hitems i hi).mono (Nat.le_succ _)

theorem Storable.of_numbered {pairs : List (Nat × Cbor)} (h : Storable limit room (numbered pairs)) :
    ∀ p ∈ pairs, Storable limit room p.2 := by
  cases h with
  | map _ _ hvalues =>
    exact fun p hp => (hvalues _ (List.mem_map_of_mem hp)).mono (Nat.le_succ _)

end

section

variable {ε : Type} {lib : Library ε}

mutual

/-- From the item of a value a library reads the value, if all its texts are UTF-8. -/
theorem Shape.read?_item (h : lib.Default) : (s : Shape) → s.Regular → (v : s.Val) →
    Storable maxItems maxDepth (s.item v) → lib.read? s (s.item v) = checked (s.texts v) v
  | .u32, _, (n : UInt32), _ => h.u32 n
  | .bool, _, (b : Bool), _ => h.bool b
  | .text, _, (t : Text), hv => by
    have htext : lib.read? .text (ofText t) = if t.isUtf8 then some t else none := by
      cases hv with
      | text hlen => exact h.text t hlen
    refine htext.trans ?_
    change _ = if [t].all Text.isUtf8 then some t else none
    rw [List.all_cons, List.all_nil, Bool.and_true]
  | .list s, hs, (vs : List s.Val), hvs => by
    refine (h.list s _ hvs).trans (mapM_checked fun v hv => ?_)
    exact s.read?_item h hs v (Storable.of_array hvs _ (List.mem_map_of_mem hv))
  | .pointer s, _, none, _ => h.null s
  | .pointer s, hs, some v, hv => by
    refine (h.pointer s (s.item v) hv (Shape.isNull_item hs.1 v)).trans ?_
    rw [s.read?_item h hs.2 v hv, checked, Option.map_if]
    rfl
  | .record fs, hs, vs, hvs => by
    have hnumbers := fs.pairs_sublist vs
    have hnodup := hs.1.ascending.imp (S := (· ≠ ·)) Nat.ne_of_lt
    have hsmall : ∀ p ∈ fs.pairs vs, p.1 < 2 ^ 63 := fun p hp =>
      hs.1.small p.1 (hnumbers.subset (List.mem_map_of_mem hp))
    refine (h.record fs _ hs.1 hsmall (hnumbers.nodup hnodup) hvs).trans ?_
    exact fs.collect_pairs hs.1.ascending vs
      (fs.each_read?_item h hs.2 vs (Storable.of_numbered hvs)) _ fun _ _ => rfl

theorem Fields.each_read?_item (h : lib.Default) : (fs : Fields) → fs.Regular → (vs : fs.Val) →
    (∀ p ∈ fs.pairs vs, Storable maxItems maxDepth p.2) →
    fs.Each (fun s v => lib.read? s (s.item v) = checked (s.texts v) v) vs
  | .nil, _, _, _ => trivial
  | .cons _ _ s fs, hs, (v, vs), hvs => by
    rw [Fields.pairs_cons] at hvs
    refine ⟨fun hpresent => ?_, fs.each_read?_item h hs.2 vs fun p hp => ?_⟩
    · rw [if_neg (Bool.eq_false_iff.mp hpresent)] at hvs
      exact s.read?_item h hs.1 v (hvs _ List.mem_cons_self)
    · split at hvs
      · exact hvs p hp
      · exact hvs p (List.mem_cons_of_mem _ hp)

end

/-! ## Values that are stored -/

variable {s : Shape} (hs : s.Regular)

include hs

/-- A library writes a value canonically and reads it again, if it is within the limits and all its
texts are UTF-8. -/
theorem Library.read_marshal (hwrites : lib.Canonical) (hreads : lib.Default)
    (hdepth : s.depth ≤ maxDepth) {v : s.Val} (hv : s.Fits (2 ^ 64 - 1) v) :
    ∃ bs, lib.marshal s v = .ok bs ∧
      (s.Fits maxItems v → (lib.unmarshal s bs).toOption = checked (s.texts v) v) :=
  ⟨_, s.marshal_eq hwrites hs v hv, fun hlimit =>
    s.read?_item hreads hs v ((s.storable_item hs v hlimit).mono hdepth)⟩

/-- No two values are written as the same bytes. -/
theorem Library.marshal_inj (hwrites : lib.Canonical) {v v' : s.Val} (hv : s.Fits (2 ^ 64 - 1) v)
    (hv' : s.Fits (2 ^ 64 - 1) v') (h : lib.marshal s v = lib.marshal s v') : v = v' := by
  rw [s.marshal_eq hwrites hs v hv, s.marshal_eq hwrites hs v' hv'] at h
  exact s.item_inj hs v v' (encode_inj (by decide) (s.storable_item hs v hv)
    (s.storable_item hs v' hv') (Except.ok.inj h))

end

/-! ## The library of reference -/

theorem reference_canonical : Library.reference.Canonical where
  u32 _ := rfl
  bool _ := rfl
  text t _ := congrArg Except.ok (encode_ofText t)
  list _ _ _ _ := (Shape.map_mapM fun _ _ => rfl).symm
  null _ := rfl
  pointer _ _ := rfl
  record fs vs _ := (Fields.map_parts (fs.each_of_forall (fun _ _ => rfl) vs)).symm

theorem text?_ofText (t : Text) : text? (.ofText t) = if t.isUtf8 then some t else none := by
  by_cases h : Text.Utf8.isValid t.bytes = true <;>
    simp [text?, Cbor.ofText, untagged?, Text.isUtf8, h]

theorem u32?_unsigned (n : UInt32) : u32? (.unsigned n.toNat) = some n := by
  have := n.toNat_lt
  simp [u32?, untagged?, this]

theorem fields?_numbered (pairs : List (Nat × Cbor)) : fields? (numbered pairs) = some pairs := by
  have hkeyed : (pairs.map fun p => (Cbor.unsigned p.1, p.2)).mapM
      (fun p => (key? p.1).map (·, p.2)) = some (pairs.map fun p => (Key.number p.1, p.2)) := by
    induction pairs with
    | nil => rfl
    | cons p pairs ih =>
      rw [List.map_cons, List.mapM_cons, ih]
      rfl
  unfold fields? numbered untagged?
  simp [hkeyed, List.filterMap_map]

theorem read?_reference {c : Cbor} (h : Storable maxItems maxDepth c) (s : Shape) :
    Library.reference.read? s c = s.value? c := by
  have hparse : parse? c.encode >>= s.value? = s.value? c := by
    rw [parse?_encode h]
    rfl
  unfold Library.read? Library.reference
  dsimp only
  rw [hparse]
  cases s.value? c <;> rfl

/-- Fields are collected from the items that stand for them. -/
theorem Fields.values?_eq {pairs : List (Nat × Cbor)}
    (h : ∀ p ∈ pairs, Storable maxItems maxDepth p.2) : (fs : Fields) →
    fs.values? pairs = fs.collect Library.reference.read? pairs
  | .nil => rfl
  | .cons n _ s fs => by
    have hfirst : (pairs.lookup n).elim (some s.zero) s.value? =
        (pairs.lookup n).elim (some s.zero) (Library.reference.read? s) := by
      cases hlookup : pairs.lookup n with
      | none => rfl
      | some c => exact (read?_reference (h _ (mem_of_lookup hlookup)) s).symm
    rw [values?, collect, hfirst, fs.values?_eq h]

theorem reference_default : Library.reference.Default where
  u32 n := (read?_reference (.unsigned (n.toNat_lt.trans (by decide))) .u32).trans (u32?_unsigned n)
  bool b := (read?_reference (.simple (by cases b <;> decide)) .bool).trans (by cases b <;> rfl)
  text t h := (read?_reference (.text h) .text).trans (text?_ofText t)
  list s items h := by
    have hvalue : (Shape.list s).value? (.array items) = items.mapM s.value? := rfl
    have hreads : items.mapM (Library.reference.read? s) = items.mapM s.value? :=
      mapM_congr fun c hc => read?_reference (h.of_array c hc) s
    exact (read?_reference h (.list s)).trans (hvalue.trans hreads.symm)
  null s := read?_reference (.simple (by decide)) (.pointer s)
  pointer s c h hnull := by
    have hvalue : (Shape.pointer s).value? c = (s.value? c).map some := if_neg (by simp [hnull])
    rw [read?_reference h s]
    exact (read?_reference h (.pointer s)).trans hvalue
  record fs pairs _ _ _ h := by
    have hvalue : (Shape.record fs).value? (numbered pairs) =
        fields? (numbered pairs) >>= fs.values? := rfl
    rw [fields?_numbered] at hvalue
    exact (read?_reference h (.record fs)).trans (hvalue.trans (fs.values?_eq h.of_numbered))

end ClassWasm.Cbor
