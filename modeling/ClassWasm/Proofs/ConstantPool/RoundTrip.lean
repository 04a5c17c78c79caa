/-
  A pool that has been read is written to bytes that are read as the same pool, with nothing taken
  from what follows them. The bytes need not be those it came from, since text has forms that are
  read but never written; so the argument goes through entries and not through bytes. An entry whose
  text can be spelled at all is read back from what it is written as (`consumes_payload`), and
  whether references resolve depends on the slots alone, which are the same (`read_of_inPasses`).
-/
import Mathlib
import ClassWasm.Proofs.ConstantPool.Reading
import ClassWasm.Proofs.Cursor
import ClassWasm.Proofs.ModifiedUtf8

namespace ClassWasm

open Reader

namespace Entry

/-- The text of the entry, if it has one, is what some bytes spell. -/
def Spelled : Entry → Prop
  | utf8 text => ∃ bs, ModifiedUtf8.decode bs = .ok text
  | _ => True

/-- There is room for the length of the text of the entry, if it has one. -/
def Fits : Entry → Prop
  | utf8 text => (ModifiedUtf8.encode text).length ≤ 65535
  | _ => True

theorem readPair_ensures {make : PoolIndex → PoolIndex → Entry} (h : ∀ a b, (make a b).Spelled) :
    Ensures (readPair make) Spelled :=
  ensures_bind fun a => ensures_bind fun b => ensures_pure (h a b)

theorem readText_ensures :
    Ensures readText fun text => ∃ bs, ModifiedUtf8.decode bs = .ok text := by
  refine ensures_bind fun length => ensures_bind fun bs => ?_
  intro c text c' h
  obtain ⟨text', htext, heq⟩ := map_eq_ok h
  cases heq
  exact ⟨bs, mapError_eq_ok htext⟩

theorem read_ensures (tag : Tag) : Ensures (read tag) Spelled := by
  unfold read
  split
  · exact readText_ensures.map fun _ h => h
  all_goals first
    | exact readPair_ensures fun _ _ => trivial
    | exact ensures_bind fun _ => ensures_pure trivial
    | exact ensures_bind fun _ => ensures_bind fun _ => ensures_pure trivial
    | exact fun c a c' h => by cases h

theorem consumes_lift {α : Type} {r : Reader Shortage α} {bs : Bytes} {a : α}
    (h : Consumes r bs a) : Consumes (liftM r : Reader ReadError α) bs a :=
  h.mapError ReadError.short

theorem consumes_text {text : Text} (hspelled : (utf8 text).Spelled) (hfits : (utf8 text).Fits) :
    Consumes readText (utf8 text).payload text := by
  obtain ⟨bs, hbs⟩ := hspelled
  have hlength : (UInt16.ofNat (ModifiedUtf8.encode text).length).toNat =
      (ModifiedUtf8.encode text).length := by
    rw [UInt16.toNat_ofNat', Nat.mod_eq_of_lt (Nat.lt_succ_of_le hfits)]
  refine (consumes_lift (Cursor.consumes_u16 _)).bind ?_
  rw [hlength]
  intro rest offset
  refine bind_eq_ok.mpr ⟨_, consumes_lift (Cursor.consumes_take _) rest offset, ?_⟩
  unfold Reader.ofExcept
  dsimp only
  rw [ModifiedUtf8.decode_encode hbs]
  rfl

theorem consumes_pair (make : PoolIndex → PoolIndex → Entry) (a b : PoolIndex) :
    Consumes (readPair make) (Bytes.be16 a ++ Bytes.be16 b) (make a b) :=
  (consumes_lift (Cursor.consumes_u16 a)).bind
    ((consumes_lift (Cursor.consumes_u16 b)).map (make a))

/-- An entry is read as it was written. -/
theorem consumes_payload {e : Entry} (hspelled : e.Spelled) (hfits : e.Fits) :
    Consumes (read e.tag) e.payload e := by
  cases e with
  | utf8 text => exact (consumes_text hspelled hfits).map utf8
  | integer value => exact (consumes_lift (Cursor.consumes_i32 value)).map integer
  | float bits => exact (consumes_lift (Cursor.consumes_u32 bits)).map float
  | long value => exact (consumes_lift (Cursor.consumes_i64 value)).map long
  | double bits => exact (consumes_lift (Cursor.consumes_u64 bits)).map double
  | classRef a => exact (consumes_lift (Cursor.consumes_u16 a)).map classRef
  | string a => exact (consumes_lift (Cursor.consumes_u16 a)).map string
  | methodType a => exact (consumes_lift (Cursor.consumes_u16 a)).map methodType
  | fieldRef a b => exact consumes_pair fieldRef a b
  | methodRef a b => exact consumes_pair methodRef a b
  | interfaceMethodRef a b => exact consumes_pair interfaceMethodRef a b
  | nameAndType a b => exact consumes_pair nameAndType a b
  | dynamic a b => exact consumes_pair dynamic a b
  | invokeDynamic a b => exact consumes_pair invokeDynamic a b
  | methodHandle kind a =>
    exact (consumes_lift (Cursor.consumes_u8 kind)).bind
      ((consumes_lift (Cursor.consumes_u16 a)).map (methodHandle kind))

/-- What stands for the entry in a class file. -/
def bytes (e : Entry) : Bytes := e.tag.code :: e.payload

end Entry

namespace Pool

theorem InOrder.spelled {c c' : Cursor} {es : List Entry} (h : InOrder c es c') :
    ∀ e ∈ es, e.Spelled := by
  induction h with
  | nil => exact nofun
  | cons _ hread _ ih =>
    intro e he
    rcases List.mem_cons.mp he with rfl | he
    · exact Entry.read_ensures _ _ _ _ hread
    · exact ih e he

/-- Entries one behind the other are read in that order. -/
theorem inOrder_bytes {es : List Entry} (hspelled : ∀ e ∈ es, e.Spelled) (hfits : ∀ e ∈ es, e.Fits)
    (rest : Bytes) (offset : Nat) :
    InOrder ⟨es.flatMap Entry.bytes ++ rest, offset⟩ es
      ⟨rest, offset + (es.flatMap Entry.bytes).length⟩ := by
  induction es generalizing offset with
  | nil => exact .nil _
  | cons e es ih =>
    have hread := Entry.consumes_payload (hspelled e List.mem_cons_self)
      (hfits e List.mem_cons_self) (es.flatMap Entry.bytes ++ rest) (offset + 1)
    have hrest := ih (fun e' he' => hspelled e' (List.mem_cons_of_mem _ he'))
      (fun e' he' => hfits e' (List.mem_cons_of_mem _ he')) (offset + 1 + e.payload.length)
    have hoffset : offset + ((e :: es).flatMap Entry.bytes).length =
        offset + 1 + e.payload.length + (es.flatMap Entry.bytes).length := by
      simp only [List.flatMap_cons, List.length_append, Entry.bytes, List.length_cons]
      omega
    rw [List.flatMap_cons, List.append_assoc, ← List.flatMap_cons, hoffset]
    exact .cons rfl hread hrest

theorem longText?_eq_none {p : Pool} :
    p.longText? = none ↔ ∀ e, some e ∈ p.slots.toList → e.Fits := by
  unfold longText?
  rw [List.findSome?_eq_none_iff]
  constructor
  · intro h e he
    obtain ⟨i, hi⟩ := List.mem_iff_getElem?.mp he
    have hnone := h (some e, i) (List.mem_zipIdx_iff_getElem?.mpr hi)
    cases e with
    | utf8 text =>
      dsimp only at hnone
      split at hnone
      · cases hnone
      · next hle => exact Nat.le_of_not_lt hle
    | _ => trivial
  · rintro h ⟨slot, i⟩ hslot
    have hmem := List.mem_of_getElem? (List.mem_zipIdx_iff_getElem?.mp hslot)
    split
    · next text i' heq =>
      cases heq
      rw [if_neg (Nat.not_lt_of_le (h _ hmem))]
    · rfl

/-- Slots without an entry are not written. -/
theorem flatMap_slots {g : Option Entry → Bytes} (hnone : g none = []) (es : List Entry) :
    (ofEntries es).slots.toList.flatMap g = es.flatMap fun e => g (some e) := by
  have hslots (e : Entry) : e.slots.flatMap g = g (some e) := by
    unfold Entry.slots
    split <;> simp [hnone]
  simp [ofEntries, List.flatMap_assoc, hnone, hslots]

theorem encode_eq_ok {es : List Entry} {bytes : Bytes} (h : (ofEntries es).encode = .ok bytes) :
    (∀ e ∈ es, e.Fits) ∧
      bytes = Bytes.be16 (UInt16.ofNat (ofEntries es).size) ++ es.flatMap Entry.bytes := by
  unfold encode at h
  split at h
  · cases h
  · split at h
    · cases h
    · next hlong =>
      cases h
      refine ⟨fun e he => longText?_eq_none.mp hlong e (mem_ofEntries.mpr he), ?_⟩
      rw [flatMap_slots rfl]
      rfl

theorem encode_eq_error {p : Pool} (hsize : p.size ≤ 65535) :
    (∃ reason, p.encode = .error reason) ↔
      ∃ text, some (Entry.utf8 text) ∈ p.slots.toList ∧
        65535 < (ModifiedUtf8.encode text).length := by
  have hlong : p.longText? ≠ none ↔ ∃ text, some (Entry.utf8 text) ∈ p.slots.toList ∧
      65535 < (ModifiedUtf8.encode text).length := by
    simp only [Ne, longText?_eq_none, not_forall, exists_prop]
    constructor
    · rintro ⟨e, he, hfits⟩
      cases e with
      | utf8 text => exact ⟨text, he, Nat.lt_of_not_le hfits⟩
      | _ => exact (hfits trivial).elim
    · rintro ⟨text, he, hlt⟩
      exact ⟨_, he, Nat.not_le_of_lt hlt⟩
  rw [← hlong]
  unfold encode
  rw [if_neg (by omega)]
  split
  · next hsome => simp [hsome]
  · next hnone => simp [hnone]

/-- A pool that has been read can be written exactly if no text of it is too long, and what is
written is read as the same pool, which is then written as the same bytes. -/
theorem read_encode {c c' : Cursor} {p : Pool} (h : read c = .ok (p, c')) :
    ((∃ reason, p.encode = .error reason) ↔
      ∃ text, some (Entry.utf8 text) ∈ p.slots.toList ∧
        65535 < (ModifiedUtf8.encode text).length) ∧
    ∀ bytes, p.encode = .ok bytes → ∀ rest offset, ∃ q,
      read ⟨bytes ++ rest, offset⟩ = .ok (q, ⟨rest, offset + bytes.length⟩) ∧
        q.slots = p.slots ∧ q.encode = .ok bytes := by
  obtain ⟨count, c₁, es, hcount, hpos, horder, rfl, hsize, hes⟩ := inPasses_of_read h
  have hlt := count.toNat_lt
  refine ⟨encode_eq_error (by omega), fun bytes hbytes rest offset => ?_⟩
  obtain ⟨hfits, rfl⟩ := encode_eq_ok hbytes
  refine ⟨ofEntries es, read_of_inPasses ?_, rfl, hbytes⟩
  have hcount' : UInt16.ofNat (ofEntries es).size = count := by
    rw [hsize, UInt16.ofNat_toNat]
  rw [hcount', List.append_assoc, List.length_append, ← Nat.add_assoc]
  exact ⟨count, _, es, Cursor.consumes_u16 count _ offset, hpos,
    inOrder_bytes horder.spelled hfits rest _, rfl, hsize, hes⟩

/-- A class whose name is a single zero, which comes as one byte and is written as two. -/
def zeroPool : Pool := ⟨#[none, some (.classRef 2), some (.utf8 ⟨[0]⟩)]⟩

theorem read_encode_zeroPool :
    read ⟨[0, 3, 7, 0, 2, 1, 0, 1, 0], 0⟩ = .ok (zeroPool, ⟨[], 9⟩) ∧
      zeroPool.encode = .ok [0, 3, 7, 0, 2, 1, 0, 2, 0xC0, 0x80] ∧
      ∃ q, read ⟨[0, 3, 7, 0, 2, 1, 0, 2, 0xC0, 0x80] ++ [0xCA], 0⟩ = .ok (q, ⟨[0xCA], 10⟩) ∧
        q.slots = zeroPool.slots ∧ q.encode = .ok [0, 3, 7, 0, 2, 1, 0, 2, 0xC0, 0x80] := by
  have hread : read ⟨[0, 3, 7, 0, 2, 1, 0, 1, 0], 0⟩ = .ok (zeroPool, ⟨[], 9⟩) := by cbv
  have hbytes : zeroPool.encode = .ok [0, 3, 7, 0, 2, 1, 0, 2, 0xC0, 0x80] := by cbv
  exact ⟨hread, hbytes, (read_encode hread).2 _ hbytes [0xCA] 0⟩

end Pool

end ClassWasm
