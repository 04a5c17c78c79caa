/-
  How instructions are spelled. `Spells pool bs opcode wide op` says which bytes stand for an
  instruction that is no switch, with the pool that its operands refer to. Whatever is spelled is
  decoded, wherever it stands and whatever follows (`Spells.next`). How many bytes a switch takes
  depends on where it stands, and so its bytes are said for each offset (`next_tableSwitch`,
  `next_lookupSwitch`).
-/
import ClassWasm.Assembly
import ClassWasm.Instruction.Decode
import ClassWasm.Proofs.ConstantPool.Reading
import ClassWasm.Proofs.Cursor

namespace ClassWasm.Instruction

open Reader

/-- The constant that is loaded from an index of one slot. -/
inductive Loads (pool : Pool) (i : PoolIndex) : Constant → Prop
  | int {value : Int32} : pool.get i = .ok (.integer value) → Loads pool i (.int value)
  | float {bits : UInt32} : pool.get i = .ok (.float bits) → Loads pool i (.float (quietSingle bits))

/-- The constant that is loaded from an index of two slots. -/
inductive LoadsWide (pool : Pool) (i : PoolIndex) : Constant → Prop
  | long {value : Int64} : pool.get i = .ok (.long value) → LoadsWide pool i (.long value)
  | double {bits : UInt64} : pool.get i = .ok (.double bits) → LoadsWide pool i (.double bits)

/-- The bytes are an instruction, and no switch. -/
inductive Spells (pool : Pool) : Bytes → UInt8 → Bool → Operation → Prop
  | plain {opcode : UInt8} {op : Operation} : layout opcode = .plain op →
    Spells pool [opcode] opcode false op
  | byte {opcode : UInt8} {make : Int8 → Operation} (v : Int8) : layout opcode = .byte make →
    Spells pool [opcode, v.toUInt8] opcode false (make v)
  | short {opcode : UInt8} {make : Int16 → Operation} (v : Int16) : layout opcode = .short make →
    Spells pool (opcode :: Bytes.be16 v.toUInt16) opcode false (make v)
  | word {opcode : UInt8} {make : Int32 → Operation} (v : Int32) : layout opcode = .word make →
    Spells pool (opcode :: Assembly.int v) opcode false (make v)
  | slot {opcode : UInt8} {make : UInt16 → Operation} (n : UInt8) : layout opcode = .slot make →
    Spells pool [opcode, n] opcode false (make n.toUInt16)
  | wideSlot {opcode : UInt8} {make : UInt16 → Operation} (n : UInt16) :
    layout opcode = .slot make →
    Spells pool (wideOpcode :: opcode :: Bytes.be16 n) opcode true (make n)
  | increment {opcode : UInt8} (n : UInt8) (delta : Int8) : layout opcode = .increment →
    Spells pool [opcode, n, delta.toUInt8] opcode false (.increment n.toUInt16 delta.toInt16)
  | wideIncrement {opcode : UInt8} (n : UInt16) (delta : Int16) : layout opcode = .increment →
    Spells pool (wideOpcode :: opcode :: (Bytes.be16 n ++ Bytes.be16 delta.toUInt16)) opcode true
      (.increment n delta)
  | constant8 {opcode : UInt8} (i : UInt8) {c : Constant} : layout opcode = .constant8 →
    Loads pool i.toUInt16 c → Spells pool [opcode, i] opcode false (.const c)
  | constant16 {opcode : UInt8} (i : PoolIndex) {c : Constant} : layout opcode = .constant16 →
    Loads pool i c → Spells pool (opcode :: Bytes.be16 i) opcode false (.const c)
  | wideConstant {opcode : UInt8} (i : PoolIndex) {c : Constant} : layout opcode = .wideConstant →
    LoadsWide pool i c → Spells pool (opcode :: Bytes.be16 i) opcode false (.const c)
  | field {opcode : UInt8} {make : MemberRef → Operation} (i : PoolIndex) {ref : MemberRef} :
    layout opcode = .field make → pool.fieldRef i = .ok ref →
    Spells pool (opcode :: Bytes.be16 i) opcode false (make ref)
  | method {opcode : UInt8} (i : PoolIndex) {ref : MemberRef} : layout opcode = .method →
    pool.methodRef i = .ok ref →
    Spells pool (opcode :: Bytes.be16 i) opcode false (.invokeStatic ref)

/-- What the opcodes mean that branch over a distance of 16 bits. -/
def branch? (opcode : UInt8) : Option (Int32 → Operation) :=
  match opcode with
  | 0x99 => some (.branch (.zero .eq))
  | 0x9A => some (.branch (.zero .ne))
  | 0x9B => some (.branch (.zero .lt))
  | 0x9C => some (.branch (.zero .ge))
  | 0x9D => some (.branch (.zero .gt))
  | 0x9E => some (.branch (.zero .le))
  | 0x9F => some (.branch (.compare .eq))
  | 0xA0 => some (.branch (.compare .ne))
  | 0xA1 => some (.branch (.compare .lt))
  | 0xA2 => some (.branch (.compare .ge))
  | 0xA3 => some (.branch (.compare .gt))
  | 0xA4 => some (.branch (.compare .le))
  | 0xA7 => some .goto
  | 0xC6 => some (.branch .isNull)
  | 0xC7 => some (.branch .isNonNull)
  | _ => none

theorem layout_branch {opcode : UInt8} {make : Int32 → Operation} (h : branch? opcode = some make) :
    layout opcode = .short fun t => make t.toInt32 := by
  unfold branch? at h
  split at h <;> cases h <;> simp [layout, branchLayout, relation, Relation.all]

theorem branches_branch {opcode : UInt8} {make : Int32 → Operation}
    (h : branch? opcode = some make) (t : Int32) : (make t).branches = [t] := by
  unfold branch? at h
  split at h <;> cases h <;> rfl

/-- Whether the operand of the opcode is a number of 16 bits. -/
def takesShort (opcode : UInt8) : Bool :=
  match layout opcode with
  | .short _ => true
  | _ => false

/-- All opcodes that take such a number branch, but for the one that pushes it. -/
theorem isSome_branch? {opcode : UInt8} (h : takesShort opcode = true) (hne : opcode ≠ 0x11) :
    (branch? opcode).isSome := by
  have hall : ∀ n : Fin 256, takesShort (UInt8.ofNat n) = true → UInt8.ofNat n ≠ 0x11 →
      (branch? (UInt8.ofNat n)).isSome := by decide +kernel
  have hopcode := hall ⟨opcode.toNat, opcode.toNat_lt⟩
  rw [UInt8.ofNat_toNat] at hopcode
  exact hopcode h hne

/-! ## Decoding what is spelled -/

section

variable {pool : Pool} {opcode : UInt8} {bs : Bytes} {op : Operation}

theorem ne_wideOpcode (h : layout opcode ≠ .unsupported Text.empty) : opcode ≠ wideOpcode := by
  rintro rfl
  exact h (by simp [layout, wideOpcode])

theorem next_operation (hne : layout opcode ≠ .unsupported Text.empty) (offset : Nat)
    (h : Consumes (operation pool offset opcode) bs op) (rest : Bytes) :
    next pool ⟨opcode :: bs ++ rest, offset⟩ =
      .ok (⟨offset, (opcode :: bs).length, opcode, false, op⟩,
        ⟨rest, offset + (opcode :: bs).length⟩) := by
  have hsize : offset + (opcode :: bs).length = offset + 1 + bs.length := by
    rw [List.length_cons]
    omega
  have hdiff : (opcode :: bs).length = offset + 1 + bs.length - offset := by omega
  rw [hsize, hdiff]
  change (if opcode = wideOpcode then _ else _ : Reader Error Instruction)
    ⟨bs ++ rest, offset + 1⟩ = _
  rw [if_neg (ne_wideOpcode hne)]
  exact bind_eq_ok.mpr ⟨(op, ⟨rest, offset + 1 + bs.length⟩), h rest (offset + 1), rfl⟩

theorem next_wide (offset : Nat) (h : Consumes (wideOperation offset opcode) bs op) (rest : Bytes) :
    next pool ⟨wideOpcode :: opcode :: bs ++ rest, offset⟩ =
      .ok (⟨offset, (wideOpcode :: opcode :: bs).length, opcode, true, op⟩,
        ⟨rest, offset + (wideOpcode :: opcode :: bs).length⟩) := by
  have hsize : offset + (wideOpcode :: opcode :: bs).length = offset + 2 + bs.length := by
    rw [List.length_cons, List.length_cons]
    omega
  have hdiff : (wideOpcode :: opcode :: bs).length = offset + 2 + bs.length - offset := by omega
  rw [hsize, hdiff]
  exact bind_eq_ok.mpr ⟨(op, ⟨rest, offset + 2 + bs.length⟩), h rest (offset + 2), rfl⟩

/-- Reading operands and resolving what they refer to. -/
theorem consumes_operand {α : Type} {r : Reader Shortage α} {a : α} (h : Consumes r bs a)
    (name : Text) (offset : Nat) : Consumes (operand name offset r) bs a :=
  h.mapError _

theorem consumes_resolve {α : Type} {x : Except Pool.Error α} {a : α} (h : x = .ok a) (name : Text)
    (offset : Nat) : Consumes (resolve name offset x) [] a := by
  subst h
  exact consumes_pure a

theorem Loads.consumes {i : PoolIndex} {c : Constant} (h : Loads pool i c) (offset : Nat) :
    Consumes (constant pool opcode offset i) [] (.const c) := by
  cases h with
  | int hget | float hget =>
    refine (consumes_resolve (Pool.expect_of_get hget ?_) _ _).andThen (consumes_pure _)
    simp [loadableTags, Entry.tag]

theorem LoadsWide.consumes {i : PoolIndex} {c : Constant} (h : LoadsWide pool i c) (offset : Nat) :
    Consumes (wideConstant pool opcode offset i) [] (.const c) := by
  cases h with
  | long hget | double hget =>
    refine (consumes_resolve (Pool.expect_of_get hget ?_) _ _).andThen (consumes_pure _)
    simp [Entry.tag]

theorem Spells.ne_nil {wide : Bool} (h : Spells pool bs opcode wide op) : bs ≠ [] := by
  cases h <;> exact List.cons_ne_nil _ _

/-- What is spelled is decoded, wherever it stands and whatever follows. -/
theorem Spells.next {wide : Bool} (h : Spells pool bs opcode wide op) (offset : Nat)
    (rest : Bytes) : Instruction.next pool ⟨bs ++ rest, offset⟩ =
      .ok (⟨offset, bs.length, opcode, wide, op⟩, ⟨rest, offset + bs.length⟩) := by
  cases h with
  | plain h =>
    refine next_operation (by simp [h]) offset ?_ rest
    unfold operation
    rw [h]
    exact consumes_pure op
  | byte v h =>
    refine next_operation (by simp [h]) offset ?_ rest
    unfold operation
    rw [h]
    exact (consumes_operand (Cursor.consumes_i8 v) _ _).map _
  | short v h =>
    refine next_operation (by simp [h]) offset ?_ rest
    unfold operation
    rw [h]
    exact (consumes_operand (Cursor.consumes_i16 v) _ _).map _
  | word v h =>
    refine next_operation (by simp [h]) offset ?_ rest
    unfold operation
    rw [h]
    exact (consumes_operand (Cursor.consumes_i32 v) _ _).map _
  | slot n h =>
    refine next_operation (by simp [h]) offset ?_ rest
    unfold operation
    rw [h]
    exact (consumes_operand (Cursor.consumes_u8 n) _ _).andThen (consumes_pure _)
  | wideSlot n h =>
    refine next_wide offset ?_ rest
    unfold wideOperation
    rw [h]
    exact (consumes_operand (Cursor.consumes_u16 n) _ _).map _
  | increment n delta h =>
    refine next_operation (by simp [h]) offset ?_ rest
    unfold operation
    rw [h]
    exact (consumes_operand (Cursor.consumes_u8 n) _ _).bind
      ((consumes_operand (Cursor.consumes_i8 delta) _ _).andThen (consumes_pure _))
  | wideIncrement n delta h =>
    refine next_wide offset ?_ rest
    unfold wideOperation
    rw [h]
    exact (consumes_operand (Cursor.consumes_u16 n) _ _).bind
      ((consumes_operand (Cursor.consumes_i16 delta) _ _).andThen (consumes_pure _))
  | constant8 i h hload =>
    refine next_operation (by simp [h]) offset ?_ rest
    unfold operation
    rw [h]
    exact (consumes_operand (Cursor.consumes_u8 i) _ _).andThen (hload.consumes offset)
  | constant16 i h hload =>
    refine next_operation (by simp [h]) offset ?_ rest
    unfold operation
    rw [h]
    exact (consumes_operand (Cursor.consumes_u16 i) _ _).andThen (hload.consumes offset)
  | wideConstant i h hload =>
    refine next_operation (by simp [h]) offset ?_ rest
    unfold operation
    rw [h]
    exact (consumes_operand (Cursor.consumes_u16 i) _ _).andThen (hload.consumes offset)
  | field i h href =>
    refine next_operation (by simp [h]) offset ?_ rest
    unfold operation
    rw [h]
    exact (consumes_operand (Cursor.consumes_u16 i) _ _).andThen ((consumes_resolve href _ _).map _)
  | method i h href =>
    refine next_operation (by simp [h]) offset ?_ rest
    unfold operation
    rw [h]
    exact (consumes_operand (Cursor.consumes_u16 i) _ _).andThen ((consumes_resolve href _ _).map _)

/-! ## Decoding switches -/

/-- Items of one size are all there and are read one by one. -/
theorem consumes_switchItems {α : Type} {r : Reader Shortage α} {write : α → Bytes} {size : Nat}
    (hr : ∀ a, Consumes r (write a) a) (hsize : ∀ a, (write a).length = size) (as : List α)
    (name what : Text) (offset : Nat) :
    Consumes (switchItems name what offset as.length size r) (as.flatMap write) as := by
  have hlength : (as.flatMap write).length = as.length * size := by
    rw [List.length_flatMap, List.map_congr_left fun a _ => hsize a]
    simp
  have hread : Consumes (operand name offset (Reader.list as.length fun _ => r))
      (as.flatMap write) as :=
    (Consumes.listFrom (List.forall₂_same.mpr fun a _ _ => hr a) 0).mapError _
  intro rest start
  unfold switchItems
  rw [if_neg]
  · exact hread rest start
  · rw [List.length_take, List.length_append, hlength]
    omega

theorem length_int (v : Int32) : (Assembly.int v).length = 4 := rfl

/-- What follows the opcode of a switch over consecutive keys. -/
def tableBytes (pad : Bytes) (default low high : Int32) (targets : List Int32) : Bytes :=
  pad ++ (Assembly.int default ++ (Assembly.int low ++ Assembly.int high)) ++
    targets.flatMap Assembly.int

theorem consumes_tableSwitch {offset : Nat} {pad : Bytes} (hpad : pad.length = padding offset)
    {default low high : Int32} {targets : List Int32}
    (hcount : (targets.length : Int) = high.toInt - low.toInt + 1) (hne : targets ≠ []) :
    Consumes (tableSwitch offset) (tableBytes pad default low high targets)
      (.tableSwitch default low targets) := by
  have hhead : Consumes (operand "tableswitch" offset do
      let _ ← Cursor.take (padding offset)
      let default ← Cursor.i32
      let low ← Cursor.i32
      let high ← Cursor.i32
      pure (default, low, high))
      (pad ++ (Assembly.int default ++ (Assembly.int low ++ Assembly.int high)))
      (default, low, high) := by
    rw [← hpad]
    exact consumes_operand ((Cursor.consumes_take pad).bind ((Cursor.consumes_i32 default).bind
      ((Cursor.consumes_i32 low).bind ((Cursor.consumes_i32 high).map
        fun high => (default, low, high))))) _ _
  have hpos := List.length_pos_iff.mpr hne
  have hrange : ¬ low > high := by
    rw [gt_iff_lt, Int32.lt_iff_toInt_lt]
    omega
  have htargets : (high.toInt - low.toInt + 1).toNat = targets.length := by omega
  refine hhead.bind ?_
  dsimp only
  rw [if_neg hrange, htargets]
  exact (consumes_switchItems Cursor.consumes_i32 length_int targets _ _ _).map _

/-- A key and the target it leads to. -/
def pairBytes (pair : Int32 × Int32) : Bytes := Assembly.int pair.1 ++ Assembly.int pair.2

theorem consumes_lookupPair (pair : Int32 × Int32) :
    Consumes lookupPair (pairBytes pair) pair :=
  (Cursor.consumes_i32 pair.1).bind ((Cursor.consumes_i32 pair.2).map fun target => (pair.1, target))

/-- What follows the opcode of a switch over any keys. -/
def lookupBytes (pad : Bytes) (default : Int32) (cases : List (Int32 × Int32)) : Bytes :=
  pad ++ (Assembly.int default ++ Assembly.int (Int32.ofNat cases.length)) ++
    cases.flatMap pairBytes

theorem consumes_lookupSwitch {offset : Nat} {pad : Bytes} (hpad : pad.length = padding offset)
    {default : Int32} {cases : List (Int32 × Int32)} (hcount : cases.length < 2 ^ 31) :
    Consumes (lookupSwitch offset) (lookupBytes pad default cases)
      (.lookupSwitch default cases) := by
  have hhead : Consumes (operand "lookupswitch" offset do
      let _ ← Cursor.take (padding offset)
      let default ← Cursor.i32
      let count ← Cursor.i32
      pure (default, count))
      (pad ++ (Assembly.int default ++ Assembly.int (Int32.ofNat cases.length)))
      (default, Int32.ofNat cases.length) := by
    rw [← hpad]
    exact consumes_operand ((Cursor.consumes_take pad).bind ((Cursor.consumes_i32 default).bind
      ((Cursor.consumes_i32 _).map fun count => (default, count)))) _ _
  have hint : (Int32.ofNat cases.length).toInt = cases.length := Int32.toInt_ofNat_of_lt hcount
  have hrange : ¬ Int32.ofNat cases.length < 0 := by
    rw [Int32.lt_iff_toInt_lt, hint]
    simp
  refine hhead.bind ?_
  dsimp only
  rw [if_neg hrange, hint, Int.toNat_natCast]
  exact (consumes_switchItems consumes_lookupPair (fun _ => rfl) cases _ _ _).map _

theorem next_tableSwitch (pool : Pool) {offset : Nat} {pad : Bytes}
    (hpad : pad.length = padding offset) (default : Int32) {low high : Int32}
    {targets : List Int32} (hcount : (targets.length : Int) = high.toInt - low.toInt + 1)
    (hne : targets ≠ []) (rest : Bytes) :
    next pool ⟨0xAA :: tableBytes pad default low high targets ++ rest, offset⟩ =
      .ok (⟨offset, (0xAA :: tableBytes pad default low high targets).length, 0xAA, false,
        .tableSwitch default low targets⟩,
        ⟨rest, offset + (0xAA :: tableBytes pad default low high targets).length⟩) := by
  have hlayout : layout 0xAA = .tableSwitch := by simp [layout]
  refine next_operation (by simp [hlayout]) offset ?_ rest
  unfold operation
  rw [hlayout]
  exact consumes_tableSwitch hpad hcount hne

theorem next_lookupSwitch (pool : Pool) {offset : Nat} {pad : Bytes}
    (hpad : pad.length = padding offset) (default : Int32) {cases : List (Int32 × Int32)}
    (hcount : cases.length < 2 ^ 31) (rest : Bytes) :
    next pool ⟨0xAB :: lookupBytes pad default cases ++ rest, offset⟩ =
      .ok (⟨offset, (0xAB :: lookupBytes pad default cases).length, 0xAB, false,
        .lookupSwitch default cases⟩,
        ⟨rest, offset + (0xAB :: lookupBytes pad default cases).length⟩) := by
  have hlayout : layout 0xAB = .lookupSwitch := by simp [layout]
  refine next_operation (by simp [hlayout]) offset ?_ rest
  unfold operation
  rw [hlayout]
  exact consumes_lookupSwitch hpad hcount

end

end ClassWasm.Instruction
