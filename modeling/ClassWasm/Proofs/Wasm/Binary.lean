/-
  Reading code in binary form. The reader follows the binary format of WebAssembly and knows nothing
  of how code is written. `read_encodeAll`: it reads back whatever instructions have been written,
  up to and with the opcode that closes them, and not a byte more. The only instructions that cannot
  be written are tables of branches longer than a count of 32 bits says, and null references of a
  type that is no reference type (`Writable`).
-/
import ClassWasm.Proofs.Cursor
import ClassWasm.Wasm.Instr

namespace ClassWasm.Wasm

namespace Binary

/-- Reads off the front of some bytes. -/
abbrev Parse := StateT Bytes Option

def readByte : Parse UInt8
  | [] => none
  | b :: bs => some (b, bs)

/-- An unsigned number of at most `bits` bits. -/
def readUnsigned (bits : Nat) : Parse Nat
  | [] => none
  | b :: bs =>
    if b.toNat < 128 then
      if b.toNat < 2 ^ bits then some (b.toNat, bs) else none
    else if 7 < bits then do
      let (high, bs) ← readUnsigned (bits - 7) bs
      some (128 * high + (b.toNat - 128), bs)
    else none

/-- A signed number of at most `bits` bits. -/
def readSigned (bits : Nat) : Parse Int
  | [] => none
  | b :: bs =>
    if b.toNat < 64 then
      if (b.toNat : Int) < 2 ^ (bits - 1) then some (b.toNat, bs) else none
    else if b.toNat < 128 then
      if -2 ^ (bits - 1) ≤ (b.toNat : Int) - 128 then some (b.toNat - 128, bs) else none
    else if 7 < bits then do
      let (high, bs) ← readSigned (bits - 7) bs
      some (128 * high + (b.toNat - 128), bs)
    else none

/-- A number of `count` bytes, the lowest first. -/
def readFixed : (count : Nat) → Parse Nat
  | 0 => pure 0
  | count + 1 => do
    let low ← readByte
    let high ← readFixed count
    pure (low.toNat + 256 * high)

def readTimes {α : Type} (item : Parse α) : (count : Nat) → Parse (List α)
  | 0 => pure []
  | count + 1 => do
    let a ← item
    let as ← readTimes item count
    pure (a :: as)

def readVector {α : Type} (item : Parse α) : Parse (List α) := do
  let count ← readUnsigned 32
  readTimes item count

def readIndex : Parse UInt32 := do
  let i ← readUnsigned 32
  pure (UInt32.ofNat i)

/-- The type that a byte stands for. -/
def valType? (b : UInt8) : Option ValType :=
  match b.toNat with
  | 0x7F => some .i32
  | 0x7E => some .i64
  | 0x7D => some .f32
  | 0x7C => some .f64
  | 0x70 => some .funcref
  | 0x6F => some .externref
  | _ => none

def readRefType : Parse ValType := do
  let b ← readByte
  match b.toNat with
  | 0x70 => pure .funcref
  | 0x6F => pure .externref
  | _ => failure

/-- What a block takes and gives: a single byte that says so, or the number of a function type. -/
def readBlockType : Parse BlockType := fun bs =>
  match bs with
  | [] => none
  | b :: rest =>
    if b.toNat = 0x40 then some (.empty, rest)
    else match valType? b with
      | some t => some (.value t, rest)
      | none => do
        let (v, rest) ← readSigned 33 bs
        if 0 ≤ v then some (.func (UInt32.ofNat v.toNat), rest) else none

/-- Instructions that are an opcode and nothing more. -/
def numeric? (opcode : Nat) : Option Plain :=
  match opcode with
  | 0x45 => some .i32Eqz
  | 0x46 => some (.intCompare .w32 .eq)
  | 0x47 => some (.intCompare .w32 .ne)
  | 0x48 => some (.intCompare .w32 .ltS)
  | 0x4A => some (.intCompare .w32 .gtS)
  | 0x4C => some (.intCompare .w32 .leS)
  | 0x4E => some (.intCompare .w32 .geS)
  | 0x51 => some (.intCompare .w64 .eq)
  | 0x52 => some (.intCompare .w64 .ne)
  | 0x53 => some (.intCompare .w64 .ltS)
  | 0x55 => some (.intCompare .w64 .gtS)
  | 0x57 => some (.intCompare .w64 .leS)
  | 0x59 => some (.intCompare .w64 .geS)
  | 0x5D => some (.floatCompare .w32 .lt)
  | 0x5E => some (.floatCompare .w32 .gt)
  | 0x5F => some (.floatCompare .w32 .le)
  | 0x60 => some (.floatCompare .w32 .ge)
  | 0x63 => some (.floatCompare .w64 .lt)
  | 0x64 => some (.floatCompare .w64 .gt)
  | 0x65 => some (.floatCompare .w64 .le)
  | 0x66 => some (.floatCompare .w64 .ge)
  | 0x6A => some (.intBinary .w32 .add)
  | 0x6B => some (.intBinary .w32 .sub)
  | 0x6C => some (.intBinary .w32 .mul)
  | 0x6D => some (.intBinary .w32 .divS)
  | 0x6F => some (.intBinary .w32 .remS)
  | 0x71 => some (.intBinary .w32 .and)
  | 0x72 => some (.intBinary .w32 .or)
  | 0x73 => some (.intBinary .w32 .xor)
  | 0x74 => some (.intBinary .w32 .shl)
  | 0x75 => some (.intBinary .w32 .shrS)
  | 0x76 => some (.intBinary .w32 .shrU)
  | 0x7C => some (.intBinary .w64 .add)
  | 0x7D => some (.intBinary .w64 .sub)
  | 0x7E => some (.intBinary .w64 .mul)
  | 0x7F => some (.intBinary .w64 .divS)
  | 0x81 => some (.intBinary .w64 .remS)
  | 0x83 => some (.intBinary .w64 .and)
  | 0x84 => some (.intBinary .w64 .or)
  | 0x85 => some (.intBinary .w64 .xor)
  | 0x86 => some (.intBinary .w64 .shl)
  | 0x87 => some (.intBinary .w64 .shrS)
  | 0x88 => some (.intBinary .w64 .shrU)
  | 0x8C => some (.floatNeg .w32)
  | 0x92 => some (.floatBinary .w32 .add)
  | 0x93 => some (.floatBinary .w32 .sub)
  | 0x94 => some (.floatBinary .w32 .mul)
  | 0x95 => some (.floatBinary .w32 .div)
  | 0x9A => some (.floatNeg .w64)
  | 0xA0 => some (.floatBinary .w64 .add)
  | 0xA1 => some (.floatBinary .w64 .sub)
  | 0xA2 => some (.floatBinary .w64 .mul)
  | 0xA3 => some (.floatBinary .w64 .div)
  | 0xA7 => some (.convert .wrap)
  | 0xAC => some (.convert .extendS)
  | 0xAD => some (.convert .extendU)
  | 0xB2 => some (.convert (.toFloatS .w32 .w32))
  | 0xB4 => some (.convert (.toFloatS .w64 .w32))
  | 0xB6 => some (.convert .demote)
  | 0xB7 => some (.convert (.toFloatS .w32 .w64))
  | 0xB9 => some (.convert (.toFloatS .w64 .w64))
  | 0xBB => some (.convert .promote)
  | 0xC0 => some (.convert .extend8S)
  | 0xC1 => some (.convert .extend16S)
  | 0xD1 => some .refIsNull
  | _ => none

/-- Truncations that saturate, by the number behind their common opcode. -/
def truncation? (number : Nat) : Option Plain :=
  match number with
  | 0 => some (.convert (.truncSatS .w32 .w32))
  | 2 => some (.convert (.truncSatS .w64 .w32))
  | 4 => some (.convert (.truncSatS .w32 .w64))
  | 6 => some (.convert (.truncSatS .w64 .w64))
  | _ => none

/-- What stands behind the opcode of an instruction that holds no others. -/
def readPlain (opcode : UInt8) : Parse Plain :=
  match opcode.toNat with
  | 0x00 => pure .unreachable
  | 0x0C => .br <$> readIndex
  | 0x0D => .brIf <$> readIndex
  | 0x0E => do
    let ds ← readVector readIndex
    .brTable ds <$> readIndex
  | 0x0F => pure .ret
  | 0x10 => .call <$> readIndex
  | 0x1A => pure .drop
  | 0x1B => pure .select
  | 0x20 => .localGet <$> readIndex
  | 0x21 => .localSet <$> readIndex
  | 0x22 => .localTee <$> readIndex
  | 0x23 => .globalGet <$> readIndex
  | 0x24 => .globalSet <$> readIndex
  | 0x41 => (fun v => .i32Const (Int32.ofInt v)) <$> readSigned 32
  | 0x42 => (fun v => .i64Const (Int64.ofInt v)) <$> readSigned 64
  | 0x43 => (fun n => .f32Const (UInt32.ofNat n)) <$> readFixed 4
  | 0x44 => (fun n => .f64Const (UInt64.ofNat n)) <$> readFixed 8
  | 0xD0 => .refNull <$> readRefType
  | 0xFC => do
    let number ← readUnsigned 32
    fun bs => (truncation? number).map (·, bs)
  | n => fun bs => (numeric? n).map (·, bs)

/-- Instructions up to the `end` that closes them. -/
def readClosed (inner : Parse (List Instr × UInt8)) : Parse (List Instr) := do
  let (body, stop) ← inner
  if stop.toNat = 0x0B then pure body else failure

/-- What stands behind the opcode of an instruction. Instructions inside it are read with `inner`,
which gives the opcode that they stop at. -/
def readInstr (inner : Parse (List Instr × UInt8)) (opcode : UInt8) : Parse Instr :=
  match opcode.toNat with
  | 0x02 => do
    let t ← readBlockType
    .block t <$> readClosed inner
  | 0x03 => do
    let t ← readBlockType
    .loop t <$> readClosed inner
  | 0x04 => do
    let t ← readBlockType
    let (body, stop) ← inner
    if stop.toNat = 0x05 then .ifElse t body <$> readClosed inner
    else pure (.ifThen t body)
  | _ => .plain <$> readPlain opcode

/-- Instructions up to an `end` or `else`, and which of them it is. Every instruction takes a byte,
so as many steps as there are bytes are enough `fuel`. -/
def readInstrs : (fuel : Nat) → Parse (List Instr × UInt8)
  | 0 => failure
  | fuel + 1 => do
    let opcode ← readByte
    if opcode.toNat = 0x0B ∨ opcode.toNat = 0x05 then pure ([], opcode)
    else
      let i ← readInstr (readInstrs fuel) opcode
      let (is, stop) ← readInstrs fuel
      pure (i :: is, stop)

/-- The body of a function: instructions with the `end` that closes them, and nothing behind it. -/
def readBody (bs : Bytes) : Option (List Instr) := do
  let (body, rest) ← readClosed (readInstrs bs.length) bs
  if rest = [] then some body else none

/-! ## Numbers -/

/-- The bytes `bs` read as `a`, whatever follows them. -/
def Reads {α : Type} (p : Parse α) (bs : Bytes) (a : α) : Prop := ∀ rest, p (bs ++ rest) = some (a, rest)

variable {α β : Type}

theorem reads_pure (a : α) : Reads (pure a) [] a := fun _ => rfl

theorem Reads.bind {p : Parse α} {f : α → Parse β} {bs bs' : Bytes} {a : α} {b : β}
    (hp : Reads p bs a) (hf : Reads (f a) bs' b) : Reads (p >>= f) (bs ++ bs') b := by
  intro rest
  change Option.bind (p (bs ++ bs' ++ rest)) (fun x => f x.1 x.2) = _
  rw [List.append_assoc, hp]
  exact hf rest

theorem Reads.map {p : Parse α} {bs : Bytes} {a : α} (hp : Reads p bs a) (f : α → β) :
    Reads (f <$> p) bs (f a) := by
  intro rest
  change Option.bind (p (bs ++ rest)) (fun x => some (f x.1, x.2)) = _
  rw [hp]
  rfl

/-- What follows need not read anything. -/
theorem Reads.andThen {p : Parse α} {f : α → Parse β} {bs : Bytes} {a : α} {b : β}
    (hp : Reads p bs a) (hf : Reads (f a) [] b) : Reads (p >>= f) bs b := by
  have hbind := hp.bind hf
  rwa [List.append_nil] at hbind

theorem reads_byte (b : UInt8) : Reads readByte [b] b := fun _ => rfl

theorem toNat_ofNat_byte {n : Nat} (h : n < 256) : (UInt8.ofNat n).toNat = n :=
  UInt8.toNat_ofNat_of_lt' h

theorem reads_unsigned (bits : Nat) {n : Nat} (h : n < 2 ^ bits) :
    Reads (readUnsigned bits) (Leb128.unsigned n) n := by
  induction n using Leb128.unsigned.induct generalizing bits with
  | case1 n hn =>
    intro rest
    unfold Leb128.unsigned
    rw [if_pos hn, List.singleton_append, readUnsigned, toNat_ofNat_byte (by omega), if_pos hn,
      if_pos h]
  | case2 n hn ih =>
    have hbits : 7 < bits := by
      by_contra hle
      have : 2 ^ bits ≤ 2 ^ 7 := Nat.pow_le_pow_right (by decide) (by omega)
      omega
    have hpow : 2 ^ bits = 128 * 2 ^ (bits - 7) := by
      rw [show (128 : Nat) = 2 ^ 7 from rfl, ← Nat.pow_add]
      congr 1
      omega
    intro rest
    unfold Leb128.unsigned
    rw [if_neg hn, List.cons_append, readUnsigned, toNat_ofNat_byte (by omega), if_neg (by omega),
      if_pos hbits, ih (bits - 7) (by omega) rest]
    simp only [Option.bind_eq_bind, Option.bind_some, Option.some.injEq, Prod.mk.injEq, and_true]
    omega

theorem reads_signed (bits : Nat) {v : Int} (hbits : 0 < bits) (hlow : -2 ^ (bits - 1) ≤ v)
    (hhigh : v < 2 ^ (bits - 1)) : Reads (readSigned bits) (Leb128.signed v) v := by
  induction v using Leb128.signed.induct generalizing bits with
  | case1 v hlast =>
    intro rest
    unfold Leb128.signed
    simp only [Leb128.isLast, Bool.or_eq_true, Bool.and_eq_true, decide_eq_true_eq] at hlast
    rw [if_pos (by simpa [Leb128.isLast] using hlast), List.singleton_append, readSigned,
      toNat_ofNat_byte (by omega)]
    rcases hlast with ⟨hrest, hgroup⟩ | ⟨hrest, hgroup⟩
    · rw [if_pos (by omega), if_pos (by omega)]
      congr 2
      omega
    · rw [if_neg (by omega), if_pos (by omega), if_pos (by omega)]
      congr 2
      omega
  | case2 v hlast ih =>
    have hbits' : 7 < bits := by
      by_contra hle
      have : (2 : Int) ^ (bits - 1) ≤ 2 ^ 6 := by
        exact_mod_cast Nat.pow_le_pow_right (n := 2) (by decide) (by omega : bits - 1 ≤ 6)
      simp only [Leb128.isLast, Bool.or_eq_true, Bool.and_eq_true, decide_eq_true_eq] at hlast
      omega
    have hpow : (2 : Int) ^ (bits - 1) = 128 * 2 ^ (bits - 7 - 1) := by
      rw [show (128 : Int) = 2 ^ 7 from rfl, ← pow_add]
      congr 1
      omega
    intro rest
    unfold Leb128.signed
    rw [if_neg hlast, List.cons_append, readSigned, toNat_ofNat_byte (by omega), if_neg (by omega),
      if_neg (by omega), if_pos hbits', ih (bits - 7) (by omega) (by omega) (by omega) rest]
    simp only [Option.bind_eq_bind, Option.bind_some, Option.some.injEq, Prod.mk.injEq, and_true]
    omega

/-- Bytes as a number, the lowest first. -/
def fixed : Bytes → Nat
  | [] => 0
  | b :: bs => b.toNat + 256 * fixed bs

theorem reads_fixed (bs : Bytes) : Reads (readFixed bs.length) bs (fixed bs) := by
  induction bs with
  | nil => exact reads_pure 0
  | cons b bs ih =>
    exact (reads_byte b).bind (ih.andThen (reads_pure _))

theorem fixed_append (bs bs' : Bytes) :
    fixed (bs ++ bs') = fixed bs + 256 ^ bs.length * fixed bs' := by
  induction bs with
  | nil => simp [fixed]
  | cons b bs ih =>
    rw [List.cons_append, fixed, fixed, ih, List.length_cons, pow_succ]
    ring

theorem fixed_reverse (bs : Bytes) : fixed bs.reverse = Bytes.big bs := by
  induction bs with
  | nil => rfl
  | cons b bs ih =>
    have hcons : Bytes.big (b :: bs) = Bytes.big [b] * 256 ^ bs.length + Bytes.big bs :=
      Bytes.big_append [b] bs
    rw [List.reverse_cons, fixed_append, ih, List.length_reverse, hcons]
    simp [fixed, Bytes.big]
    ring

theorem fixed_le32 (n : UInt32) : fixed (Bytes.le32 n) = n.toNat :=
  (fixed_reverse _).trans (Bytes.big_be32 n)

theorem fixed_le64 (n : UInt64) : fixed (Bytes.le64 n) = n.toNat :=
  (fixed_reverse _).trans (Bytes.big_be64 n)

theorem reads_index (i : UInt32) : Reads readIndex (Leb128.unsigned i.toNat) i := by
  have := (reads_unsigned 32 i.toNat_lt).map UInt32.ofNat
  rwa [UInt32.ofNat_toNat] at this

theorem reads_times {item : Parse α} {encode : α → Bytes} {as : List α}
    (h : ∀ a ∈ as, Reads item (encode a) a) :
    Reads (readTimes item as.length) (as.flatMap encode) as := by
  induction as with
  | nil => exact reads_pure []
  | cons a as ih =>
    have hrest := ih fun b hb => h b (List.mem_cons_of_mem a hb)
    exact (h a List.mem_cons_self).bind (hrest.andThen (reads_pure _))

theorem reads_vector {item : Parse α} {encode : α → Bytes} {as : List α}
    (h : ∀ a ∈ as, Reads item (encode a) a) (hlen : as.length < 2 ^ 32) :
    Reads (readVector item) (vector encode as) as :=
  (reads_unsigned 32 hlen).bind (reads_times h)

/-! ## Types -/

/-- The number of a function type starts with no byte that is a type by itself. -/
theorem signed_head_of_nonneg {v : Int} (h : 0 ≤ v) :
    ∃ b bs, Leb128.signed v = b :: bs ∧ (b.toNat < 64 ∨ 128 ≤ b.toNat) := by
  unfold Leb128.signed
  split
  · next hlast =>
    simp only [Leb128.isLast, Bool.or_eq_true, Bool.and_eq_true, decide_eq_true_eq] at hlast
    refine ⟨_, _, rfl, .inl ?_⟩
    rw [toNat_ofNat_byte (by omega)]
    omega
  · refine ⟨_, _, rfl, .inr ?_⟩
    rw [toNat_ofNat_byte (by omega)]
    omega

theorem valType?_eq_none {b : UInt8} (h : b.toNat < 64 ∨ 128 ≤ b.toNat) : valType? b = none := by
  unfold valType?
  split <;> first | omega | rfl

theorem signed_of_single {v : Int} (h : -64 ≤ v ∧ v < 0) :
    Leb128.signed v = [UInt8.ofNat (v + 128).toNat] := by
  unfold Leb128.signed
  rw [if_pos]
  · congr 3
    omega
  · simp only [Leb128.isLast, Bool.or_eq_true, Bool.and_eq_true, decide_eq_true_eq]
    omega

theorem reads_blockType (t : BlockType) : Reads readBlockType t.encode t := by
  intro rest
  cases t with
  | empty =>
    unfold BlockType.encode
    rw [signed_of_single (by decide)]
    rfl
  | value t =>
    unfold BlockType.encode
    rw [signed_of_single (by cases t <;> decide)]
    cases t <;> rfl
  | func i =>
    have hi := i.toNat_lt
    have hread := reads_signed 33 (v := i.toNat) (by decide) (by omega) (by omega) rest
    obtain ⟨b, bs, hb, hrange⟩ := signed_head_of_nonneg (v := i.toNat) (by omega)
    unfold BlockType.encode BlockType.code
    rw [hb, List.cons_append] at hread ⊢
    unfold readBlockType
    dsimp only
    rw [if_neg (by omega), valType?_eq_none hrange]
    dsimp only
    rw [hread]
    simp

end Binary

/-! ## Instructions -/

/-- Whether an instruction has a binary form: a table is no longer than its count can say, and null
is of a reference type. -/
def Plain.Writable : Plain → Prop
  | brTable ds _ => ds.length < 2 ^ 32
  | refNull t => t = .funcref ∨ t = .externref
  | _ => True

mutual

def Instr.Writable : Instr → Prop
  | .plain p => p.Writable
  | .block _ body | .loop _ body | .ifThen _ body => Instr.AllWritable body
  | .ifElse _ body other => Instr.AllWritable body ∧ Instr.AllWritable other

def Instr.AllWritable : List Instr → Prop
  | [] => True
  | i :: is => i.Writable ∧ Instr.AllWritable is

end

namespace Binary

/-- An opcode that neither opens nor closes anything. -/
def Inner (opcode : UInt8) : Prop :=
  opcode.toNat ≠ 0x02 ∧ opcode.toNat ≠ 0x03 ∧ opcode.toNat ≠ 0x04 ∧ opcode.toNat ≠ 0x05 ∧
    opcode.toNat ≠ 0x0B

instance (opcode : UInt8) : Decidable (Inner opcode) := by
  unfold Inner
  infer_instance

theorem reads_plain {p : Plain} (h : p.Writable) :
    ∃ opcode bs, p.encode = opcode :: bs ∧ Inner opcode ∧ Reads (readPlain opcode) bs p := by
  have hsingle {opcode : UInt8} (he : p.encode = [opcode]) (hi : Inner opcode)
      (hr : ∀ rest, readPlain opcode rest = some (p, rest)) :
      ∃ opcode bs, p.encode = opcode :: bs ∧ Inner opcode ∧ Reads (readPlain opcode) bs p :=
    ⟨opcode, [], he, hi, hr⟩
  cases p with
  | unreachable | ret | drop | select | i32Eqz | refIsNull =>
    exact hsingle rfl (by decide) fun _ => rfl
  | br i | brIf i | call i | localGet i | localSet i | localTee i | globalGet i | globalSet i =>
    exact ⟨_, _, rfl, by decide, (reads_index i).map _⟩
  | brTable ds d =>
    refine ⟨_, _, rfl, by decide, ?_⟩
    exact (reads_vector (fun i _ => reads_index i) h).bind ((reads_index d).map (Plain.brTable ds))
  | i32Const v =>
    refine ⟨_, _, rfl, by decide, ?_⟩
    have hlow := v.le_toInt
    have hhigh := v.toInt_lt
    have := (reads_signed 32 (by decide) hlow hhigh).map fun v => Plain.i32Const (Int32.ofInt v)
    rwa [Int32.ofInt_toInt] at this
  | i64Const v =>
    refine ⟨_, _, rfl, by decide, ?_⟩
    have hlow := v.le_toInt
    have hhigh := v.toInt_lt
    have := (reads_signed 64 (by decide) hlow hhigh).map fun v => Plain.i64Const (Int64.ofInt v)
    rwa [Int64.ofInt_toInt] at this
  | f32Const bits =>
    refine ⟨_, _, rfl, by decide, ?_⟩
    have := (reads_fixed (Bytes.le32 bits)).map fun n => Plain.f32Const (UInt32.ofNat n)
    rwa [fixed_le32, UInt32.ofNat_toNat] at this
  | f64Const bits =>
    refine ⟨_, _, rfl, by decide, ?_⟩
    have := (reads_fixed (Bytes.le64 bits)).map fun n => Plain.f64Const (UInt64.ofNat n)
    rwa [fixed_le64, UInt64.ofNat_toNat] at this
  | intBinary w op | intCompare w op | floatBinary w op | floatCompare w op =>
    cases w <;> cases op <;> exact hsingle rfl (by decide) fun _ => rfl
  | floatNeg w => cases w <;> exact hsingle rfl (by decide) fun _ => rfl
  | convert c =>
    cases c with
    | wrap | extendS | extendU | promote | demote | extend8S | extend16S =>
      exact hsingle rfl (by decide) fun _ => rfl
    | toFloatS v w => cases v <;> cases w <;> exact hsingle rfl (by decide) fun _ => rfl
    | truncSatS v w =>
      have hnumber (number : Nat) (hlt : number < 2 ^ 32) {p : Plain}
          (hp : truncation? number = some p) :
          Reads (readPlain 0xFC) (Leb128.unsigned number) p := by
        have hget : Reads (fun bs => (truncation? number).map (·, bs)) [] p := by
          intro rest
          rw [hp]
          rfl
        exact (reads_unsigned 32 hlt).andThen
          (f := fun number bs => (truncation? number).map (·, bs)) hget
      cases v <;> cases w <;> exact ⟨_, _, rfl, by decide, hnumber _ (by decide) rfl⟩
  | refNull t =>
    rcases h with rfl | rfl
    · exact ⟨_, _, rfl, by decide, fun _ => rfl⟩
    · exact ⟨_, _, rfl, by decide, fun _ => rfl⟩

/-- Instructions and the opcode that they stop at. -/
def ReadsUpto (inner : Parse (List Instr × UInt8)) (is : List Instr) : Prop :=
  ∀ stop : UInt8, stop.toNat = 0x0B ∨ stop.toNat = 0x05 →
    Reads inner (Instr.encodeAll is ++ [stop]) (is, stop)

theorem ReadsUpto.closed {inner : Parse (List Instr × UInt8)} {is : List Instr}
    (h : ReadsUpto inner is) :
    Reads (readClosed inner) (Instr.encodeAll is ++ [endOpcode]) is :=
  (h endOpcode (by decide)).andThen (f := fun r : List Instr × UInt8 =>
    if r.2.toNat = 0x0B then pure r.1 else failure) (reads_pure is)

mutual

theorem reads_instr {i : Instr} (h : i.Writable) :
    ∃ opcode bs, i.encode = opcode :: bs ∧ opcode.toNat ≠ 0x0B ∧ opcode.toNat ≠ 0x05 ∧
      ∀ fuel, bs.length ≤ fuel → Reads (readInstr (readInstrs fuel) opcode) bs i := by
  match i with
  | .plain p =>
    obtain ⟨opcode, bs, he, ⟨h2, h3, h4, h5, hB⟩, hr⟩ := reads_plain h
    refine ⟨opcode, bs, he, hB, h5, fun fuel _ => ?_⟩
    unfold readInstr
    split
    · next hop => exact absurd hop h2
    · next hop => exact absurd hop h3
    · next hop => exact absurd hop h4
    · exact hr.map _
  | .block t body =>
    refine ⟨0x02, t.encode ++ (Instr.encodeAll body ++ [endOpcode]), ?_, by decide, by decide,
      fun fuel hfuel => ?_⟩
    · simp [Instr.encode, opening, blockOpcode]
    · have hbody := reads_instrs (show Instr.AllWritable body from h) fuel (by simp at hfuel; omega)
      exact (reads_blockType t).bind (hbody.closed.map (Instr.block t))
  | .loop t body =>
    refine ⟨0x03, t.encode ++ (Instr.encodeAll body ++ [endOpcode]), ?_, by decide, by decide,
      fun fuel hfuel => ?_⟩
    · simp [Instr.encode, opening, loopOpcode]
    · have hbody := reads_instrs (show Instr.AllWritable body from h) fuel (by simp at hfuel; omega)
      exact (reads_blockType t).bind (hbody.closed.map (Instr.loop t))
  | .ifThen t body =>
    refine ⟨0x04, t.encode ++ (Instr.encodeAll body ++ [endOpcode]), ?_, by decide, by decide,
      fun fuel hfuel => ?_⟩
    · simp [Instr.encode, opening, ifOpcode]
    · have hbody := reads_instrs (show Instr.AllWritable body from h) fuel (by simp at hfuel; omega)
      have hthen := (hbody endOpcode (by decide)).andThen (f := fun r : List Instr × UInt8 =>
        if r.2.toNat = 0x05 then Instr.ifElse t r.1 <$> readClosed (readInstrs fuel)
        else pure (Instr.ifThen t r.1)) (reads_pure (Instr.ifThen t body))
      exact (reads_blockType t).bind hthen
  | .ifElse t body other =>
    refine ⟨0x04, t.encode ++ (Instr.encodeAll body ++ [elseOpcode] ++
      (Instr.encodeAll other ++ [endOpcode])), ?_, by decide, by decide, fun fuel hfuel => ?_⟩
    · simp [Instr.encode, opening, ifOpcode]
    · have hbody := reads_instrs (show Instr.AllWritable body from h.1) fuel (by simp at hfuel; omega)
      have hother := reads_instrs (show Instr.AllWritable other from h.2) fuel (by simp at hfuel; omega)
      have helse := (hbody elseOpcode (by decide)).bind (f := fun r : List Instr × UInt8 =>
        if r.2.toNat = 0x05 then Instr.ifElse t r.1 <$> readClosed (readInstrs fuel)
        else pure (Instr.ifThen t r.1)) (hother.closed.map (Instr.ifElse t body))
      exact (reads_blockType t).bind helse

theorem reads_instrs {is : List Instr} (h : Instr.AllWritable is) (fuel : Nat)
    (hfuel : (Instr.encodeAll is).length < fuel) : ReadsUpto (readInstrs fuel) is := by
  intro stop hstop
  match fuel, is with
  | fuel + 1, [] =>
    intro rest
    change (if stop.toNat = 0x0B ∨ stop.toNat = 0x05 then pure ([], stop) else _ :
      Parse (List Instr × UInt8)) rest = _
    rw [if_pos hstop]
    rfl
  | fuel + 1, i :: is =>
    obtain ⟨opcode, bs, he, hB, h5, hi⟩ := reads_instr h.1
    have hlen : (Instr.encodeAll (i :: is)).length = bs.length + 1 + (Instr.encodeAll is).length := by
      rw [Instr.encodeAll, he, List.length_append, List.length_cons]
    have hrest := (reads_instrs h.2 fuel (by omega) stop hstop).andThen
      (f := fun r : List Instr × UInt8 => pure (i :: r.1, r.2)) (reads_pure (i :: is, stop))
    rw [Instr.encodeAll, he, List.append_assoc]
    have hcond : ¬ (opcode.toNat = 0x0B ∨ opcode.toNat = 0x05) := by
      rintro (hop | hop)
      · exact hB hop
      · exact h5 hop
    refine (reads_byte opcode).bind ?_
    rw [if_neg hcond]
    exact (hi fuel (by omega)).bind hrest

end

end Binary

/-- What has been written is read back, with the opcode that closes it and without a byte left. -/
theorem read_encodeAll {is : List Instr} (h : Instr.AllWritable is) :
    Binary.readBody (Instr.encodeAll is ++ [endOpcode]) = some is := by
  have hread := (Binary.reads_instrs h (Instr.encodeAll is ++ [endOpcode]).length (by simp)).closed []
  rw [List.append_nil] at hread
  unfold Binary.readBody
  rw [hread]
  rfl

end ClassWasm.Wasm
