/-
  Reading modules in binary form. The reader follows the binary format of WebAssembly, in which a
  module is a header and then sections that say how long they are, and knows nothing of how modules
  are written. Names may be any bytes, and whether a module is valid is not asked. It reads back every
  module whose sections are no longer than 32 bits can say and whose constants are not given as
  bytes (`encode_decodable`). Items of all kinds go one way: an item is `Recovered` if its bytes are
  read as that item, and then so is a vector of them.
-/
import ClassWasm.Proofs.Entries
import ClassWasm.Proofs.Wasm.Binary
import ClassWasm.Wasm.Module

namespace ClassWasm.Wasm

/-- The sections that a module can have, in the order of the format. -/
inductive Section where
  | types
  | imports
  | functions
  | tables
  | memories
  | globals
  | exports
  | start
  | elements
  | dataCount
  | bodies
  | data
deriving DecidableEq

namespace Section

def id : Section → UInt8
  | types => 1
  | imports => 2
  | functions => 3
  | tables => 4
  | memories => 5
  | globals => 6
  | exports => 7
  | start => 8
  | elements => 9
  | dataCount => 12
  | bodies => 10
  | data => 11

def all : List Section :=
  [types, imports, functions, tables, memories, globals, exports, start, elements, dataCount,
    bodies, data]

theorem mem_all (s : Section) : s ∈ all := by
  cases s <;> decide

end Section

/-- Made by one of the instructions that give a constant, and not given as bytes. -/
def ConstExpr.Built : ConstExpr → Prop
  | raw _ => False
  | _ => True

namespace Binary

/-! ## Reading -/

def expect (b : UInt8) : Parse Unit := do
  let c ← readByte
  if c = b then pure () else failure

/-- The next `count` bytes. -/
def readBytes (count : Nat) : Parse Bytes := fun bs =>
  if count ≤ bs.length then some (bs.take count, bs.drop count) else none

/-- Bytes behind their number. -/
def readSized : Parse Bytes := do
  let size ← readUnsigned 32
  readBytes size

def readName : Parse Text := Text.mk <$> readSized

def readValType : Parse ValType := do
  let b ← readByte
  match valType? b with
  | some t => pure t
  | none => failure

def readFlag : Parse Bool := do
  let b ← readByte
  match b.toNat with
  | 0 => pure false
  | 1 => pure true
  | _ => failure

def readFuncType : Parse FuncType := do
  expect 0x60
  let params ← readVector readValType
  let results ← readVector readValType
  pure ⟨params, results⟩

def readLimits : Parse Limits := do
  let bounded ← readFlag
  let min ← readIndex
  if bounded then (fun max => ⟨min, some max⟩) <$> readIndex else pure ⟨min, none⟩

def readTableType : Parse TableType := do
  let element ← readValType
  let limits ← readLimits
  pure ⟨element, limits⟩

def readGlobalType : Parse GlobalType := do
  let type ← readValType
  let mutable ← readFlag
  pure ⟨type, mutable⟩

/-- A single constant. -/
def readConst : Parse ConstExpr := do
  let opcode ← readByte
  match opcode.toNat with
  | 0x41 => (fun v => .i32 (Int32.ofInt v)) <$> readSigned 32
  | 0x42 => (fun v => .i64 (Int64.ofInt v)) <$> readSigned 64
  | 0x43 => (fun n => .f32 (UInt32.ofNat n)) <$> readFixed 4
  | 0x44 => (fun n => .f64 (UInt64.ofNat n)) <$> readFixed 8
  | 0xD0 => .null <$> readValType
  | _ => failure

/-- A constant and the opcode that ends the expression. -/
def readConstExpr : Parse ConstExpr := do
  let c ← readConst
  expect endOpcode
  pure c

def readExternKind : Parse ExternKind := do
  let b ← readByte
  match b.toNat with
  | 0 => pure .func
  | 1 => pure .table
  | 2 => pure .memory
  | 3 => pure .global
  | _ => failure

def readImportType : ExternKind → Parse ImportType
  | .func => .func <$> readIndex
  | .table => .table <$> readTableType
  | .memory => .memory <$> readLimits
  | .global => .global <$> readGlobalType

def readImport : Parse Import := do
  let module ← readName
  let name ← readName
  let kind ← readExternKind
  let type ← readImportType kind
  pure ⟨module, name, type⟩

def readExport : Parse Export := do
  let name ← readName
  let kind ← readExternKind
  let index ← readIndex
  pure ⟨name, kind, index⟩

def readGlobal : Parse Global := do
  let type ← readGlobalType
  let init ← readConstExpr
  pure ⟨type, init⟩

/-- Functions for the first table. -/
def readElement : Parse Element := do
  expect 0x00
  let offset ← readConstExpr
  let functions ← readVector readIndex
  pure ⟨offset, functions⟩

/-- Bytes for the first memory. -/
def readData : Parse Data := do
  expect 0x00
  let offset ← readConstExpr
  let bytes ← readSized
  pure ⟨offset, bytes⟩

def readLocalRun : Parse LocalRun := do
  let count ← readIndex
  let type ← readValType
  pure ⟨count, type⟩

/-- Locals, and all that stands behind them as far as the size says. -/
def readFuncBody : Parse FuncBody := do
  let payload ← readSized
  match readVector readLocalRun payload with
  | some (locals, bytes) => pure ⟨locals, bytes⟩
  | none => failure

/-- The number of a section and its contents. -/
def readSection : Parse (UInt8 × Bytes) := do
  let id ← readByte
  let payload ← readSized
  pure (id, payload)

/-- Sections up to the end of the bytes, of which each takes at least one. -/
def readSections : (fuel : Nat) → Bytes → Option (List (UInt8 × Bytes))
  | _, [] => some []
  | 0, _ :: _ => none
  | fuel + 1, b :: bs => do
    let (s, rest) ← readSection (b :: bs)
    let ss ← readSections fuel rest
    some (s :: ss)

/-- What all of the bytes are. -/
def readWhole {α : Type} (p : Parse α) (bs : Bytes) : Option α :=
  match p bs with
  | some (a, []) => some a
  | _ => none

/-- The items of a section, of which there are none where it is missing. -/
def items? {α : Type} (item : Parse α) : Option Bytes → Option (Array α)
  | none => some #[]
  | some payload => (readWhole (readVector item) payload).map List.toArray

/-- The contents of a section that may be missing. -/
def single? {α : Type} (p : Parse α) : Option Bytes → Option (Option α)
  | none => some none
  | some payload => (readWhole p payload).map some

/-- The header and then the sections, by number. Those that a tool has added, whose number is 0, are
passed over; the others come in the order of the format, each at most once. -/
def readNumbered (bs : Bytes) : Option (List (UInt8 × Bytes)) := do
  let (start, bs) ← readBytes Module.header.length bs
  if start ≠ Module.header then none
  let sections ← readSections bs.length bs
  let sections := sections.filter fun s => s.1 ≠ 0
  if (sections.map Prod.fst).isSublist (Section.all.map Section.id) then some sections else none

/-- A module from the contents of its sections. Where the data segments are counted, there are as
many. -/
def readContents (payload? : Section → Option Bytes) : Option Module := do
  let types ← items? readFuncType (payload? .types)
  let imports ← items? readImport (payload? .imports)
  let functions ← items? readIndex (payload? .functions)
  let tables ← items? readTableType (payload? .tables)
  let memories ← items? readLimits (payload? .memories)
  let globals ← items? readGlobal (payload? .globals)
  let exports ← items? readExport (payload? .exports)
  let start ← single? readIndex (payload? .start)
  let elements ← items? readElement (payload? .elements)
  let dataCount ← single? (readUnsigned 32) (payload? .dataCount)
  let bodies ← items? readFuncBody (payload? .bodies)
  let data ← items? readData (payload? .data)
  if dataCount.all (· = data.size) then
    some ⟨types, imports, functions, tables, memories, globals, exports, start, elements, bodies,
      data⟩
  else none

/-- The module that the bytes are. -/
def readModule (bs : Bytes) : Option Module := do
  let sections ← readNumbered bs
  readContents fun s => sections.lookup s.id

/-! ## Numbers of bytes -/

section

variable {α : Type} {item : Parse α} {encode : α → Bytes} {a : α}

theorem reads_expect (b : UInt8) : Reads (expect b) [b] () := by
  have hcheck : Reads (if b = b then pure () else failure : Parse Unit) [] () := by
    rw [if_pos rfl]
    exact reads_pure ()
  exact (reads_byte b).andThen hcheck

theorem reads_bytes (bs : Bytes) : Reads (readBytes bs.length) bs bs := by
  intro rest
  simp [readBytes]

theorem length_unsigned_pos (n : Nat) : 0 < (Leb128.unsigned n).length := by
  unfold Leb128.unsigned
  split <;> simp

theorem reads_sized (bs : Bytes) (h : bs.length < 2 ^ 32) :
    Reads readSized (Leb128.unsigned bs.length ++ bs) bs :=
  (reads_unsigned 32 h).bind (reads_bytes bs)

/-- A value that takes some bytes, and that is read back where 32 bits can say how many. -/
def Recovered (item : Parse α) (encode : α → Bytes) (a : α) : Prop :=
  0 < (encode a).length ∧ ((encode a).length < 2 ^ 32 → Reads item (encode a) a)

theorem length_le_of_recovered {as : List α} (h : ∀ a ∈ as, Recovered item encode a) :
    as.length ≤ (as.flatMap encode).length := by
  induction as with
  | nil => exact Nat.zero_le _
  | cons a as ih =>
    have hhead := (h a List.mem_cons_self).1
    have hrest := ih fun b hb => h b (List.mem_cons_of_mem a hb)
    rw [List.flatMap_cons, List.length_append, List.length_cons]
    omega

/-- The items take at least a byte each, so their number fits where their bytes do. -/
theorem recovered_vector {as : List α} (h : ∀ a ∈ as, Recovered item encode a) :
    Recovered (readVector item) (vector encode) as := by
  have hcount := length_le_of_recovered h
  have hlength : (vector encode as).length =
      (Leb128.unsigned as.length).length + (as.flatMap encode).length := List.length_append
  have hpos := length_unsigned_pos as.length
  refine ⟨by omega, fun hlen => reads_vector (fun a ha => ?_) (by omega)⟩
  have hitem := length_le_flatMap (f := encode) ha
  exact (h a ha).2 (by omega)

end

/-! ## Items -/

theorem recovered_index (i : UInt32) :
    Recovered readIndex (fun i => Leb128.unsigned i.toNat) i :=
  ⟨length_unsigned_pos _, fun _ => reads_index i⟩

theorem recovered_name (t : Text) : Recovered readName encodeName t := by
  have hlength : (encodeName t).length = (Leb128.unsigned t.length).length + t.length :=
    List.length_append
  have hpos := length_unsigned_pos t.length
  exact ⟨by omega, fun hlen => (reads_sized t.bytes (by change t.length < _; omega)).map _⟩

theorem reads_valType (t : ValType) : Reads readValType [t.byte] t := by
  intro rest
  cases t <;> rfl

theorem recovered_funcType (f : FuncType) : Recovered readFuncType FuncType.encode f := by
  have hvector (ts : List ValType) :
      Recovered (readVector readValType) (vector fun t => [t.byte]) ts :=
    recovered_vector fun t _ => ⟨Nat.one_pos, fun _ => reads_valType t⟩
  refine ⟨Nat.zero_lt_succ _, fun hlen => ?_⟩
  simp only [FuncType.encode, List.cons_append, List.length_cons, List.length_append] at hlen
  have hparams := (hvector f.params).2 (by omega)
  have hresults := (hvector f.results).2 (by omega)
  exact (reads_expect 0x60).bind (hparams.bind (hresults.andThen (reads_pure _)))

theorem reads_flag (b : Bool) : Reads readFlag [if b then 0x01 else 0x00] b := by
  intro rest
  cases b <;> rfl

theorem reads_limits (l : Limits) : Reads readLimits l.encode l := by
  obtain ⟨min, max⟩ := l
  cases max with
  | none => exact (reads_flag false).bind ((reads_index min).andThen (reads_pure _))
  | some max => exact (reads_flag true).bind ((reads_index min).bind ((reads_index max).map _))

theorem recovered_limits (l : Limits) : Recovered readLimits Limits.encode l := by
  refine ⟨?_, fun _ => reads_limits l⟩
  unfold Limits.encode
  split <;> exact Nat.zero_lt_succ _

theorem reads_tableType (t : TableType) : Reads readTableType t.encode t :=
  (reads_valType t.element).bind ((reads_limits t.limits).andThen (reads_pure _))

theorem recovered_tableType (t : TableType) : Recovered readTableType TableType.encode t :=
  ⟨Nat.zero_lt_succ _, fun _ => reads_tableType t⟩

theorem reads_globalType (g : GlobalType) : Reads readGlobalType g.encode g :=
  (reads_valType g.type).bind ((reads_flag g.mutable).andThen (reads_pure _))

theorem reads_externKind (k : ExternKind) : Reads readExternKind [k.byte] k := by
  intro rest
  cases k <;> rfl

theorem reads_importType (t : ImportType) :
    ∃ bs, t.encode = t.kind.byte :: bs ∧ Reads (readImportType t.kind) bs t := by
  cases t with
  | func type => exact ⟨_, rfl, (reads_index type).map _⟩
  | table type => exact ⟨_, rfl, (reads_tableType type).map _⟩
  | memory limits => exact ⟨_, rfl, (reads_limits limits).map _⟩
  | global type => exact ⟨_, rfl, (reads_globalType type).map _⟩

theorem recovered_import (i : Import) : Recovered readImport Import.encode i := by
  obtain ⟨module, name, type⟩ := i
  obtain ⟨bs, htype, hreads⟩ := reads_importType type
  have hencode : Import.encode ⟨module, name, type⟩ =
      encodeName module ++ (encodeName name ++ ([type.kind.byte] ++ bs)) := by
    rw [Import.encode, htype, List.append_assoc]
    rfl
  unfold Recovered
  rw [hencode]
  simp only [List.length_append, List.length_singleton]
  refine ⟨by omega, fun hlen => ?_⟩
  have hmodule := (recovered_name module).2 (by omega)
  have hname := (recovered_name name).2 (by omega)
  exact hmodule.bind (hname.bind ((reads_externKind type.kind).bind
    (hreads.andThen (reads_pure _))))

theorem recovered_export (e : Export) : Recovered readExport Export.encode e := by
  have hencode : e.encode =
      encodeName e.name ++ ([e.kind.byte] ++ Leb128.unsigned e.index.toNat) := rfl
  unfold Recovered
  rw [hencode]
  simp only [List.length_append, List.length_singleton]
  refine ⟨by omega, fun hlen => ?_⟩
  have hname := (recovered_name e.name).2 (by omega)
  exact hname.bind ((reads_externKind e.kind).bind ((reads_index e.index).andThen (reads_pure _)))

theorem reads_const {c : ConstExpr} (h : c.Built) : Reads readConst c.encode c := by
  cases c with
  | i32 v =>
    have := (reads_signed 32 (by decide) v.le_toInt v.toInt_lt).map
      fun v => ConstExpr.i32 (Int32.ofInt v)
    rw [Int32.ofInt_toInt] at this
    exact (reads_byte 0x41).bind this
  | i64 v =>
    have := (reads_signed 64 (by decide) v.le_toInt v.toInt_lt).map
      fun v => ConstExpr.i64 (Int64.ofInt v)
    rw [Int64.ofInt_toInt] at this
    exact (reads_byte 0x42).bind this
  | f32 bits =>
    have := (reads_fixed (Bytes.le32 bits)).map fun n => ConstExpr.f32 (UInt32.ofNat n)
    rw [fixed_le32, UInt32.ofNat_toNat] at this
    exact (reads_byte 0x43).bind this
  | f64 bits =>
    have := (reads_fixed (Bytes.le64 bits)).map fun n => ConstExpr.f64 (UInt64.ofNat n)
    rw [fixed_le64, UInt64.ofNat_toNat] at this
    exact (reads_byte 0x44).bind this
  | null t => exact (reads_byte 0xD0).bind ((reads_valType t).map _)
  | raw bytes => cases h

theorem reads_constExpr {c : ConstExpr} (h : c.Built) :
    Reads readConstExpr (c.encode ++ [endOpcode]) c :=
  (reads_const h).bind ((reads_expect endOpcode).andThen (reads_pure c))

theorem recovered_global {g : Global} (h : g.init.Built) :
    Recovered readGlobal Global.encode g := by
  have hencode : g.encode = g.type.encode ++ (g.init.encode ++ [endOpcode]) := List.append_assoc ..
  unfold Recovered
  rw [hencode]
  refine ⟨by simp, fun _ => ?_⟩
  exact (reads_globalType g.type).bind ((reads_constExpr h).andThen (reads_pure _))

theorem recovered_element {e : Element} (h : e.offset.Built) :
    Recovered readElement Element.encode e := by
  have hencode : e.encode = [0x00] ++ ((e.offset.encode ++ [endOpcode]) ++
      vector (fun f => Leb128.unsigned f.toNat) e.functions) := by
    simp [Element.encode]
  unfold Recovered
  rw [hencode]
  simp only [List.length_append, List.length_singleton]
  refine ⟨by omega, fun hlen => ?_⟩
  have hfunctions :=
    (recovered_vector (fun f (_ : f ∈ e.functions) => recovered_index f)).2 (by omega)
  exact (reads_expect 0x00).bind ((reads_constExpr h).bind (hfunctions.andThen (reads_pure _)))

theorem recovered_data {d : Data} (h : d.offset.Built) : Recovered readData Data.encode d := by
  have hencode : d.encode = [0x00] ++ ((d.offset.encode ++ [endOpcode]) ++
      (Leb128.unsigned d.bytes.length ++ d.bytes)) := by
    simp [Data.encode]
  unfold Recovered
  rw [hencode]
  simp only [List.length_append, List.length_singleton]
  refine ⟨by omega, fun hlen => ?_⟩
  have hbytes := reads_sized d.bytes (by omega)
  exact (reads_expect 0x00).bind ((reads_constExpr h).bind (hbytes.andThen (reads_pure _)))

theorem recovered_localRun (r : LocalRun) : Recovered readLocalRun LocalRun.encode r :=
  ⟨by simp [LocalRun.encode], fun _ =>
    (reads_index r.count).bind ((reads_valType r.type).andThen (reads_pure _))⟩

/-- The size comes first, so nothing that a body is made of can be taken for the end of it. -/
theorem recovered_funcBody (b : FuncBody) : Recovered readFuncBody FuncBody.encode b := by
  obtain ⟨locals, bytes⟩ := b
  have hlength : (FuncBody.encode ⟨locals, bytes⟩).length =
      (Leb128.unsigned (vector LocalRun.encode locals ++ bytes).length).length +
        (vector LocalRun.encode locals ++ bytes).length := List.length_append
  have hpos := length_unsigned_pos (vector LocalRun.encode locals ++ bytes).length
  refine ⟨by omega, fun hlen => ?_⟩
  have hpayload := reads_sized (vector LocalRun.encode locals ++ bytes) (by omega)
  have hlocals := (recovered_vector fun r (_ : r ∈ locals) => recovered_localRun r).2
    (by rw [List.length_append] at hlength; omega) bytes
  refine hpayload.andThen ?_
  rw [hlocals]
  exact reads_pure _

end Binary

/-! ## Sections -/

namespace Module

/-- Items behind their number, if there are any. -/
def itemsPayload {α : Type} (encode : α → Bytes) (items : Array α) : Option Bytes :=
  if items.isEmpty then none else some (vector encode items.toList)

/-- What a module says in a section, if anything. -/
def payload? (m : Module) : Section → Option Bytes
  | .types => itemsPayload FuncType.encode m.types
  | .imports => itemsPayload Import.encode m.imports
  | .functions => itemsPayload (fun f => Leb128.unsigned f.toNat) m.functions
  | .tables => itemsPayload TableType.encode m.tables
  | .memories => itemsPayload Limits.encode m.memories
  | .globals => itemsPayload Global.encode m.globals
  | .exports => itemsPayload Export.encode m.exports
  | .start => m.start.map fun f => Leb128.unsigned f.toNat
  | .elements => itemsPayload Element.encode m.elements
  | .dataCount => if m.data.isEmpty then none else some (Leb128.unsigned m.data.size)
  | .bodies => itemsPayload FuncBody.encode m.bodies
  | .data => itemsPayload Data.encode m.data

/-- The sections that are not empty, by number. -/
def sections (m : Module) : List (UInt8 × Bytes) :=
  present (Section.all.map fun s => (s.id, m.payload? s))

theorem itemSection_eq {α : Type} (id : UInt8) (encode : α → Bytes) (items : Array α) :
    itemSection id encode items = (itemsPayload encode items).elim [] (sized id) := by
  unfold itemSection itemsPayload
  split <;> rfl

/-- The header and then the sections that are not empty in their order, each with its size. -/
theorem encode_eq (m : Module) :
    m.encode = header ++ Section.all.flatMap fun s => (m.payload? s).elim [] (sized s.id) := by
  have hstart : m.startSection = (m.payload? .start).elim [] (sized 8) := by
    unfold startSection payload?
    cases m.start <;> rfl
  have hdataCount : m.dataCountSection = (m.payload? .dataCount).elim [] (sized 12) := by
    unfold dataCountSection payload?
    split <;> rfl
  unfold encode
  simp only [itemSection_eq, hstart, hdataCount]
  simp only [Section.all, List.flatMap_cons, List.flatMap_nil, List.append_nil, List.append_assoc]
  rfl

theorem encode_eq_sections (m : Module) :
    m.encode = header ++ m.sections.flatMap fun s => sized s.1 s.2 := by
  rw [encode_eq, sections, flatMap_present, List.flatMap_map]

theorem nodup_numbers (m : Module) :
    ((Section.all.map fun s => (s.id, m.payload? s)).map Prod.fst).Nodup := by
  rw [List.map_map]
  change (Section.all.map Section.id).Nodup
  decide

theorem lookup_sections (m : Module) (s : Section) : m.sections.lookup s.id = m.payload? s :=
  lookup_present m.nodup_numbers (List.mem_map_of_mem (Section.mem_all s))

theorem numbers_sections (m : Module) :
    (m.sections.map Prod.fst).Sublist (Section.all.map Section.id) := by
  have hkeys := keys_present (Section.all.map fun s => (s.id, m.payload? s))
  rwa [List.map_map] at hkeys

/-- Sections whose sizes 32 bits can say, and constants that are made by an instruction. -/
structure Writable (m : Module) : Prop where
  sections : ∀ s payload, m.payload? s = some payload → payload.length < 2 ^ 32
  globals : ∀ g ∈ m.globals, g.init.Built
  elements : ∀ e ∈ m.elements, e.offset.Built
  data : ∀ d ∈ m.data, d.offset.Built

end Module

namespace Binary

variable {α : Type}

theorem reads_section (id : UInt8) {payload : Bytes} (h : payload.length < 2 ^ 32) :
    Reads readSection (Module.sized id payload) (id, payload) :=
  (reads_byte id).bind ((reads_sized payload h).andThen (reads_pure _))

theorem readSections_sized {ss : List (UInt8 × Bytes)} (h : ∀ s ∈ ss, s.2.length < 2 ^ 32)
    {fuel : Nat} (hfuel : (ss.flatMap fun s => Module.sized s.1 s.2).length ≤ fuel) :
    readSections fuel (ss.flatMap fun s => Module.sized s.1 s.2) = some ss := by
  induction ss generalizing fuel with
  | nil => cases fuel <;> rfl
  | cons s ss ih =>
    obtain ⟨id, payload⟩ := s
    have hlength : (Module.sized id payload).length =
        (Leb128.unsigned payload.length ++ payload).length + 1 := rfl
    rw [List.flatMap_cons, List.length_append, hlength] at hfuel
    obtain ⟨fuel, rfl⟩ : ∃ f, fuel = f + 1 := ⟨fuel - 1, by omega⟩
    have hsection := reads_section id (h _ List.mem_cons_self)
      (ss.flatMap fun s => Module.sized s.1 s.2)
    have hrest : readSections fuel (ss.flatMap fun s => Module.sized s.1 s.2) = some ss :=
      ih (fun s hs => h s (List.mem_cons_of_mem _ hs)) (by omega)
    rw [List.flatMap_cons]
    change Option.bind (readSection (Module.sized id payload ++ _)) _ = _
    rw [hsection, Option.bind_some]
    dsimp only
    rw [hrest]
    rfl

theorem readNumbered_encode {m : Module} (h : m.Writable) :
    readNumbered m.encode = some m.sections := by
  have hsections : readSections (m.sections.flatMap fun s => Module.sized s.1 s.2).length
      (m.sections.flatMap fun s => Module.sized s.1 s.2) = some m.sections := by
    refine readSections_sized (fun s hs => ?_) (Nat.le_refl _)
    obtain ⟨t, -, ht⟩ := List.mem_map.mp (mem_present.mp hs)
    exact h.sections t s.2 (congrArg Prod.snd ht)
  have hfilter : (m.sections.filter fun s => s.1 ≠ 0) = m.sections := by
    refine List.filter_eq_self.mpr fun s hs => ?_
    have hid := m.numbers_sections.subset (List.mem_map_of_mem hs)
    have hzero : (0 : UInt8) ∉ Section.all.map Section.id := by decide
    exact decide_eq_true fun heq => hzero (heq ▸ hid)
  unfold readNumbered
  rw [Module.encode_eq_sections, reads_bytes]
  simp only [Option.bind_eq_bind, Option.bind_some]
  rw [if_neg (not_not_intro rfl)]
  change Option.bind (readSections _ _) _ = _
  rw [hsections, Option.bind_some, hfilter,
    if_pos (List.isSublist_iff_sublist.mpr m.numbers_sections)]

theorem readWhole_of_reads {p : Parse α} {bs : Bytes} {a : α} (h : Reads p bs a) :
    readWhole p bs = some a := by
  have hread := h []
  rw [List.append_nil] at hread
  unfold readWhole
  rw [hread]

/-- Items are read back from the section that they stand in. -/
theorem items?_itemsPayload {item : Parse α} {encode : α → Bytes} {items : Array α}
    (h : ∀ a ∈ items.toList, Recovered item encode a)
    (hsize : ∀ payload, Module.itemsPayload encode items = some payload → payload.length < 2 ^ 32) :
    items? item (Module.itemsPayload encode items) = some items := by
  unfold Module.itemsPayload at hsize ⊢
  split
  · next hempty =>
    rw [Array.isEmpty_iff] at hempty
    rw [hempty]
    rfl
  · next hempty =>
    rw [if_neg hempty] at hsize
    have hread := readWhole_of_reads ((recovered_vector h).2 (hsize _ rfl))
    unfold items?
    dsimp only
    rw [hread, Option.map_some, Array.toArray_toList]

/-- The section of the data count is there if that of the data is, and is right. The number of data
segments is small because the section that holds them is. -/
theorem exists_dataCount {m : Module} (h : m.Writable) :
    ∃ count, single? (readUnsigned 32) (m.payload? .dataCount) = some count ∧
      count.all (· = m.data.size) = true := by
  by_cases hempty : m.data.isEmpty = true
  · exact ⟨none, by simp [Module.payload?, hempty, single?], rfl⟩
  · have hlen := h.sections .data (vector Data.encode m.data.toList)
      (by simp [Module.payload?, Module.itemsPayload, hempty])
    have hcount := length_le_of_recovered fun d hd =>
      recovered_data (h.data d (Array.mem_toList_iff.mp hd))
    have hread :
        readWhole (readUnsigned 32) (Leb128.unsigned m.data.size) = some m.data.size := by
      refine readWhole_of_reads (reads_unsigned 32 ?_)
      rw [vector, List.length_append] at hlen
      rw [Array.length_toList] at hcount
      omega
    exact ⟨some m.data.size, by simp [Module.payload?, hempty, single?, hread], by simp⟩

/-- All parts come back, each from its own section. -/
theorem readContents_payload {m : Module} (h : m.Writable) :
    readContents m.payload? = some m := by
  have hsize := h.sections
  have htypes : items? readFuncType (m.payload? .types) = some m.types :=
    items?_itemsPayload (fun f _ => recovered_funcType f) (hsize .types)
  have himports : items? readImport (m.payload? .imports) = some m.imports :=
    items?_itemsPayload (fun i _ => recovered_import i) (hsize .imports)
  have hfunctions : items? readIndex (m.payload? .functions) = some m.functions :=
    items?_itemsPayload (fun f _ => recovered_index f) (hsize .functions)
  have htables : items? readTableType (m.payload? .tables) = some m.tables :=
    items?_itemsPayload (fun t _ => recovered_tableType t) (hsize .tables)
  have hmemories : items? readLimits (m.payload? .memories) = some m.memories :=
    items?_itemsPayload (fun l _ => recovered_limits l) (hsize .memories)
  have hglobals : items? readGlobal (m.payload? .globals) = some m.globals :=
    items?_itemsPayload (fun g hg => recovered_global (h.globals g (Array.mem_toList_iff.mp hg)))
      (hsize .globals)
  have hexports : items? readExport (m.payload? .exports) = some m.exports :=
    items?_itemsPayload (fun e _ => recovered_export e) (hsize .exports)
  have hstart : single? readIndex (m.payload? .start) = some m.start := by
    unfold Module.payload?
    dsimp only
    cases m.start with
    | none => rfl
    | some f => simp [single?, readWhole_of_reads (reads_index f)]
  have helements : items? readElement (m.payload? .elements) = some m.elements :=
    items?_itemsPayload (fun e he => recovered_element (h.elements e (Array.mem_toList_iff.mp he)))
      (hsize .elements)
  have hbodies : items? readFuncBody (m.payload? .bodies) = some m.bodies :=
    items?_itemsPayload (fun b _ => recovered_funcBody b) (hsize .bodies)
  have hdata : items? readData (m.payload? .data) = some m.data :=
    items?_itemsPayload (fun d hd => recovered_data (h.data d (Array.mem_toList_iff.mp hd)))
      (hsize .data)
  obtain ⟨count, hcount, hall⟩ := exists_dataCount h
  unfold readContents
  simp only [htypes, himports, hfunctions, htables, hmemories, hglobals, hexports, hstart,
    helements, hcount, hbodies, hdata, Option.bind_eq_bind, Option.bind_some, hall, if_true]

end Binary

/-- What has been written is read back as the module that it was written for, whatever bytes its
functions are made of. It is the header and then the sections that are not empty, in the order of
the format and each at most once, with their numbers and sizes in front of them. -/
theorem Module.encode_decodable (m : Module) (h : m.Writable) :
    Binary.readModule m.encode = some m ∧
      (m.encode = header ++ m.sections.flatMap fun s =>
        s.1 :: Leb128.unsigned s.2.length ++ s.2) ∧
      (m.sections.map Prod.fst).Sublist [1, 2, 3, 4, 5, 6, 7, 8, 9, 12, 10, 11] ∧
      ∀ s, m.sections.lookup s.id = m.payload? s := by
  refine ⟨?_, m.encode_eq_sections, m.numbers_sections, m.lookup_sections⟩
  unfold Binary.readModule
  rw [Binary.readNumbered_encode h, Option.bind_eq_bind, Option.bind_some]
  simp only [lookup_sections]
  exact Binary.readContents_payload h

/-- A start function whose body is no code, an imported variable, and bytes for a memory. -/
def Module.stray : Module where
  types := #[⟨[], []⟩]
  imports := #[⟨⟨[0x65]⟩, ⟨[]⟩, .global ⟨.i32, true⟩⟩]
  functions := #[0]
  memories := #[⟨1, some 200⟩]
  start := some 0
  bodies := #[⟨[⟨130, .f64⟩], [0xFF, 0x0A, 0x0B, 0x00]⟩]
  data := #[⟨.i32 (-3), [0x0B]⟩]

theorem Module.encode_decodable_stray :
    Binary.readModule stray.encode = some stray ∧
      stray.sections.map Prod.fst = [1, 2, 3, 5, 8, 12, 10, 11] := by
  have hsections : ∀ s payload, stray.payload? s = some payload → payload.length < 2 ^ 32 := by
    intro s payload hpayload
    have hsizes : (Section.all.all fun s =>
        (stray.payload? s).all fun payload => payload.length < 2 ^ 32) = true := by decide +kernel
    have hs := List.all_eq_true.mp hsizes s (Section.mem_all s)
    rw [hpayload] at hs
    exact of_decide_eq_true hs
  have hdata : ∀ d ∈ stray.data, d.offset.Built := by
    intro d hd
    obtain rfl := Array.mem_singleton.mp hd
    trivial
  have hstray := stray.encode_decodable ⟨hsections, nofun, nofun, hdata⟩
  exact ⟨hstray.1, rfl⟩

end ClassWasm.Wasm
