/-
  Decoding of method bodies. What operands an opcode has and what it does with them is one table,
  `layout`; reading the operands is one function. Instructions cover the code without gaps.
-/
import ClassWasm.ConstantPool
import ClassWasm.Ieee
import ClassWasm.Instruction
import ClassWasm.Instruction.Mnemonic

namespace ClassWasm.Instruction

/-- Operands of an opcode, and the operation they make. -/
inductive Layout where
  | plain (op : Operation)
  /-- A signed byte. -/
  | byte (make : Int8 → Operation)
  /-- A signed 16-bit number. -/
  | short (make : Int16 → Operation)
  /-- A signed 32-bit number. -/
  | word (make : Int32 → Operation)
  /-- The number of a local variable, one byte or, after `wide`, two. -/
  | slot (make : UInt16 → Operation)
  /-- A local variable and what to add to it, a byte each or, after `wide`, two. -/
  | increment
  /-- A pool index of one byte, of a constant that takes one slot. -/
  | constant8
  /-- A pool index of two bytes, of a constant that takes one slot. -/
  | constant16
  /-- A pool index of a constant that takes two slots. -/
  | wideConstant
  | field (make : MemberRef → Operation)
  | method
  | tableSwitch
  | lookupSwitch
  | unsupported (reason : Text)

inductive Error where
  /-- Bytes are missing at the opcode itself. -/
  | noOpcode (s : Shortage)
  /-- Bytes are missing among the operands. -/
  | operands (name : Text) (offset : Nat) (s : Shortage)
  /-- The code ends before all `count` targets or pairs of a switch. -/
  | switchEnds (name : Text) (offset count : Nat) (what : Text)
  /-- A pool index does not lead to what the opcode needs. -/
  | reference (name : Text) (offset : Nat) (e : Pool.Error)
  | unsupported (opcode : UInt8) (wide : Bool) (offset : Nat) (reason : Text)
  | emptyRange (offset : Nat) (low high : Int32)
  | negativeCount (offset : Nat) (count : Int32)

def fullName (opcode : UInt8) (wide : Bool) : Text :=
  if wide then "wide " ++ mnemonic opcode else mnemonic opcode

def Error.message : Error → Text
  | noOpcode s => Fault.message s
  | operands name offset s => name ++ s!" at {offset}: " ++ Fault.message s
  | switchEnds name offset count what =>
    name ++ s!" at {offset}: {count} " ++ what ++ ": truncated input"
  | reference name offset e => name ++ s!" at {offset}: " ++ e.message
  | unsupported opcode wide offset reason =>
    let code := if opcode < 16 then "0" ++ Text.hexUpper opcode.toNat else Text.hexUpper opcode.toNat
    let start := "unsupported opcode: " ++ fullName opcode wide ++ " (0x" ++ code
      ++ s!") at offset {offset}"
    if reason.isEmpty then start else start ++ ": " ++ reason
  | emptyRange offset low high =>
    s!"malformed code: tableswitch at {offset}: low {low.toInt} > high {high.toInt}"
  | negativeCount offset count =>
    s!"malformed code: lookupswitch at {offset}: npairs {count.toInt}"

def Error.causes : Error → List Cause
  | noOpcode s | operands _ _ s => Fault.causes s
  | switchEnds .. => [.truncated]
  | reference _ _ e => e.causes
  | unsupported .. => [.unsupportedOpcode]
  | emptyRange .. | negativeCount .. => [.malformedCode]

instance : Fault Error := ⟨Error.message, Error.causes⟩

/-- The kinds in the order in which families of opcodes list them. -/
def slotKind (n : Nat) : Kind :=
  match n with
  | 0 => .int
  | 1 => .long
  | 2 => .float
  | 3 => .double
  | _ => .ref

def returnKind (n : Nat) : Kind := if n = 5 then .void else slotKind n

/-- Operators in opcode order, four kinds each. -/
def arithLayout (n : Nat) : Layout :=
  let int (op : IntOp) : Layout := .plain (.arith (if n % 4 = 0 then .int op else .long op))
  let float (op : FloatOp) : Layout := .plain (.arith (if n % 4 = 2 then .float op else .double op))
  let both (i : IntOp) (f : FloatOp) : Layout := if n % 4 < 2 then int i else float f
  match n / 4 with
  | 0 => both .add .add
  | 1 => both .sub .sub
  | 2 => both .mul .mul
  | 3 => both .div .div
  | 4 =>
    if n % 4 < 2 then int .rem
    else .unsupported "floating point remainder has no exact wasm lowering"
  | _ => both .neg .neg

/-- Shifts and bitwise operators in opcode order, two kinds each. -/
def bitLayout (n : Nat) : Layout :=
  let op : IntOp := match n / 2 with
    | 0 => .shl
    | 1 => .shr
    | 2 => .ushr
    | 3 => .and
    | 4 => .or
    | _ => .xor
  .plain (.arith (if n % 2 = 0 then .int op else .long op))

def conversion (n : Nat) : Conversion :=
  match n with
  | 0 => .intToLong
  | 1 => .intToFloat
  | 2 => .intToDouble
  | 3 => .longToInt
  | 4 => .longToFloat
  | 5 => .longToDouble
  | 6 => .floatToInt
  | 7 => .floatToLong
  | 8 => .floatToDouble
  | 9 => .doubleToInt
  | 10 => .doubleToLong
  | _ => .doubleToFloat

def stackOp (n : Nat) : StackOp := StackOp.all.getD n .swap

def relation (n : Nat) : Relation := Relation.all.getD n .le

/-- Small whole numbers as floating point constants. -/
def floatConstant (n : Nat) : Constant := .float (UInt32.ofNat (Ieee.single.ofInt n))

def doubleConstant (n : Nat) : Constant := .double (UInt64.ofNat (Ieee.double.ofInt n))

def branchLayout (c : Condition) : Layout := .short fun t => .branch c t.toInt32

/-- What follows an opcode. -/
def layout (opcode : UInt8) : Layout :=
  let n := opcode.toNat
  if n = 0x00 then .plain .nop
  else if n = 0x01 then .plain (.const .null)
  else if n ≤ 0x08 then .plain (.const (.int (Int32.ofInt ((n : Int) - 3))))
  else if n ≤ 0x0A then .plain (.const (.long (Int64.ofInt (n - 0x09))))
  else if n ≤ 0x0D then .plain (.const (floatConstant (n - 0x0B)))
  else if n ≤ 0x0F then .plain (.const (doubleConstant (n - 0x0E)))
  else if n = 0x10 then .byte fun v => .const (.int v.toInt32)
  else if n = 0x11 then .short fun v => .const (.int v.toInt32)
  else if n = 0x12 then .constant8
  else if n = 0x13 then .constant16
  else if n = 0x14 then .wideConstant
  else if n ≤ 0x19 then .slot (.load (slotKind (n - 0x15)))
  else if n ≤ 0x2D then .plain (.load (slotKind ((n - 0x1A) / 4)) (UInt16.ofNat ((n - 0x1A) % 4)))
  else if n ≤ 0x35 then .unsupported Text.empty
  else if n ≤ 0x3A then .slot (.store (slotKind (n - 0x36)))
  else if n ≤ 0x4E then .plain (.store (slotKind ((n - 0x3B) / 4)) (UInt16.ofNat ((n - 0x3B) % 4)))
  else if n ≤ 0x56 then .unsupported Text.empty
  else if n ≤ 0x5F then .plain (.stack (stackOp (n - 0x57)))
  else if n ≤ 0x77 then arithLayout (n - 0x60)
  else if n ≤ 0x83 then bitLayout (n - 0x78)
  else if n = 0x84 then .increment
  else if n ≤ 0x90 then .plain (.convert (conversion (n - 0x85)))
  else if n = 0x91 then .plain (.narrow .byte)
  else if n = 0x92 then .plain (.narrow .char)
  else if n = 0x93 then .plain (.narrow .short)
  else if n = 0x94 then .plain (.compare .long)
  else if n ≤ 0x96 then .plain (.compare (.float (n = 0x96)))
  else if n ≤ 0x98 then .plain (.compare (.double (n = 0x98)))
  else if n ≤ 0x9E then branchLayout (.zero (relation (n - 0x99)))
  else if n ≤ 0xA4 then branchLayout (.compare (relation (n - 0x9F)))
  else if n ≤ 0xA6 then .unsupported Text.empty
  else if n = 0xA7 then .short fun t => .goto t.toInt32
  else if n ≤ 0xA9 then .unsupported Text.empty
  else if n = 0xAA then .tableSwitch
  else if n = 0xAB then .lookupSwitch
  else if n ≤ 0xB1 then .plain (.ret (returnKind (n - 0xAC)))
  else if n = 0xB2 then .field .getStatic
  else if n = 0xB3 then .field .putStatic
  else if n = 0xB8 then .method
  else if n = 0xC6 then branchLayout .isNull
  else if n = 0xC7 then branchLayout .isNonNull
  else if n = 0xC8 then .word .goto
  else .unsupported Text.empty

/-- The opcode in front of an instruction whose operands are wider than usual. -/
def wideOpcode : UInt8 := 0xC4

/-- Reads operands of the instruction `name` at `offset`. -/
def operand {α : Type} (name : Text) (offset : Nat) (r : Reader Shortage α) : Reader Error α :=
  r.mapError (.operands name offset)

def resolve {α : Type} (name : Text) (offset : Nat) (x : Except Pool.Error α) : Reader Error α :=
  Reader.ofExcept (x.mapError (.reference name offset))

/-- The tags of what can be loaded into one slot, though most of it needs objects. -/
def loadableTags : List Tag :=
  [.integer, .float, .string, .classRef, .methodType, .methodHandle, .dynamic]

/-- The same pattern, made quiet if it is no number. -/
def quietSingle (bits : UInt32) : UInt32 :=
  UInt32.ofNat (Ieee.Format.convert Ieee.single Ieee.single bits.toNat)

def constant (pool : Pool) (opcode : UInt8) (offset : Nat) (index : PoolIndex) :
    Reader Error Operation := do
  match ← resolve (mnemonic opcode) offset (pool.expect index loadableTags) with
  | .integer value => pure (.const (.int value))
  | .float bits => pure (.const (.float (quietSingle bits)))
  | e => throw (.unsupported opcode false offset (e.tag.name ++ " constant"))

def wideConstant (pool : Pool) (opcode : UInt8) (offset : Nat) (index : PoolIndex) :
    Reader Error Operation := do
  match ← resolve (mnemonic opcode) offset (pool.expect index [.long, .double]) with
  | .long value => pure (.const (.long value))
  | .double bits => pure (.const (.double bits))
  | e => throw (.unsupported opcode false offset (e.tag.name ++ " constant"))

/-- How many bytes bring the operands of a switch to a multiple of four. -/
def padding (offset : Nat) : Nat := (4 - (offset + 1) % 4) % 4

/-- `count` items of `size` bytes, which must all be there before the first is read. -/
def switchItems {α : Type} (name what : Text) (offset count size : Nat) (r : Reader Shortage α) :
    Reader Error (List α) := fun c =>
  if (c.rest.take (count * size)).length < count * size then
    .error (.switchEnds name offset count what)
  else operand name offset (Reader.list count fun _ => r) c

def tableSwitch (offset : Nat) : Reader Error Operation := do
  let name : Text := "tableswitch"
  let (default, low, high) ← operand name offset do
    let _ ← Cursor.take (padding offset)
    let default ← Cursor.i32
    let low ← Cursor.i32
    let high ← Cursor.i32
    pure (default, low, high)
  if low > high then throw (.emptyRange offset low high)
  let count := (high.toInt - low.toInt + 1).toNat
  let targets ← switchItems name "targets" offset count 4 Cursor.i32
  pure (.tableSwitch default low targets)

def lookupPair : Reader Shortage (Int32 × Int32) := do
  let key ← Cursor.i32
  let target ← Cursor.i32
  pure (key, target)

def lookupSwitch (offset : Nat) : Reader Error Operation := do
  let name : Text := "lookupswitch"
  let (default, count) ← operand name offset do
    let _ ← Cursor.take (padding offset)
    let default ← Cursor.i32
    let count ← Cursor.i32
    pure (default, count)
  if count < 0 then throw (.negativeCount offset count)
  let cases ← switchItems name "pairs" offset count.toInt.toNat 8 lookupPair
  pure (.lookupSwitch default cases)

/-- The operands of an opcode without `wide`. -/
def operation (pool : Pool) (offset : Nat) (opcode : UInt8) : Reader Error Operation :=
  let name := mnemonic opcode
  match layout opcode with
  | .plain op => pure op
  | .byte make => make <$> operand name offset Cursor.i8
  | .short make => make <$> operand name offset Cursor.i16
  | .word make => make <$> operand name offset Cursor.i32
  | .slot make => do
    let slot ← operand name offset Cursor.u8
    pure (make slot.toUInt16)
  | .increment => do
    let slot ← operand name offset Cursor.u8
    let delta ← operand name offset Cursor.i8
    pure (.increment slot.toUInt16 delta.toInt16)
  | .constant8 => do
    let index ← operand name offset Cursor.u8
    constant pool opcode offset index.toUInt16
  | .constant16 => do
    let index ← operand name offset Cursor.u16
    constant pool opcode offset index
  | .wideConstant => do
    let index ← operand name offset Cursor.u16
    wideConstant pool opcode offset index
  | .field make => do
    let index ← operand name offset Cursor.u16
    make <$> resolve name offset (pool.fieldRef index)
  | .method => do
    let index ← operand name offset Cursor.u16
    .invokeStatic <$> resolve name offset (pool.methodRef index)
  | .tableSwitch => tableSwitch offset
  | .lookupSwitch => lookupSwitch offset
  | .unsupported reason => throw (.unsupported opcode false offset reason)

/-- The operands of an opcode after `wide`. -/
def wideOperation (offset : Nat) (opcode : UInt8) : Reader Error Operation :=
  let name := fullName opcode true
  match layout opcode with
  | .slot make => make <$> operand name offset Cursor.u16
  | .increment => do
    let slot ← operand name offset Cursor.u16
    let delta ← operand name offset Cursor.i16
    pure (.increment slot delta)
  | _ => throw (.unsupported opcode true offset Text.empty)

/-- The instruction where the cursor stands. -/
def next (pool : Pool) : Reader Error Instruction := do
  let offset := (← get).offset
  let first ← Cursor.u8.mapError .noOpcode
  if first = wideOpcode then
    let opcode ← operand "wide" offset Cursor.u8
    let op ← wideOperation offset opcode
    pure ⟨offset, (← get).offset - offset, opcode, true, op⟩
  else
    let op ← operation pool offset first
    pure ⟨offset, (← get).offset - offset, first, false, op⟩

/-- Instructions to the end of the code after those in `done`. `fuel` is at least the number of
bytes left. -/
def decodeFrom (pool : Pool) (done : Array Instruction) :
    (fuel : Nat) → Cursor → Except Error (Array Instruction)
  | 0, _ => .ok done
  | fuel + 1, c =>
    match c.rest with
    | [] => .ok done
    | _ :: _ =>
      match next pool c with
      | .error e => .error e
      | .ok (i, c) => decodeFrom pool (done.push i) fuel c

end ClassWasm.Instruction

namespace ClassWasm

/-- The instructions of a method body, in order. -/
def decode (pool : Pool) (code : Bytes) : Except Instruction.Error (Array Instruction) :=
  Instruction.decodeFrom pool #[] code.length ⟨code, 0⟩

end ClassWasm
