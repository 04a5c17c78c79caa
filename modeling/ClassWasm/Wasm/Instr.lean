/-
  WebAssembly instructions as a tree, and their binary form. A branch names the construct it
  leaves or repeats by how many constructs lie between.
-/
import ClassWasm.Wasm.Types

namespace ClassWasm.Wasm

/-- The widths of integers. -/
inductive Width where
  | w32
  | w64
deriving DecidableEq, Inhabited

inductive IntBinary where
  | add
  | sub
  | mul
  | divS
  | remS
  | and
  | or
  | xor
  | shl
  | shrS
  | shrU
deriving DecidableEq, Inhabited

inductive IntCompare where
  | eq
  | ne
  | ltS
  | gtS
  | leS
  | geS
deriving DecidableEq, Inhabited

inductive FloatBinary where
  | add
  | sub
  | mul
  | div
deriving DecidableEq, Inhabited

inductive FloatCompare where
  | lt
  | gt
  | le
  | ge
deriving DecidableEq, Inhabited

/-- Conversions between number types; those from floating point to integers saturate. -/
inductive Convert where
  | wrap
  | extendS
  | extendU
  | toFloatS (source target : Width)
  | truncSatS (source target : Width)
  | promote
  | demote
  | extend8S
  | extend16S
deriving DecidableEq, Inhabited

/-- Instructions that hold no others. -/
inductive Plain where
  | unreachable
  | br (depth : UInt32)
  | brIf (depth : UInt32)
  | brTable (depths : List UInt32) (default : UInt32)
  | ret
  | call (function : UInt32)
  | drop
  | select
  | localGet (index : UInt32)
  | localSet (index : UInt32)
  | localTee (index : UInt32)
  | globalGet (index : UInt32)
  | globalSet (index : UInt32)
  | i32Const (value : Int32)
  | i64Const (value : Int64)
  | f32Const (bits : UInt32)
  | f64Const (bits : UInt64)
  | i32Eqz
  | intBinary (w : Width) (op : IntBinary)
  | intCompare (w : Width) (op : IntCompare)
  | floatNeg (w : Width)
  | floatBinary (w : Width) (op : FloatBinary)
  | floatCompare (w : Width) (op : FloatCompare)
  | convert (c : Convert)
  | refNull (t : ValType)
  | refIsNull
deriving DecidableEq, Inhabited

inductive Instr where
  | plain (p : Plain)
  | block (t : BlockType) (body : List Instr)
  | loop (t : BlockType) (body : List Instr)
  | ifThen (t : BlockType) (body : List Instr)
  | ifElse (t : BlockType) (body other : List Instr)
deriving Inhabited

instance : Coe Plain Instr := ⟨.plain⟩

def IntBinary.opcode (w : Width) (op : IntBinary) : UInt8 :=
  (match w with | .w32 => 0x6A | .w64 => 0x7C) + match op with
    | add => 0
    | sub => 1
    | mul => 2
    | divS => 3
    | remS => 5
    | and => 7
    | or => 8
    | xor => 9
    | shl => 10
    | shrS => 11
    | shrU => 12

def IntCompare.opcode (w : Width) (op : IntCompare) : UInt8 :=
  (match w with | .w32 => 0x46 | .w64 => 0x51) + match op with
    | eq => 0
    | ne => 1
    | ltS => 2
    | gtS => 4
    | leS => 6
    | geS => 8

def FloatBinary.opcode (w : Width) (op : FloatBinary) : UInt8 :=
  (match w with | .w32 => 0x92 | .w64 => 0xA0) + match op with
    | add => 0
    | sub => 1
    | mul => 2
    | div => 3

def FloatCompare.opcode (w : Width) (op : FloatCompare) : UInt8 :=
  (match w with | .w32 => 0x5D | .w64 => 0x63) + match op with
    | lt => 0
    | gt => 1
    | le => 2
    | ge => 3

/-- A saturating truncation is told apart by a number after its opcode. -/
def truncSat (number : Nat) : Bytes := 0xFC :: Leb128.unsigned number

def Convert.encode : Convert → Bytes
  | wrap => [0xA7]
  | extendS => [0xAC]
  | extendU => [0xAD]
  | toFloatS .w32 .w32 => [0xB2]
  | toFloatS .w64 .w32 => [0xB4]
  | toFloatS .w32 .w64 => [0xB7]
  | toFloatS .w64 .w64 => [0xB9]
  | truncSatS .w32 .w32 => truncSat 0
  | truncSatS .w64 .w32 => truncSat 2
  | truncSatS .w32 .w64 => truncSat 4
  | truncSatS .w64 .w64 => truncSat 6
  | promote => [0xBB]
  | demote => [0xB6]
  | extend8S => [0xC0]
  | extend16S => [0xC1]

/-- An opcode with an index. -/
def indexed (opcode : UInt8) (index : UInt32) : Bytes := opcode :: Leb128.unsigned index.toNat

def Plain.encode : Plain → Bytes
  | unreachable => [0x00]
  | br d => indexed 0x0C d
  | brIf d => indexed 0x0D d
  | brTable ds d =>
    0x0E :: vector (fun d => Leb128.unsigned d.toNat) ds ++ Leb128.unsigned d.toNat
  | ret => [0x0F]
  | call f => indexed 0x10 f
  | drop => [0x1A]
  | select => [0x1B]
  | localGet i => indexed 0x20 i
  | localSet i => indexed 0x21 i
  | localTee i => indexed 0x22 i
  | globalGet i => indexed 0x23 i
  | globalSet i => indexed 0x24 i
  | i32Const v => 0x41 :: Leb128.signed v.toInt
  | i64Const v => 0x42 :: Leb128.signed v.toInt
  | f32Const bits => 0x43 :: Bytes.le32 bits
  | f64Const bits => 0x44 :: Bytes.le64 bits
  | i32Eqz => [0x45]
  | intBinary w op => [op.opcode w]
  | intCompare w op => [op.opcode w]
  | floatNeg .w32 => [0x8C]
  | floatNeg .w64 => [0x9A]
  | floatBinary w op => [op.opcode w]
  | floatCompare w op => [op.opcode w]
  | convert c => c.encode
  | refNull t => [0xD0, t.byte]
  | refIsNull => [0xD1]

/-- The opcodes that open, divide and close a construct. -/
def blockOpcode : UInt8 := 0x02

def loopOpcode : UInt8 := 0x03

def ifOpcode : UInt8 := 0x04

def elseOpcode : UInt8 := 0x05

def endOpcode : UInt8 := 0x0B

/-- How a construct starts. -/
def opening (opcode : UInt8) (t : BlockType) : Bytes := opcode :: t.encode

mutual

def Instr.encode : Instr → Bytes
  | .plain p => p.encode
  | .block t body => opening blockOpcode t ++ Instr.encodeAll body ++ [endOpcode]
  | .loop t body => opening loopOpcode t ++ Instr.encodeAll body ++ [endOpcode]
  | .ifThen t body => opening ifOpcode t ++ Instr.encodeAll body ++ [endOpcode]
  | .ifElse t body other =>
    opening ifOpcode t ++ Instr.encodeAll body ++ elseOpcode :: Instr.encodeAll other
      ++ [endOpcode]

def Instr.encodeAll : List Instr → Bytes
  | [] => []
  | i :: is => i.encode ++ Instr.encodeAll is

end

end ClassWasm.Wasm
