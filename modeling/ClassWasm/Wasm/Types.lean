/-
  Types of a WebAssembly module and their binary form.
-/
import ClassWasm.Descriptor
import ClassWasm.Wasm.Leb128

namespace ClassWasm.Wasm

inductive ValType where
  | i32
  | i64
  | f32
  | f64
  | funcref
  | externref
deriving DecidableEq, Inhabited

namespace ValType

def all : List ValType := [i32, i64, f32, f64, funcref, externref]

def byte : ValType → UInt8
  | i32 => 0x7F
  | i64 => 0x7E
  | f32 => 0x7D
  | f64 => 0x7C
  | funcref => 0x70
  | externref => 0x6F

def name : ValType → Text
  | i32 => "i32"
  | i64 => "i64"
  | f32 => "f32"
  | f64 => "f64"
  | funcref => "funcref"
  | externref => "externref"

/-- The name under a byte, also for bytes that stand for no type. -/
def nameOfByte (b : UInt8) : Text :=
  match all.find? (·.byte = b) with
  | some t => t.name
  | none => "valtype(0x" ++ Text.hex 2 b.toNat ++ ")"

/-- The type that holds values of a kind. -/
def ofKind : Kind → ValType
  | .long => i64
  | .float => f32
  | .double => f64
  | .ref => externref
  | .int | .void => i32

end ValType

/-- The number of items and then the items. -/
def vector {α : Type} (encode : α → Bytes) (items : List α) : Bytes :=
  Leb128.unsigned items.length ++ items.flatMap encode

/-- A name: its length in bytes and then the bytes. -/
def encodeName (t : Text) : Bytes := Leb128.unsigned t.length ++ t.bytes

structure FuncType where
  params : List ValType
  results : List ValType
deriving DecidableEq, Inhabited

namespace FuncType

def encode (f : FuncType) : Bytes :=
  0x60 :: vector (fun t => [t.byte]) f.params ++ vector (fun t => [t.byte]) f.results

/-- The type of the function that a static method becomes. -/
def ofMethodType (m : MethodType) : FuncType :=
  ⟨m.params.map fun p => .ofKind p.kind, (m.result.map fun r => .ofKind r.kind).toList⟩

end FuncType

/-- Bounds of a table or memory. -/
structure Limits where
  min : UInt32
  max : Option UInt32
deriving DecidableEq, Inhabited

def Limits.encode (l : Limits) : Bytes :=
  match l.max with
  | none => 0x00 :: Leb128.unsigned l.min.toNat
  | some max => 0x01 :: Leb128.unsigned l.min.toNat ++ Leb128.unsigned max.toNat

structure TableType where
  element : ValType
  limits : Limits
deriving DecidableEq, Inhabited

def TableType.encode (t : TableType) : Bytes := t.element.byte :: t.limits.encode

structure GlobalType where
  type : ValType
  mutable : Bool
deriving DecidableEq, Inhabited

def GlobalType.encode (g : GlobalType) : Bytes := [g.type.byte, if g.mutable then 0x01 else 0x00]

/-- What a block takes and gives: nothing, one value, or what a function type says. -/
inductive BlockType where
  | empty
  | value (t : ValType)
  | func (index : UInt32)
deriving DecidableEq, Inhabited

namespace BlockType

/-- The number that stands for the type in code; those below zero are single bytes there. -/
def code : BlockType → Int
  | empty => -0x40
  | value t => (t.byte.toNat : Int) - 0x80
  | func index => index.toNat

def encode (t : BlockType) : Bytes := Leb128.signed t.code

end BlockType

/-- What imports and exports can be. -/
inductive ExternKind where
  | func
  | table
  | memory
  | global
deriving DecidableEq, Inhabited

namespace ExternKind

def all : List ExternKind := [func, table, memory, global]

def byte : ExternKind → UInt8
  | func => 0x00
  | table => 0x01
  | memory => 0x02
  | global => 0x03

def name : ExternKind → Text
  | func => "func"
  | table => "table"
  | memory => "memory"
  | global => "global"

/-- The name under a byte, also for bytes that stand for nothing. -/
def nameOfByte (b : UInt8) : Text :=
  match all.find? (·.byte = b) with
  | some k => k.name
  | none => "extern(0x" ++ Text.hex 2 b.toNat ++ ")"

end ExternKind

end ClassWasm.Wasm
