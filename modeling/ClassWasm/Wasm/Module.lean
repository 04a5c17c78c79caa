/-
  WebAssembly modules and their binary form: a header and then the sections that are not empty,
  each with its length, in the order that the format requires.
-/
import ClassWasm.Wasm.Instr

namespace ClassWasm.Wasm

/-- A constant that starts off a global or places a segment. -/
inductive ConstExpr where
  | i32 (value : Int32)
  | i64 (value : Int64)
  | f32 (bits : UInt32)
  | f64 (bits : UInt64)
  | null (t : ValType)
  /-- Instructions given as bytes. -/
  | raw (bytes : Bytes)
deriving DecidableEq, Inhabited

namespace ConstExpr

/-- Without the opcode that ends the expression. -/
def encode : ConstExpr → Bytes
  | i32 v => (Plain.i32Const v).encode
  | i64 v => (Plain.i64Const v).encode
  | f32 bits => (Plain.f32Const bits).encode
  | f64 bits => (Plain.f64Const bits).encode
  | null t => (Plain.refNull t).encode
  | raw bytes => bytes

/-- The value that a variable of the type starts with. -/
def zero : ValType → ConstExpr
  | .i32 => i32 0
  | .i64 => i64 0
  | .f32 => f32 0
  | .f64 => f64 0
  | .funcref => null .funcref
  | .externref => null .externref

end ConstExpr

inductive ImportType where
  | func (type : UInt32)
  | table (type : TableType)
  | memory (limits : Limits)
  | global (type : GlobalType)
deriving DecidableEq, Inhabited

namespace ImportType

def kind : ImportType → ExternKind
  | func _ => .func
  | table _ => .table
  | memory _ => .memory
  | global _ => .global

def encode : ImportType → Bytes
  | func type => 0x00 :: Leb128.unsigned type.toNat
  | table type => 0x01 :: type.encode
  | memory limits => 0x02 :: limits.encode
  | global type => 0x03 :: type.encode

end ImportType

structure Import where
  module : Text
  name : Text
  type : ImportType
deriving DecidableEq, Inhabited

def Import.encode (i : Import) : Bytes :=
  encodeName i.module ++ encodeName i.name ++ i.type.encode

structure Export where
  name : Text
  kind : ExternKind
  index : UInt32
deriving DecidableEq, Inhabited

def Export.encode (e : Export) : Bytes :=
  encodeName e.name ++ e.kind.byte :: Leb128.unsigned e.index.toNat

structure Global where
  type : GlobalType
  init : ConstExpr
deriving DecidableEq, Inhabited

def Global.encode (g : Global) : Bytes := g.type.encode ++ g.init.encode ++ [endOpcode]

/-- Functions placed into the first table. -/
structure Element where
  offset : ConstExpr
  functions : List UInt32
deriving DecidableEq, Inhabited

def Element.encode (e : Element) : Bytes :=
  0x00 :: e.offset.encode ++ endOpcode :: vector (fun f => Leb128.unsigned f.toNat) e.functions

/-- Bytes placed into the first memory. -/
structure Data where
  offset : ConstExpr
  bytes : Bytes
deriving DecidableEq, Inhabited

def Data.encode (d : Data) : Bytes :=
  0x00 :: d.offset.encode ++ endOpcode :: Leb128.unsigned d.bytes.length ++ d.bytes

/-- A number of locals of one type. -/
structure LocalRun where
  count : UInt32
  type : ValType
deriving DecidableEq, Inhabited

def LocalRun.encode (r : LocalRun) : Bytes := Leb128.unsigned r.count.toNat ++ [r.type.byte]

/-- A function body, with the opcode that ends it. -/
structure FuncBody where
  locals : List LocalRun
  bytes : Bytes
deriving DecidableEq, Inhabited

namespace FuncBody

def numLocals (b : FuncBody) : Nat := (b.locals.map fun r => r.count.toNat).foldr (· + ·) 0

def encode (b : FuncBody) : Bytes :=
  let payload := vector LocalRun.encode b.locals ++ b.bytes
  Leb128.unsigned payload.length ++ payload

end FuncBody

/-- The contents of all sections. The k-th body belongs to the k-th entry of `functions`, which
gives its type. -/
structure Module where
  types : Array FuncType := #[]
  imports : Array Import := #[]
  functions : Array UInt32 := #[]
  tables : Array TableType := #[]
  memories : Array Limits := #[]
  globals : Array Global := #[]
  exports : Array Export := #[]
  start : Option UInt32 := none
  elements : Array Element := #[]
  bodies : Array FuncBody := #[]
  data : Array Data := #[]
deriving DecidableEq, Inhabited

/-- The index of a function type, and the types with it added where it was missing. -/
def internType (types : Array FuncType) (f : FuncType) : Nat × Array FuncType :=
  match types.findIdx? (· = f) with
  | some i => (i, types)
  | none => (types.size, types.push f)

namespace Module

/-- How many imports there are of a kind, and so the first index that is left for definitions. -/
def importCount (m : Module) (kind : ExternKind) : Nat :=
  (m.imports.toList.filter fun i => i.type.kind = kind).length

def sized (id : UInt8) (payload : Bytes) : Bytes :=
  id :: Leb128.unsigned payload.length ++ payload

/-- A section of items, left out where there are none. -/
def itemSection {α : Type} (id : UInt8) (encode : α → Bytes) (items : Array α) : Bytes :=
  if items.isEmpty then [] else sized id (vector encode items.toList)

def header : Bytes := [0x00, 0x61, 0x73, 0x6D, 0x01, 0x00, 0x00, 0x00]

def startSection (m : Module) : Bytes :=
  match m.start with
  | none => []
  | some f => sized 8 (Leb128.unsigned f.toNat)

/-- The number of data segments, which stands before the code. -/
def dataCountSection (m : Module) : Bytes :=
  if m.data.isEmpty then [] else sized 12 (Leb128.unsigned m.data.size)

def encode (m : Module) : Bytes :=
  header
    ++ itemSection 1 FuncType.encode m.types
    ++ itemSection 2 Import.encode m.imports
    ++ itemSection 3 (fun f => Leb128.unsigned f.toNat) m.functions
    ++ itemSection 4 TableType.encode m.tables
    ++ itemSection 5 Limits.encode m.memories
    ++ itemSection 6 Global.encode m.globals
    ++ itemSection 7 Export.encode m.exports
    ++ m.startSection
    ++ itemSection 9 Element.encode m.elements
    ++ m.dataCountSection
    ++ itemSection 10 FuncBody.encode m.bodies
    ++ itemSection 11 Data.encode m.data

end Module

end ClassWasm.Wasm
