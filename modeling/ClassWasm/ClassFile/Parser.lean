/-
  Reading a class file. Every byte must be used, every index must resolve and every descriptor
  must be one; the first thing in file order that is wrong is reported, with the places that lead
  to it.
-/
import ClassWasm.ClassFile
import ClassWasm.ConstantPool.Reader

namespace ClassWasm.ClassFile

/-- What was being done when something went wrong. -/
inductive Place where
  | reading (what : Text)
  | resolving (what : Text)
  | parsing (what : Text)
  | inside (what : Text)

def Place.text : Place → Text
  | reading what => "reading " ++ what
  | resolving what => "resolving " ++ what
  | parsing what => "parsing " ++ what
  | inside what => what

inductive Error where
  | short (s : Shortage)
  | pool (e : Pool.Error)
  | descriptor (e : Descriptor.Error)
  | magic (found : UInt32)
  | codeLength (length : UInt32)
  | attributeLength (name : Text) (length : UInt32) (left : Nat)
  | attributeTrailing (left : Nat)
  | classTrailing (left : Nat)
  | within (place : Place) (reason : Error)

def Error.message : Error → Text
  | short s => Fault.message s
  | pool e => e.message
  | descriptor e => e.message
  | magic found => "invalid magic number: 0x" ++ Text.hexUpper found.toNat ++ " (expected 0xCAFEBABE)"
  | codeLength length => s!"code_length {length.toNat} out of range"
  | attributeLength name length left =>
    name ++ s!": truncated input: length {length.toNat} exceeds {left} remaining bytes"
  | attributeTrailing left => s!"{left} unexpected trailing bytes"
  | classTrailing left => s!"{left} trailing bytes after class attributes"
  | within place reason => place.text ++ ": " ++ reason.message

def Error.causes : Error → List Cause
  | short s => Fault.causes s
  | pool e => e.causes
  | attributeLength .. => [.truncated]
  | within _ reason => reason.causes
  | descriptor _ | magic _ | codeLength _ | attributeTrailing _ | classTrailing _ => []

instance : Fault Error := ⟨Error.message, Error.causes⟩

instance : MonadLift (Reader Shortage) (Reader Error) := ⟨Reader.mapError .short⟩

instance : MonadLift (Except Pool.Error) (Reader Error) :=
  ⟨fun x => Reader.ofExcept (x.mapError .pool)⟩

namespace Parser

def within {α : Type} (place : Place) (r : Reader Error α) : Reader Error α :=
  r.mapError (.within place)

def reading {α : Type} (what : Text) (r : Reader Shortage α) : Reader Error α :=
  r.mapError fun s => .within (.reading what) (.short s)

def resolving {α : Type} (what : Text) (x : Except Pool.Error α) : Reader Error α :=
  Reader.ofExcept (x.mapError fun e => .within (.resolving what) (.pool e))

def utf8 (pool : Pool) : Reader Error Text := do
  pool.utf8 (← Cursor.u16)

def classIndex (pool : Pool) : Reader Error PoolIndex := do
  let index ← Cursor.u16
  let _ ← pool.className index
  pure index

/-- A 16-bit count and that many values. -/
def counted {α : Type} (r : Nat → Reader Error α) : Reader Error (List α) := do
  let n ← Cursor.u16
  Reader.list n.toNat r

def constantTags : List Tag := [.integer, .float, .long, .double, .string]

def constantValue (pool : Pool) : Reader Error Entry := do
  pool.expect (← Cursor.u16) constantTags

def lineNumber : Reader Error LineNumber := do
  let start ← Cursor.u16
  let line ← Cursor.u16
  pure ⟨start, line⟩

def localVariable (pool : Pool) : Reader Error LocalVariable := do
  let start ← Cursor.u16
  let length ← Cursor.u16
  let name ← utf8 pool
  let descriptor ← utf8 pool
  let index ← Cursor.u16
  pure ⟨start, length, name, descriptor, index⟩

def bootstrapMethod (pool : Pool) (i : Nat) : Reader Error BootstrapMethod := do
  let method ← Cursor.u16
  within (.inside s!"bootstrap method {i}") do
    let _ ← pool.expect method [.methodHandle]
  let args ← counted fun _ => Cursor.u16
  pure ⟨method, args⟩

def handler (pool : Pool) (i : Nat) : Reader Error Handler := do
  let (start, stop, target, catchType) ← reading s!"exception handler {i}" do
    let start ← Cursor.u16
    let stop ← Cursor.u16
    let target ← Cursor.u16
    let catchType ← Cursor.u16
    pure (start, stop, target, catchType)
  if catchType ≠ 0 then
    let _ ← resolving s!"catch type of handler {i}" (pool.className catchType)
  pure ⟨start, stop, target, catchType⟩

/-- A method body; `attributes` reads its attributes. -/
def code (pool : Pool) (attributes : Reader Error Attributes) : Reader Error Code := do
  let maxStack ← reading "max_stack" Cursor.u16
  let maxLocals ← reading "max_locals" Cursor.u16
  let length ← reading "code_length" Cursor.u32
  if length = 0 ∨ length > 65535 then throw (.codeLength length)
  let bytes ← reading "code" (Cursor.take length.toNat)
  let n ← reading "exception table length" Cursor.u16
  let handlers ← Reader.list n.toNat (handler pool)
  let attributes ← within (.parsing "Code attributes") attributes
  pure ⟨maxStack, maxLocals, bytes, handlers, attributes⟩

/-- All bytes that are left. -/
def remainder : Reader Error Bytes := fun c => .ok (c.rest, ⟨[], c.offset + c.remaining⟩)

/-- The contents of an attribute of that name. -/
def contents (pool : Pool) (nested : Reader Error Attributes) (name : Text) :
    Reader Error Attribute :=
  if name = "ConstantValue" then .constantValue <$> constantValue pool
  else if name = "Code" then .code <$> code pool nested
  else if name = "Exceptions" then .exceptions <$> counted fun _ => classIndex pool
  else if name = "SourceFile" then .sourceFile <$> utf8 pool
  else if name = "Signature" then .signature <$> utf8 pool
  else if name = "Synthetic" then pure .synthetic
  else if name = "Deprecated" then pure .deprecated
  else if name = "LineNumberTable" then .lineNumbers <$> counted fun _ => lineNumber
  else if name = "LocalVariableTable" then .localVariables <$> counted fun _ => localVariable pool
  else if name = "BootstrapMethods" then .bootstrapMethods <$> counted (bootstrapMethod pool)
  else .other name <$> remainder

/-- `r` on a cursor of its own, which it must use up. -/
def whole {α : Type} (r : Reader Error α) (body : Cursor) : Except Error α := do
  let (a, c) ← r body
  match c.rest with
  | [] => .ok a
  | _ :: _ => .error (.attributeTrailing c.remaining)

/-- The bytes of an attribute as a cursor of their own. -/
def body (name : Text) (length : UInt32) : Reader Error Cursor := fun c =>
  match Cursor.sub length.toNat c with
  | .ok r => .ok r
  | .error _ => .error (.attributeLength name length c.remaining)

def oneAttribute (pool : Pool) (nested : Reader Error Attributes) (i : Nat) :
    Reader Error Attribute := do
  let nameIndex ← reading s!"attribute {i} name index" Cursor.u16
  let name ← resolving s!"attribute {i} name" (pool.utf8 nameIndex)
  let length ← reading (name ++ " length") Cursor.u32
  let body ← body name length
  within (.parsing (name ++ " attribute"))
    (Reader.ofExcept (whole (contents pool nested name) body))

/-- A list of attributes. `depth` is at least the number of bytes left, and each list inside
another one has fewer, so no bytes are left where `depth` is zero. -/
def attributes (pool : Pool) : (depth : Nat) → Reader Error Attributes
  | 0 => reading "attributes count" fun c => .error (c.shortage 2)
  | depth + 1 => do
    let count ← reading "attributes count" Cursor.u16
    Reader.list count.toNat (oneAttribute pool (attributes pool depth))

/-- Access flags, name, descriptor and attributes of a field or method. -/
def member (pool : Pool) (depth : Nat) : Reader Error (Access × Text × Text × Attributes) := do
  let access ← reading "access flags" Cursor.u16
  let nameIndex ← reading "name index" Cursor.u16
  let descriptorIndex ← reading "descriptor index" Cursor.u16
  let name ← resolving "name" (pool.utf8 nameIndex)
  let descriptor ← resolving "descriptor" (pool.utf8 descriptorIndex)
  let attributes ← within (.parsing ("attributes of " ++ name)) (attributes pool depth)
  pure (⟨access⟩, name, descriptor, attributes)

def field (pool : Pool) (depth i : Nat) : Reader Error Field := do
  let (access, name, descriptor, attributes) ← within (.inside s!"field {i}") (member pool depth)
  within (.inside ("field " ++ name)) do
    let _ ← Reader.ofExcept ((Descriptor.parseField descriptor).mapError .descriptor)
  pure ⟨access, name, descriptor, attributes⟩

def method (pool : Pool) (depth i : Nat) : Reader Error Method := do
  let (access, name, descriptor, attributes) ← within (.inside s!"method {i}") (member pool depth)
  within (.inside ("method " ++ name)) do
    let _ ← Reader.ofExcept ((Descriptor.parseMethod descriptor).mapError .descriptor)
  pure ⟨access, name, descriptor, attributes⟩

def fields (pool : Pool) (depth : Nat) : Reader Error (List Field) := do
  let count ← reading "fields count" Cursor.u16
  Reader.list count.toNat (field pool depth)

def methods (pool : Pool) (depth : Nat) : Reader Error (List Method) := do
  let count ← reading "methods count" Cursor.u16
  Reader.list count.toNat (method pool depth)

def interface (pool : Pool) (i : Nat) : Reader Error PoolIndex := do
  let index ← reading s!"interface {i}" Cursor.u16
  let _ ← resolving s!"interface {i}" (pool.className index)
  pure index

def header : Reader Error (UInt16 × UInt16) := do
  let magic ← reading "magic number" Cursor.u32
  if magic ≠ 0xCAFEBABE then throw (.magic magic)
  let minor ← reading "minor version" Cursor.u16
  let major ← reading "major version" Cursor.u16
  pure (minor, major)

/-- A class file; `depth` is at least the number of bytes. -/
def classFile (depth : Nat) : Reader Error ClassFile := do
  let (minor, major) ← header
  let pool ← within (.parsing "constant pool") (Pool.read.mapError .pool)
  let access ← reading "access flags" Cursor.u16
  let thisClass ← reading "this_class" Cursor.u16
  let _ ← resolving "this_class" (pool.className thisClass)
  let superClass ← reading "super_class" Cursor.u16
  if superClass ≠ 0 then
    let _ ← resolving "super_class" (pool.className superClass)
  let count ← reading "interfaces count" Cursor.u16
  let interfaces ← Reader.list count.toNat (interface pool)
  let fields ← within (.parsing "fields") (fields pool depth)
  let methods ← within (.parsing "methods") (methods pool depth)
  let attributes ← within (.parsing "class attributes") (attributes pool depth)
  pure ⟨minor, major, pool, ⟨access⟩, thisClass, superClass, interfaces, fields, methods, attributes⟩

end Parser

/-- The class file that the bytes are, all of them. -/
def parse (bytes : Bytes) : Except Error ClassFile := do
  let (c, cursor) ← Parser.classFile bytes.length ⟨bytes, 0⟩
  match cursor.rest with
  | [] => .ok c
  | _ :: _ => .error (.classTrailing cursor.remaining)

end ClassWasm.ClassFile
