/-
  Entries of a constant pool, the tags that mark them in a class file, and what each entry
  requires of the entries it points at.
-/
import ClassWasm.Cursor
import ClassWasm.ModifiedUtf8

namespace ClassWasm

/-- The byte in front of a pool entry. -/
structure Tag where
  code : UInt8
deriving DecidableEq, Inhabited

namespace Tag

def utf8 : Tag := ⟨1⟩
def integer : Tag := ⟨3⟩
def float : Tag := ⟨4⟩
def long : Tag := ⟨5⟩
def double : Tag := ⟨6⟩
def classRef : Tag := ⟨7⟩
def string : Tag := ⟨8⟩
def fieldRef : Tag := ⟨9⟩
def methodRef : Tag := ⟨10⟩
def interfaceMethodRef : Tag := ⟨11⟩
def nameAndType : Tag := ⟨12⟩
def methodHandle : Tag := ⟨15⟩
def methodType : Tag := ⟨16⟩
def dynamic : Tag := ⟨17⟩
def invokeDynamic : Tag := ⟨18⟩

/-- The name of a tag, or its number where no entry has it. -/
def name (t : Tag) : Text :=
  match t.code with
  | 1 => "Utf8"
  | 3 => "Integer"
  | 4 => "Float"
  | 5 => "Long"
  | 6 => "Double"
  | 7 => "Class"
  | 8 => "String"
  | 9 => "Fieldref"
  | 10 => "Methodref"
  | 11 => "InterfaceMethodref"
  | 12 => "NameAndType"
  | 15 => "MethodHandle"
  | 16 => "MethodType"
  | 17 => "Dynamic"
  | 18 => "InvokeDynamic"
  | n => s!"tag({n.toNat})"

end Tag

/-- An index into a pool; slot 0 never holds an entry. -/
abbrev PoolIndex := UInt16

/-- Entries point at each other by index only. Floating point numbers are kept as bit patterns. -/
inductive Entry where
  | utf8 (text : Text)
  | integer (value : Int32)
  | float (bits : UInt32)
  | long (value : Int64)
  | double (bits : UInt64)
  | classRef (name : PoolIndex)
  | string (text : PoolIndex)
  | fieldRef (owner nameAndType : PoolIndex)
  | methodRef (owner nameAndType : PoolIndex)
  | interfaceMethodRef (owner nameAndType : PoolIndex)
  | nameAndType (name descriptor : PoolIndex)
  | methodHandle (kind : UInt8) (reference : PoolIndex)
  | methodType (descriptor : PoolIndex)
  | dynamic (bootstrap nameAndType : PoolIndex)
  | invokeDynamic (bootstrap nameAndType : PoolIndex)
deriving DecidableEq, Inhabited

namespace Entry

def tag : Entry → Tag
  | utf8 _ => .utf8
  | integer _ => .integer
  | float _ => .float
  | long _ => .long
  | double _ => .double
  | classRef _ => .classRef
  | string _ => .string
  | fieldRef .. => .fieldRef
  | methodRef .. => .methodRef
  | interfaceMethodRef .. => .interfaceMethodRef
  | nameAndType .. => .nameAndType
  | methodHandle .. => .methodHandle
  | methodType _ => .methodType
  | dynamic .. => .dynamic
  | invokeDynamic .. => .invokeDynamic

/-- Whether the entry takes two slots, the second of which stays empty. -/
def isWide : Entry → Bool
  | long _ | double _ => true
  | _ => false

/-- The slots that the entry takes, in order. -/
def slots (e : Entry) : List (Option Entry) :=
  if e.isWide then [some e, none] else [some e]

/-- Why the bytes after a tag are no entry. -/
inductive ReadError where
  | short (s : Shortage)
  | malformedText (offset : Nat)
  | unknownTag (tag : Tag)

def ReadError.message : ReadError → Text
  | short s => Fault.message s
  | malformedText offset => s!"malformed modified UTF-8 at byte {offset}"
  | unknownTag tag => s!"unknown constant pool tag {tag.code.toNat}"

def ReadError.causes : ReadError → List Cause
  | short s => Fault.causes s
  | _ => []

instance : MonadLift (Reader Shortage) (Reader ReadError) := ⟨Reader.mapError .short⟩

def readText : Reader ReadError Text := do
  let length ← Cursor.u16
  let bs ← Cursor.take length.toNat
  Reader.ofExcept ((ModifiedUtf8.decode bs).mapError .malformedText)

def readPair (make : PoolIndex → PoolIndex → Entry) : Reader ReadError Entry := do
  let a ← Cursor.u16
  let b ← Cursor.u16
  pure (make a b)

/-- The entry after its tag. -/
def read (tag : Tag) : Reader ReadError Entry :=
  match tag.code with
  | 1 => utf8 <$> readText
  | 3 => do pure (integer (← Cursor.i32))
  | 4 => do pure (float (← Cursor.u32))
  | 5 => do pure (long (← Cursor.i64))
  | 6 => do pure (double (← Cursor.u64))
  | 7 => do pure (classRef (← Cursor.u16))
  | 8 => do pure (string (← Cursor.u16))
  | 9 => readPair fieldRef
  | 10 => readPair methodRef
  | 11 => readPair interfaceMethodRef
  | 12 => readPair nameAndType
  | 15 => do
    let kind ← Cursor.u8
    pure (methodHandle kind (← Cursor.u16))
  | 16 => do pure (methodType (← Cursor.u16))
  | 17 => readPair dynamic
  | 18 => readPair invokeDynamic
  | _ => throw (.unknownTag tag)

/-- The bytes of text are given, since their number has a limit that is checked before. -/
def payload : Entry → Bytes
  | utf8 text =>
    let bs := ModifiedUtf8.encode text
    Bytes.be16 (UInt16.ofNat bs.length) ++ bs
  | integer value => Bytes.be32 value.toUInt32
  | float bits => Bytes.be32 bits
  | long value => Bytes.be64 value.toUInt64
  | double bits => Bytes.be64 bits
  | classRef a | string a | methodType a => Bytes.be16 a
  | fieldRef a b | methodRef a b | interfaceMethodRef a b | nameAndType a b | dynamic a b
  | invokeDynamic a b => Bytes.be16 a ++ Bytes.be16 b
  | methodHandle kind a => kind :: Bytes.be16 a

/-- An index and the tags that the entry there may have. -/
structure Requirement where
  index : PoolIndex
  tags : List Tag
deriving DecidableEq

def memberRequirements (owner nameAndType : PoolIndex) : List Requirement :=
  [⟨owner, [.classRef]⟩, ⟨nameAndType, [.nameAndType]⟩]

/-- What a method handle of each kind points at: fields for 1 to 4, methods for 5 to 9. -/
def handleTags? (kind : UInt8) : Option (List Tag) :=
  match kind with
  | 1 | 2 | 3 | 4 => some [.fieldRef]
  | 5 | 8 => some [.methodRef]
  | 6 | 7 => some [.methodRef, .interfaceMethodRef]
  | 9 => some [.interfaceMethodRef]
  | _ => none

/-- What the entry requires, in the order in which it is checked; `none` for a method handle of
an unknown kind. -/
def requirements? : Entry → Option (List Requirement)
  | utf8 _ | integer _ | float _ | long _ | double _ => some []
  | classRef a | string a | methodType a => some [⟨a, [.utf8]⟩]
  | fieldRef a b | methodRef a b | interfaceMethodRef a b => some (memberRequirements a b)
  | nameAndType a b => some [⟨a, [.utf8]⟩, ⟨b, [.utf8]⟩]
  | dynamic _ b | invokeDynamic _ b => some [⟨b, [.nameAndType]⟩]
  | methodHandle kind a => (handleTags? kind).map fun tags => [⟨a, tags⟩]

end Entry

end ClassWasm
