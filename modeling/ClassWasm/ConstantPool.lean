/-
  The constant pool of a class: slots addressed from 1, filled by appending. Look-ups follow
  indices from entry to entry and check the tag at every step.
-/
import ClassWasm.ConstantPool.Entry

namespace ClassWasm

structure Pool where
  slots : Array (Option Entry)
deriving DecidableEq

/-- A field or method named by its class, name and descriptor. -/
structure MemberRef where
  owner : Text
  name : Text
  descriptor : Text
deriving DecidableEq, Hashable, Inhabited

def MemberRef.text (m : MemberRef) : Text := m.owner ++ "." ++ m.name ++ ":" ++ m.descriptor

namespace Pool

inductive Error where
  /-- No entry stands at the index. -/
  | noEntry (index : PoolIndex) (slots : Nat)
  /-- The entry at the index has another tag than those wanted. -/
  | wrongTag (index : PoolIndex) (found : Tag) (wanted : List Tag)
  /-- No entry with a wanted tag could be had at the index. -/
  | unavailable (index : PoolIndex) (wanted : List Tag) (reason : Error)
  | handleKind (kind : UInt8)
  | owner (reason : Error)
  | nameAndType (reason : Error)
  | noCount (s : Shortage)
  | zeroCount
  | noTag (index : Nat) (s : Shortage)
  | unreadable (tag : Tag) (index : Nat) (reason : Entry.ReadError)
  | overrun (tag : Tag) (index count : Nat)
  | invalidEntry (index : Nat) (tag : Tag) (reason : Error)
  | tooManySlots (slots : Nat)
  | textTooLong (index length : Nat)

def tagsText (tags : List Tag) : Text := Text.join "|" (tags.map Tag.name)

def Error.message : Error → Text
  | noEntry index slots =>
    s!"invalid constant pool index: #{index.toNat} (pool has {slots} slots)"
  | wrongTag index found wanted =>
    s!"invalid symbol reference: #{index.toNat} is " ++ found.name ++ ", want " ++ tagsText wanted
  | unavailable index wanted reason =>
    s!"invalid symbol reference: #{index.toNat} is not a " ++ tagsText wanted ++ " entry: "
      ++ reason.message
  | handleKind kind => s!"invalid symbol reference: method handle kind {kind.toNat}"
  | owner reason => "resolving owner class: " ++ reason.message
  | nameAndType reason => "resolving name and type: " ++ reason.message
  | noCount s => "reading constant pool count: " ++ Fault.message s
  | zeroCount => "constant_pool_count must be at least 1"
  | noTag index s => s!"reading constant pool tag at index {index}: " ++ Fault.message s
  | unreadable tag index reason =>
    "reading " ++ tag.name ++ s!" at index {index}: " ++ reason.message
  | overrun tag index count =>
    tag.name ++ s!" at index {index} overruns constant_pool_count {count}"
  | invalidEntry index tag reason =>
    s!"constant pool entry #{index} (" ++ tag.name ++ "): " ++ reason.message
  | tooManySlots slots => s!"constant pool has {slots} slots, limit is 65535"
  | textTooLong index length => s!"Utf8 at index {index} is {length} bytes, limit is 65535"

def Error.causes : Error → List Cause
  | noEntry .. => [.invalidIndex]
  | wrongTag .. | handleKind _ => [.invalidReference]
  | unavailable _ _ reason => .invalidReference :: reason.causes
  | owner reason | nameAndType reason | invalidEntry _ _ reason => reason.causes
  | noCount s | noTag _ s => Fault.causes s
  | unreadable _ _ reason => reason.causes
  | zeroCount | overrun .. | tooManySlots _ | textTooLong .. => []

instance : Fault Error := ⟨Error.message, Error.causes⟩

def empty : Pool := ⟨#[none]⟩

/-- The number of slots, slot 0 included. -/
def size (p : Pool) : Nat := p.slots.size

/-- Appends an entry. -/
def push (p : Pool) (e : Entry) : Pool :=
  let slots := p.slots.push (some e)
  ⟨if e.isWide then slots.push none else slots⟩

/-- The index that the next entry gets, as far as 16 bits show it. -/
def nextIndex (p : Pool) : PoolIndex := UInt16.ofNat p.size

def get (p : Pool) (index : PoolIndex) : Except Error Entry :=
  if index = 0 then .error (.noEntry index p.size)
  else match p.slots[index.toNat]? with
    | some (some e) => .ok e
    | _ => .error (.noEntry index p.size)

/-- The entry at `index`, which must have one of `tags`. -/
def expect (p : Pool) (index : PoolIndex) (tags : List Tag) : Except Error Entry :=
  match p.get index with
  | .error reason => .error (.unavailable index tags reason)
  | .ok e => if e.tag ∈ tags then .ok e else .error (.wrongTag index e.tag tags)

def utf8 (p : Pool) (index : PoolIndex) : Except Error Text := do
  match ← p.expect index [.utf8] with
  | .utf8 text => .ok text
  | e => .error (.wrongTag index e.tag [.utf8])

def className (p : Pool) (index : PoolIndex) : Except Error Text := do
  match ← p.expect index [.classRef] with
  | .classRef name => p.utf8 name
  | e => .error (.wrongTag index e.tag [.classRef])

/-- The name and the descriptor of a name-and-type entry. -/
def nameAndType (p : Pool) (index : PoolIndex) : Except Error (Text × Text) := do
  match ← p.expect index [.nameAndType] with
  | .nameAndType name descriptor => do
    let n ← p.utf8 name
    let d ← p.utf8 descriptor
    .ok (n, d)
  | e => .error (.wrongTag index e.tag [.nameAndType])

def member (p : Pool) (owner nameAndType : PoolIndex) : Except Error MemberRef := do
  let className ← (p.className owner).mapError .owner
  let (name, descriptor) ← (p.nameAndType nameAndType).mapError .nameAndType
  .ok ⟨className, name, descriptor⟩

def fieldRef (p : Pool) (index : PoolIndex) : Except Error MemberRef := do
  match ← p.expect index [.fieldRef] with
  | .fieldRef owner nameAndType => p.member owner nameAndType
  | e => .error (.wrongTag index e.tag [.fieldRef])

/-- A method of a class or an interface. -/
def methodRef (p : Pool) (index : PoolIndex) : Except Error MemberRef := do
  match ← p.expect index [.methodRef, .interfaceMethodRef] with
  | .methodRef owner nameAndType | .interfaceMethodRef owner nameAndType =>
    p.member owner nameAndType
  | e => .error (.wrongTag index e.tag [.methodRef, .interfaceMethodRef])

/-- The first text entry whose encoding has no room for its length, with its index. -/
def longText? (p : Pool) : Option (Nat × Nat) :=
  p.slots.toList.zipIdx.findSome? fun
    | (some (.utf8 text), i) =>
      let length := (ModifiedUtf8.encode text).length
      if length > 65535 then some (i, length) else none
    | _ => none

/-- The number of slots and the entries as they stand in a class file. -/
def encode (p : Pool) : Except Error Bytes :=
  if p.size > 65535 then .error (.tooManySlots p.size)
  else match p.longText? with
    | some (index, length) => .error (.textTooLong index length)
    | none => .ok (Bytes.be16 (UInt16.ofNat p.size) ++ p.slots.toList.flatMap fun
        | some e => e.tag.code :: e.payload
        | none => [])

end Pool

end ClassWasm
