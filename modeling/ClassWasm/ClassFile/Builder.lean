/-
  Building class files. Pool entries are shared: asking for the same entry twice gives one index,
  and an entry that points at others brings them with it.
-/
import ClassWasm.ClassFile

namespace ClassWasm.ClassFile

/-- An attribute with the index of its name. -/
structure StoredAttribute where
  name : PoolIndex
  payload : Bytes
deriving DecidableEq

/-- A field or method with the indices of its name and descriptor. -/
structure StoredMember where
  access : UInt16
  name : PoolIndex
  descriptor : PoolIndex
  attributes : List StoredAttribute
deriving DecidableEq

/-- A class under construction; `known` holds the entries that can be asked for again. -/
structure Builder where
  minor : UInt16 := 0
  major : UInt16 := 52
  access : UInt16 := 0x0021
  thisClass : PoolIndex := 0
  superClass : PoolIndex := 0
  pool : Pool := .empty
  known : List (Entry × PoolIndex) := []
  interfaces : List PoolIndex := []
  fields : List StoredMember := []
  methods : List StoredMember := []
  attributes : List StoredAttribute := []

/-- The body of a method to be built. -/
structure Body where
  maxStack : UInt16
  maxLocals : UInt16
  bytes : Bytes
  handlers : List Handler
deriving DecidableEq

namespace Builder

abbrev Build := StateM Builder

/-- Appends an entry even where there is an equal one. -/
def append (e : Entry) : Build PoolIndex :=
  modifyGet fun b => (b.pool.nextIndex, { b with pool := b.pool.push e })

/-- The index of an entry, which is appended where it is not known. -/
def intern (e : Entry) : Build PoolIndex := do
  match (← get).known.lookup e with
  | some i => pure i
  | none =>
    let i ← append e
    modify fun b => { b with known := (e, i) :: b.known }
    pure i

def utf8 (t : Text) : Build PoolIndex := intern (.utf8 t)

def classRef (name : Text) : Build PoolIndex := do
  let n ← utf8 name
  intern (.classRef n)

def string (t : Text) : Build PoolIndex := do
  let n ← utf8 t
  intern (.string n)

def nameAndType (name descriptor : Text) : Build PoolIndex := do
  let n ← utf8 name
  let d ← utf8 descriptor
  intern (.nameAndType n d)

/-- A reference to a member, made of its class and its name and type. -/
def member (make : PoolIndex → PoolIndex → Entry) (ref : MemberRef) : Build PoolIndex := do
  let c ← classRef ref.owner
  let nt ← nameAndType ref.name ref.descriptor
  intern (make c nt)

def fieldRef (ref : MemberRef) : Build PoolIndex := member .fieldRef ref

def methodRef (ref : MemberRef) : Build PoolIndex := member .methodRef ref

def interfaceMethodRef (ref : MemberRef) : Build PoolIndex := member .interfaceMethodRef ref

def addInterface (name : Text) : Build Unit := do
  let i ← classRef name
  modify fun b => { b with interfaces := b.interfaces ++ [i] }

/-- Adds a field, with a constant unless the index is zero. -/
def addField (access : UInt16) (name descriptor : Text) (constant : PoolIndex) : Build Unit := do
  let n ← utf8 name
  let d ← utf8 descriptor
  let attributes ← if constant = 0 then pure [] else do
    let a ← utf8 "ConstantValue"
    pure [⟨a, Bytes.be16 constant⟩]
  modify fun b => { b with fields := b.fields ++ [⟨access, n, d, attributes⟩] }

def handlerBytes (h : Handler) : Bytes :=
  Bytes.be16 h.start ++ Bytes.be16 h.stop ++ Bytes.be16 h.target ++ Bytes.be16 h.catchType

def bodyBytes (body : Body) : Bytes :=
  Bytes.be16 body.maxStack ++ Bytes.be16 body.maxLocals
    ++ Bytes.be32 (UInt32.ofNat body.bytes.length) ++ body.bytes
    ++ Bytes.be16 (UInt16.ofNat body.handlers.length) ++ body.handlers.flatMap handlerBytes
    ++ Bytes.be16 0

/-- Adds a method, with code where there is a body. -/
def addMethod (access : UInt16) (name descriptor : Text) (body : Option Body) : Build Unit := do
  let n ← utf8 name
  let d ← utf8 descriptor
  let attributes ← match body with
    | none => pure []
    | some body => do
      let a ← utf8 "Code"
      pure [⟨a, bodyBytes body⟩]
  modify fun b => { b with methods := b.methods ++ [⟨access, n, d, attributes⟩] }

def addAttribute (name : Text) (payload : Bytes) : Build Unit := do
  let n ← utf8 name
  modify fun b => { b with attributes := b.attributes ++ [⟨n, payload⟩] }

/-- A public class of that name; no name means no superclass. -/
def start (name superName : Text) : Builder :=
  let build : Build Unit := do
    let c ← classRef name
    modify fun b => { b with thisClass := c }
    if !superName.isEmpty then
      let s ← classRef superName
      modify fun b => { b with superClass := s }
  (build.run {}).2

def attributesBytes (as : List StoredAttribute) : Bytes :=
  Bytes.be16 (UInt16.ofNat as.length) ++ as.flatMap fun a =>
    Bytes.be16 a.name ++ Bytes.be32 (UInt32.ofNat a.payload.length) ++ a.payload

def membersBytes (ms : List StoredMember) : Bytes :=
  Bytes.be16 (UInt16.ofNat ms.length) ++ ms.flatMap fun m =>
    Bytes.be16 m.access ++ Bytes.be16 m.name ++ Bytes.be16 m.descriptor
      ++ attributesBytes m.attributes

/-- The pool does not fit into a class file. -/
structure Error where
  reason : Pool.Error

instance : Fault Error where
  message e := "writing constant pool: " ++ e.reason.message
  causes e := e.reason.causes

def magic : UInt32 := 0xCAFEBABE

/-- The class file. -/
def bytes (b : Builder) : Except Error Bytes := do
  let pool ← b.pool.encode.mapError .mk
  .ok (Bytes.be32 magic ++ Bytes.be16 b.minor ++ Bytes.be16 b.major ++ pool
    ++ Bytes.be16 b.access ++ Bytes.be16 b.thisClass ++ Bytes.be16 b.superClass
    ++ Bytes.be16 (UInt16.ofNat b.interfaces.length) ++ b.interfaces.flatMap Bytes.be16
    ++ membersBytes b.fields ++ membersBytes b.methods ++ attributesBytes b.attributes)

end Builder

end ClassWasm.ClassFile
