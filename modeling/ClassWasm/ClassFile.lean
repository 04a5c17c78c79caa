/-
  A class file: versions, constant pool, fields, methods and attributes. Attributes are kept in
  file order; where one occurs twice the later one counts.
-/
import ClassWasm.ConstantPool
import ClassWasm.Descriptor

namespace ClassWasm

/-- An entry of an exception table. -/
structure Handler where
  start : UInt16
  stop : UInt16
  target : UInt16
  catchType : UInt16
deriving DecidableEq, Inhabited

structure LineNumber where
  start : UInt16
  line : UInt16
deriving DecidableEq, Inhabited

structure LocalVariable where
  start : UInt16
  length : UInt16
  name : Text
  descriptor : Text
  index : UInt16
deriving DecidableEq, Inhabited

structure BootstrapMethod where
  method : PoolIndex
  args : List PoolIndex
deriving DecidableEq, Inhabited

mutual

inductive Attribute where
  | constantValue (entry : Entry)
  | code (body : Code)
  | exceptions (classes : List PoolIndex)
  | sourceFile (name : Text)
  | signature (text : Text)
  | synthetic
  | deprecated
  | lineNumbers (lines : List LineNumber)
  | localVariables (locals : List LocalVariable)
  | bootstrapMethods (methods : List BootstrapMethod)
  | other (name : Text) (payload : Bytes)

/-- The body of a method. -/
structure Code where
  maxStack : UInt16
  maxLocals : UInt16
  bytes : Bytes
  handlers : List Handler
  attributes : List Attribute

end

namespace Attribute

def name : Attribute → Text
  | constantValue _ => "ConstantValue"
  | code _ => "Code"
  | exceptions _ => "Exceptions"
  | sourceFile _ => "SourceFile"
  | signature _ => "Signature"
  | synthetic => "Synthetic"
  | deprecated => "Deprecated"
  | lineNumbers _ => "LineNumberTable"
  | localVariables _ => "LocalVariableTable"
  | bootstrapMethods _ => "BootstrapMethods"
  | other name _ => name

end Attribute

abbrev Attributes := List Attribute

namespace Attributes

/-- What the last attribute that `pick` picks gives. -/
def last? {α : Type} (as : Attributes) (pick : Attribute → Option α) : Option α :=
  as.reverse.findSome? pick

def has (as : Attributes) (name : Text) : Bool := as.any (·.name = name)

def constantValue? (as : Attributes) : Option Entry :=
  as.last? fun | .constantValue e => some e | _ => none

def code? (as : Attributes) : Option Code :=
  as.last? fun | .code c => some c | _ => none

def exceptions? (as : Attributes) : Option (List PoolIndex) :=
  as.last? fun | .exceptions l => some l | _ => none

def sourceFile? (as : Attributes) : Option Text :=
  as.last? fun | .sourceFile t => some t | _ => none

def signature? (as : Attributes) : Option Text :=
  as.last? fun | .signature t => some t | _ => none

def lineNumbers? (as : Attributes) : Option (List LineNumber) :=
  as.last? fun | .lineNumbers l => some l | _ => none

def localVariables? (as : Attributes) : Option (List LocalVariable) :=
  as.last? fun | .localVariables l => some l | _ => none

def bootstrapMethods? (as : Attributes) : Option (List BootstrapMethod) :=
  as.last? fun | .bootstrapMethods l => some l | _ => none

def isSynthetic (as : Attributes) : Bool := as.any fun | .synthetic => true | _ => false

def isDeprecated (as : Attributes) : Bool := as.any fun | .deprecated => true | _ => false

/-- The payload of the last attribute of that name among those without a type of their own. -/
def payload? (as : Attributes) (name : Text) : Option Bytes :=
  as.last? fun | .other n payload => if n = name then some payload else none | _ => none

/-- Names and payloads of the attributes without a type of their own, sorted by name. -/
def others (as : Attributes) : List (Text × Bytes) :=
  let names := (as.filterMap fun | .other n _ => some n | _ => none).eraseDups
  (names.mergeSort Text.le).filterMap fun n => (as.payload? n).map (n, ·)

end Attributes

/-- Access flags of classes, fields and methods. -/
structure Access where
  flags : UInt16
deriving DecidableEq, Inhabited

namespace Access

def isPublic (a : Access) : Bool := a.flags &&& 0x0001 != 0

def isStatic (a : Access) : Bool := a.flags &&& 0x0008 != 0

def isFinal (a : Access) : Bool := a.flags &&& 0x0010 != 0

end Access

structure Field where
  access : Access
  name : Text
  descriptor : Text
  attributes : Attributes
deriving Inhabited

structure Method where
  access : Access
  name : Text
  descriptor : Text
  attributes : Attributes
deriving Inhabited

def Method.code? (m : Method) : Option Code := m.attributes.code?

structure ClassFile where
  minor : UInt16
  major : UInt16
  pool : Pool
  access : Access
  thisClass : PoolIndex
  superClass : PoolIndex
  interfaces : List PoolIndex
  fields : List Field
  methods : List Method
  attributes : Attributes

namespace ClassFile

def className (c : ClassFile) : Except Pool.Error Text := c.pool.className c.thisClass

/-- The name of the superclass, empty where there is none. -/
def superName (c : ClassFile) : Text :=
  if c.superClass = 0 then Text.empty
  else match c.pool.className c.superClass with
    | .ok name => name
    | .error _ => Text.empty

/-- The first method of that name and descriptor. -/
def findMethod? (c : ClassFile) (name descriptor : Text) : Option Method :=
  c.methods.find? fun m => m.name = name ∧ m.descriptor = descriptor

/-- The first field of that name and descriptor. -/
def findField? (c : ClassFile) (name descriptor : Text) : Option Field :=
  c.fields.find? fun f => f.name = name ∧ f.descriptor = descriptor

end ClassFile

end ClassWasm
