/-
  Where each member ended up in a module, and the form in which that is stored.
-/
import ClassWasm.Cbor.Library
import ClassWasm.ConstantPool
import ClassWasm.Fault

namespace ClassWasm.Link

structure Symbol where
  index : UInt32 := 0
  kind : Text := ⟨[]⟩
  owner : Text := ⟨[]⟩
  name : Text := ⟨[]⟩
  descriptor : Text := ⟨[]⟩
  /-- The name under which the module exports it, empty where it does not. -/
  exportName : Text := ⟨[]⟩
  mutable : Bool := false
deriving DecidableEq, Inhabited

structure LinkMap where
  globals : List Symbol := []
  functions : List Symbol := []
  imports : List Symbol := []
  start : Option UInt32 := none
deriving DecidableEq, Inhabited

namespace Symbol

def isFor (s : Symbol) (ref : MemberRef) : Bool :=
  s.owner = ref.owner && s.name = ref.name && s.descriptor = ref.descriptor

/-- How the parts of a symbol are stored. -/
def shape : Cbor.Shape :=
  .record <| .cons 1 false .u32 <| .cons 2 false .text <| .cons 3 false .text <|
    .cons 4 false .text <| .cons 5 false .text <| .cons 6 true .text <| .cons 7 true .bool .nil

def toVal (s : Symbol) : shape.Val :=
  (s.index, s.kind, s.owner, s.name, s.descriptor, s.exportName, s.mutable, ())

def ofVal : shape.Val → Symbol
  | (index, kind, owner, name, descriptor, exportName, mutable, ()) =>
    { index, kind, owner, name, descriptor, exportName, mutable }

end Symbol

namespace LinkMap

/-- The symbol of a linked method. -/
def function? (m : LinkMap) (ref : MemberRef) : Option Symbol := m.functions.find? (·.isFor ref)

/-- The symbol of a static field. -/
def global? (m : LinkMap) (ref : MemberRef) : Option Symbol := m.globals.find? (·.isFor ref)

/-- How the parts of a link map are stored. -/
def shape : Cbor.Shape :=
  .record <| .cons 1 true (.list Symbol.shape) <| .cons 2 true (.list Symbol.shape) <|
    .cons 3 true (.list Symbol.shape) <| .cons 4 true (.pointer .u32) .nil

def toVal (m : LinkMap) : shape.Val :=
  (m.globals.map Symbol.toVal, m.functions.map Symbol.toVal, m.imports.map Symbol.toVal,
    m.start, ())

def ofVal : shape.Val → LinkMap
  | (globals, functions, imports, start, ()) =>
    { globals := List.map Symbol.ofVal globals, functions := List.map Symbol.ofVal functions
      imports := List.map Symbol.ofVal imports, start }

/-- The library cannot make a link map of the bytes. -/
structure Unreadable (ε : Type) where
  cause : ε

instance {ε : Type} [Fault ε] : Fault (Unreadable ε) where
  message e := "link: unmarshal link map: " ++ Fault.message e.cause
  causes e := Fault.causes e.cause

variable {ε : Type}

/-- The bytes that store a link map. -/
def marshal (lib : Cbor.Library ε) (m : LinkMap) : Except ε Bytes := lib.marshal shape m.toVal

/-- The link map that the bytes store. -/
def unmarshal (lib : Cbor.Library ε) (bs : Bytes) : Except (Unreadable ε) LinkMap :=
  match lib.unmarshal shape bs with
  | .ok v => .ok (ofVal v)
  | .error e => .error ⟨e⟩

/-- The bytes that the library of reference stores. -/
def encode (m : LinkMap) : Bytes := (shape.item m.toVal).encode

end LinkMap

end ClassWasm.Link
