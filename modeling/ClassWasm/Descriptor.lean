/-
  Types of fields and methods and the descriptors that spell them. Parsing reads one field type
  after another off the text; printing is its inverse.
-/
import ClassWasm.Bytes
import ClassWasm.Fault
import ClassWasm.Kind
import ClassWasm.Text.Quoted

namespace ClassWasm

inductive Primitive where
  | byte
  | char
  | double
  | float
  | int
  | long
  | short
  | boolean
deriving DecidableEq, Inhabited

namespace Primitive

def letter : Primitive → UInt8
  | byte => 0x42
  | char => 0x43
  | double => 0x44
  | float => 0x46
  | int => 0x49
  | long => 0x4A
  | short => 0x53
  | boolean => 0x5A

def all : List Primitive := [byte, char, double, float, int, long, short, boolean]

def ofLetter? (b : UInt8) : Option Primitive := all.find? (·.letter == b)

/-- Integers shorter than an `int` are computed with as `int`. -/
def kind : Primitive → Kind
  | long => .long
  | float => .float
  | double => .double
  | _ => .int

end Primitive

inductive Element where
  | primitive (p : Primitive)
  | object (name : Text)
deriving DecidableEq, Inhabited

/-- The type of a field, parameter or result: an element type under some array dimensions. -/
structure FieldType where
  dims : Nat
  element : Element
deriving DecidableEq, Inhabited

namespace FieldType

def isReference (t : FieldType) : Bool :=
  match t.element with
  | .primitive _ => t.dims > 0
  | .object _ => true

def kind (t : FieldType) : Kind :=
  match t.dims, t.element with
  | 0, .primitive p => p.kind
  | _, _ => .ref

/-- How many slots a value takes among the local variables. -/
def slots (t : FieldType) : Nat := if t.kind.isWide then 2 else 1

def elementText : Element → Bytes
  | .primitive p => [p.letter]
  | .object name => 0x4C :: name.bytes ++ [0x3B]

/-- The descriptor of the type. -/
def text (t : FieldType) : Text :=
  ⟨List.replicate t.dims 0x5B ++ elementText t.element⟩

end FieldType

/-- A method type; no result type stands for `void`. -/
structure MethodType where
  params : List FieldType
  result : Option FieldType
deriving DecidableEq, Inhabited

namespace MethodType

def argSlots (m : MethodType) : Nat := (m.params.map FieldType.slots).foldr (· + ·) 0

def resultKind (m : MethodType) : Kind :=
  match m.result with
  | some t => t.kind
  | none => .void

def resultText (m : MethodType) : Text :=
  match m.result with
  | some t => t.text
  | none => "V"

/-- The descriptor of the method type. -/
def text (m : MethodType) : Text :=
  "(" ++ Text.join Text.empty (m.params.map FieldType.text) ++ ")" ++ m.resultText

end MethodType

namespace Descriptor

/-- Why no field type starts at a place. -/
inductive TypeFault where
  | tooManyDimensions
  | ended
  | unterminated
  | unexpected (b : UInt8)
deriving DecidableEq

/-- Why a text is no descriptor. -/
inductive Error where
  | fieldType (text : Text) (fault : TypeFault)
  | fieldTrailing (text : Text)
  | unopened (text : Text)
  | methodPart (text : Text) (fault : TypeFault)
  | unclosed (text : Text)
  | methodTrailing (text : Text)
  | tooManySlots (text : Text)
deriving DecidableEq

def TypeFault.message (text : Text) : TypeFault → Text
  | tooManyDimensions => "array of more than 255 dimensions"
  | ended => "unexpected end of descriptor " ++ text.quoted
  | unterminated => "unterminated class type in " ++ text.quoted
  | unexpected b => "unexpected " ++ Text.quotedByte b ++ " in descriptor " ++ text.quoted

def Error.message : Error → Text
  | fieldType text fault => fault.message text
  | fieldTrailing text => "invalid field descriptor " ++ text.quoted ++ ": trailing characters"
  | unopened text => "invalid method descriptor " ++ text.quoted
  | methodPart text fault =>
    "invalid method descriptor " ++ text.quoted ++ ": " ++ fault.message text
  | unclosed text => "invalid method descriptor " ++ text.quoted ++ ": missing ')'"
  | methodTrailing text => "invalid method descriptor " ++ text.quoted ++ ": trailing characters"
  | tooManySlots text =>
    "invalid method descriptor " ++ text.quoted ++ ": more than 255 parameter slots"

instance : Fault Error where
  message := Error.message
  causes _ := []

def isOpenBracket (b : UInt8) : Bool := b == 0x5B

/-- The class name up to the semicolon, which must come and must not come first. -/
def className (bs : Bytes) : Except TypeFault (Text × Bytes) :=
  let name := bs.takeWhile (· != 0x3B)
  match name, bs.drop name.length with
  | _ :: _, _ :: rest => .ok (⟨name⟩, rest)
  | _, _ => .error .unterminated

def element : Bytes → Except TypeFault (Element × Bytes)
  | [] => .error .ended
  | b :: rest =>
    if b = 0x4C then (className rest).map fun (name, rest) => (.object name, rest)
    else match Primitive.ofLetter? b with
      | some p => .ok (.primitive p, rest)
      | none => .error (.unexpected b)

/-- The field type at the start of the bytes, and the bytes after it. -/
def fieldType (bs : Bytes) : Except TypeFault (FieldType × Bytes) :=
  let dims := (bs.takeWhile isOpenBracket).length
  if dims > 255 then .error .tooManyDimensions
  else (element (bs.drop dims)).map fun (e, rest) => (⟨dims, e⟩, rest)

theorem length_className {bs rest : Bytes} {name : Text}
    (h : className bs = .ok (name, rest)) : rest.length < bs.length := by
  unfold className at h
  have hd := List.length_drop (i := (bs.takeWhile (· != 0x3B)).length) (l := bs)
  simp only at h
  split at h
  · rename_i hr
    simp only [Except.ok.injEq, Prod.mk.injEq] at h
    rw [hr, List.length_cons, h.2] at hd
    omega
  · contradiction

theorem length_element {bs rest : Bytes} {e : Element}
    (h : element bs = .ok (e, rest)) : rest.length < bs.length := by
  unfold element at h
  repeat' split at h
  · contradiction
  · rename_i b bs _
    cases hc : className bs with
    | error f => simp [hc, Except.map] at h
    | ok r =>
      simp only [hc, Except.map, Except.ok.injEq, Prod.mk.injEq] at h
      have := @length_className bs r.2 r.1 hc
      rw [← h.2]
      simp only [List.length_cons]; omega
  · simp only [Except.ok.injEq, Prod.mk.injEq] at h
    rw [← h.2]; simp
  · contradiction

theorem length_fieldType {bs rest : Bytes} {t : FieldType}
    (h : fieldType bs = .ok (t, rest)) : rest.length < bs.length := by
  unfold fieldType at h
  simp only at h
  split at h
  · contradiction
  · generalize (bs.takeWhile isOpenBracket).length = n at h
    cases he : element (bs.drop n) with
    | error f => simp [he, Except.map] at h
    | ok r =>
      simp only [he, Except.map, Except.ok.injEq, Prod.mk.injEq] at h
      have := @length_element (bs.drop n) r.2 r.1 he
      rw [← h.2]
      simp only [List.length_drop] at this; omega

/-- A text that is one field type. -/
def parseField (text : Text) : Except Error FieldType :=
  match fieldType text.bytes with
  | .error fault => .error (.fieldType text fault)
  | .ok (t, []) => .ok t
  | .ok (_, _ :: _) => .error (.fieldTrailing text)

/-- Field types up to the closing parenthesis, and the bytes after it. `none` if it never comes. -/
def params (bs : Bytes) : Except TypeFault (Option (List FieldType × Bytes)) :=
  match bs with
  | [] => .ok none
  | b :: rest =>
    if b = 0x29 then .ok (some ([], rest))
    else match _h : fieldType (b :: rest) with
      | .error fault => .error fault
      | .ok (t, rest) => (params rest).map (Option.map fun (ts, rest) => (t :: ts, rest))
termination_by bs.length
decreasing_by exact length_fieldType _h

/-- A result type and the bytes after it. -/
def result (bs : Bytes) : Except TypeFault (Option FieldType × Bytes) :=
  match bs with
  | 0x56 :: rest => .ok (none, rest)
  | _ => (fieldType bs).map fun (t, rest) => (some t, rest)

/-- A text that is a method type whose parameters fit into 255 slots. -/
def parseMethod (text : Text) : Except Error MethodType :=
  match text.bytes with
  | 0x28 :: bs =>
    match params bs with
    | .error fault => .error (.methodPart text fault)
    | .ok none => .error (.unclosed text)
    | .ok (some (ps, rest)) =>
      match result rest with
      | .error fault => .error (.methodPart text fault)
      | .ok (_, _ :: _) => .error (.methodTrailing text)
      | .ok (r, []) =>
        let m : MethodType := ⟨ps, r⟩
        if m.argSlots > 255 then .error (.tooManySlots text) else .ok m
  | _ => .error (.unopened text)

end Descriptor

end ClassWasm
