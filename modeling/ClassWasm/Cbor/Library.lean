/-
  Libraries that store values by the shape of their types: numbers, texts, lists, pointers, and
  records whose fields have numbers for keys. What a library does is left to it; `Library.reference`
  is one that writes canonical bytes and reads whatever means the same.
-/
import ClassWasm.Cbor
import ClassWasm.Text.Utf8

namespace ClassWasm.Cbor

mutual

/-- Types of which values are stored. -/
inductive Shape where
  | u32
  | bool
  | text
  | list (item : Shape)
  | pointer (target : Shape)
  | record (fields : Fields)

/-- The fields of a record in order, each with its number and whether it is left out where it is
empty. -/
inductive Fields where
  | nil
  | cons (number : Nat) (omitEmpty : Bool) (shape : Shape) (rest : Fields)

end

mutual

/-- The values of a type. A pointer may lead nowhere. -/
def Shape.Val : Shape → Type
  | .u32 => UInt32
  | .bool => Bool
  | .text => Text
  | .list s => List s.Val
  | .pointer s => Option s.Val
  | .record fs => fs.Val

def Fields.Val : Fields → Type
  | .nil => Unit
  | .cons _ _ s fs => s.Val × fs.Val

end

def Fields.numbers : Fields → List Nat
  | .nil => []
  | .cons n _ _ fs => n :: fs.numbers

mutual

/-- The value of a variable that nothing has been assigned to. -/
def Shape.zero : (s : Shape) → s.Val
  | .u32 => (0 : UInt32)
  | .bool => false
  | .text => (⟨[]⟩ : Text)
  | .list _ => []
  | .pointer _ => none
  | .record fs => fs.zero

def Fields.zero : (fs : Fields) → fs.Val
  | .nil => ()
  | .cons _ _ s fs => (s.zero, fs.zero)

end

mutual

/-- Whether a field with the value can be left out. A pointer that leads somewhere cannot. -/
def Shape.isEmpty : (s : Shape) → s.Val → Bool
  | .u32, (n : UInt32) => n = 0
  | .bool, (b : Bool) => !b
  | .text, (t : Text) => t.isEmpty
  | .list _, vs => List.isEmpty vs
  | .pointer _, v => Option.isNone v
  | .record fs, vs => fs.isEmpty vs

/-- Whether all fields are left out. -/
def Fields.isEmpty : (fs : Fields) → fs.Val → Bool
  | .nil, _ => true
  | .cons _ omitEmpty s fs, (v, vs) => omitEmpty && s.isEmpty v && fs.isEmpty vs

end

/-- What a library offers, with errors of its own. -/
structure Library (ε : Type) where
  marshal : (s : Shape) → s.Val → Except ε Bytes
  unmarshal : (s : Shape) → Bytes → Except ε s.Val

/-! ## Values as data items -/

/-- A map with numbers for keys. -/
def numbered (pairs : List (Nat × Cbor)) : Cbor := .map (pairs.map fun p => (.unsigned p.1, p.2))

mutual

/-- The data item that stands for a value. Fields are in ascending order of their numbers. -/
def Shape.item : (s : Shape) → s.Val → Cbor
  | .u32, (n : UInt32) => .unsigned n.toNat
  | .bool, b => .ofBool b
  | .text, t => .ofText t
  | .list s, vs => .array (List.map s.item vs)
  | .pointer s, v => Option.elim v (.simple 22) s.item
  | .record fs, vs => numbered (fs.pairs vs)

/-- The fields that are not left out, by number. -/
def Fields.pairs : (fs : Fields) → fs.Val → List (Nat × Cbor)
  | .nil, _ => []
  | .cons n omitEmpty s fs, (v, vs) =>
    if omitEmpty && s.isEmpty v then fs.pairs vs else (n, s.item v) :: fs.pairs vs

end

/-! ## Values from data items -/

/-- Whether the contents of a tag with a meaning of its own are of the right sort. -/
def fitsTag (number : Nat) : Cbor → Bool
  | .text _ => number ≠ 1 && number ≠ 2 && number ≠ 3
  | .bytes _ => number ≠ 0 && number ≠ 1
  | .unsigned _ | .negative _ | .float => number ≠ 0 && number ≠ 2 && number ≠ 3
  | _ => number > 3

/-- The item under all tags, or the number that a tag makes of a string of bytes. -/
def untagged? : Cbor → Option Cbor
  | .tag number content =>
    if !fitsTag number content then none
    else match number, content with
      | 2, .bytes bs => some (.unsigned (bs.foldl (fun v b => v * 256 + b.toNat) 0))
      | 3, .bytes bs => some (.negative (bs.foldl (fun v b => v * 256 + b.toNat) 0))
      | _, c => untagged? c
  | c => some c

/-- Text in valid UTF-8; nothing stands for the empty text. -/
def text? (c : Cbor) : Option Text := do
  match ← untagged? c with
  | .text pieces => if pieces.all Text.Utf8.isValid then some ⟨pieces.flatten⟩ else none
  | c => if c.isNull then some ⟨[]⟩ else none

def isPlainSimple (n : Nat) : Bool := n < 20 || n > 23

def u32? (c : Cbor) : Option UInt32 := do
  let small (n : Nat) : Option UInt32 := if n < 0x100000000 then some (UInt32.ofNat n) else none
  match ← untagged? c with
  | .unsigned n => small n
  | .simple n => if isPlainSimple n then small n else if n = 22 || n = 23 then some 0 else none
  | _ => none

def bool? (c : Cbor) : Option Bool := do
  match ← untagged? c with
  | .simple n => if n = 20 || n = 22 || n = 23 then some false else if n = 21 then some true else none
  | _ => none

/-- The number of a field, given as a number or as its digit. -/
inductive Key where
  | number (n : Nat)
  | unknown

/-- The key of a field; `none` where the item can be no key, as a number below -2^63 cannot. -/
def key? : Cbor → Option Key
  | .unsigned n => some (.number n)
  | .negative n => if n < 0x8000000000000000 then some .unknown else none
  | .text pieces =>
    if pieces.all Text.Utf8.isValid then
      match pieces.flatten with
      | [d] => if 0x30 ≤ d ∧ d ≤ 0x39 then some (.number (d.toNat - 0x30)) else some .unknown
      | _ => some .unknown
    else none
  | _ => none

/-- The fields of a map, of which the first of each number counts. Keys that mean nothing are
passed over. -/
def fields? (c : Cbor) : Option (List (Nat × Cbor)) := do
  match ← untagged? c with
  | .map pairs =>
    let keyed ← pairs.mapM fun (k, v) => (key? k).map (·, v)
    some (keyed.filterMap fun
      | (.number n, v) => some (n, v)
      | (.unknown, _) => none)
  | c => if c.isNull then some [] else none

mutual

/-- The value that a data item stands for. -/
def Shape.value? : (s : Shape) → Cbor → Option s.Val
  | .u32, c => u32? c
  | .bool, c => bool? c
  | .text, c => text? c
  | .list s, c => do
    match ← untagged? c with
    | .array items => List.mapM s.value? items
    | c => if c.isNull then some [] else none
  | .pointer s, c => if c.isNull then some none else (s.value? c).map some
  | .record fs, c => fields? c >>= fs.values?

/-- The values of fields, which are zero where they are missing. -/
def Fields.values? : (fs : Fields) → List (Nat × Cbor) → Option fs.Val
  | .nil, _ => some ()
  | .cons n _ s fs, pairs => do
    let v ← (pairs.lookup n).elim (some s.zero) s.value?
    let vs ← fs.values? pairs
    some (v, vs)

end

/-- A library that writes the one canonical form and reads all others as well. -/
def Library.reference : Library Unit where
  marshal s v := .ok (s.item v).encode
  unmarshal s bs :=
    match parse? bs >>= s.value? with
    | some v => .ok v
    | none => .error ()

end ClassWasm.Cbor
