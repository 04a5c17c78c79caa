/-
  Arguments of a method given as text.
-/
import ClassWasm.Descriptor
import ClassWasm.Numeral
import ClassWasm.Value

namespace ClassWasm

namespace Arguments

/-- Why a text is no value of a kind. -/
inductive Reason where
  | numeral (e : Numeral.Error)
  | notNull (text : Text)

inductive Error where
  | descriptor (e : Descriptor.Error)
  | count (descriptor : Text) (wanted given : Nat)
  | argument (index : Nat) (type : FieldType) (reason : Reason)

def Reason.message : Reason → Text
  | numeral e => e.message
  | notNull text => "only null references are supported, got " ++ text.quoted

def Error.message : Error → Text
  | descriptor e => e.message
  | count d wanted given => "bad arguments: " ++ d ++ s!" takes {wanted} arguments, got {given}"
  | argument index type reason =>
    s!"bad arguments: argument {index} (" ++ type.text ++ "): " ++ reason.message

def Error.causes : Error → List Cause
  | descriptor _ => []
  | count .. | argument .. => [.badArguments]

instance : Fault Error := ⟨Error.message, Error.causes⟩

/-- The value of a kind which a text is. References can only be null. -/
def value (k : Kind) (text : Text) : Except Reason Value :=
  match k with
  | .int => do .ok (.int (Int32.ofInt (← (Numeral.integer 32 text).mapError .numeral)))
  | .long => do .ok (.long (Int64.ofInt (← (Numeral.integer 64 text).mapError .numeral)))
  | .float => do
    .ok (.float (UInt32.ofNat (← (Numeral.float Ieee.single text).mapError .numeral)))
  | .double => do
    .ok (.double (UInt64.ofNat (← (Numeral.float Ieee.double text).mapError .numeral)))
  | .ref | .void => if text = "null" then .ok .null else .error (.notNull text)

/-- The values of parameters, the first of them with number `i`. -/
def valuesFrom (i : Nat) : List FieldType → List Text → Except Error (List Value)
  | p :: ps, t :: ts => do
    let v ← (value p.kind t).mapError (.argument i p)
    let vs ← valuesFrom (i + 1) ps ts
    .ok (v :: vs)
  | _, _ => .ok []

/-- The arguments for a method of that descriptor. -/
def parse (descriptor : Text) (texts : List Text) : Except Error (List Value) := do
  let m ← (Descriptor.parseMethod descriptor).mapError .descriptor
  if texts.length ≠ m.params.length then
    .error (.count descriptor m.params.length texts.length)
  else valuesFrom 0 m.params texts

end Arguments

end ClassWasm
