/-
  Library methods that no class file defines. Each is an ordinary function on machine integers or
  floating point patterns; its descriptor and the way it reads its arguments off words of 64 bits
  follow from its type.
-/
import ClassWasm.ConstantPool

namespace ClassWasm.Native

structure Single where
  bits : UInt32
deriving DecidableEq

structure Double where
  bits : UInt64
deriving DecidableEq

/-- Types of arguments and results, with their descriptors and the words that hold them. Narrow
values stand in the low half of a word, with zeros above them. -/
class Encoded (α : Type) where
  descriptor : Text
  ofWord : UInt64 → α
  toWord : α → UInt64

instance : Encoded Int32 := ⟨"I", fun w => w.toUInt32.toInt32, fun v => v.toUInt32.toUInt64⟩

instance : Encoded Int64 := ⟨"J", UInt64.toInt64, Int64.toUInt64⟩

instance : Encoded Single := ⟨"F", fun w => ⟨w.toUInt32⟩, fun v => v.bits.toUInt64⟩

instance : Encoded Double := ⟨"D", Double.mk, Double.bits⟩

instance : Encoded Bool := ⟨"Z", fun w => w.toUInt32 != 0, fun b => if b then 1 else 0⟩

/-- What a method throws. -/
structure Exception where
  owner : Text
  message : Text
deriving DecidableEq

def arithmeticException : Text := "java/lang/ArithmeticException"

def Exception.arithmetic (message : Text) : Exception := ⟨arithmeticException, message⟩

instance : Fault Exception where
  message e := e.owner ++ ": " ++ e.message
  causes e := if e.owner = arithmeticException then [.nativeArithmetic] else []

/-- The time of day in milliseconds, and the time since some start in nanoseconds. -/
structure Clock where
  millis : Int64
  nanos : Int64
deriving Inhabited

structure Method where
  ref : MemberRef
  run : Clock → List UInt64 → Except Exception UInt64

/-- The argument at a place. -/
def argument (α : Type) [Encoded α] (args : List UInt64) (i : Nat) : α :=
  Encoded.ofWord ((args[i]?).getD 0)

section

variable {α β γ : Type} [Encoded α] [Encoded β] [Encoded γ]

def reading (owner name : Text) (f : Clock → γ) : Method where
  ref := ⟨owner, name, "()" ++ Encoded.descriptor γ⟩
  run clock _ := .ok (Encoded.toWord (f clock))

def unary (owner name : Text) (f : α → γ) : Method where
  ref := ⟨owner, name, "(" ++ Encoded.descriptor α ++ ")" ++ Encoded.descriptor γ⟩
  run _ args := .ok (Encoded.toWord (f (argument α args 0)))

/-- A method of two arguments that may throw. -/
def checked (owner name : Text) (f : α → β → Except Exception γ) : Method where
  ref := ⟨owner, name,
    "(" ++ Encoded.descriptor α ++ Encoded.descriptor β ++ ")" ++ Encoded.descriptor γ⟩
  run _ args := (f (argument α args 0) (argument β args 1)).map Encoded.toWord

def binary (owner name : Text) (f : α → β → γ) : Method :=
  checked owner name fun a b => .ok (f a b)

end

end ClassWasm.Native
