/-
  The kinds of values that instructions compute with.
-/
import ClassWasm.Text

namespace ClassWasm

/-- `void` is the result of a method that returns nothing. -/
inductive Kind where
  | int
  | long
  | float
  | double
  | ref
  | void
deriving DecidableEq, Inhabited, Hashable

namespace Kind

def all : List Kind := [int, long, float, double, ref, void]

def name : Kind → Text
  | int => "int"
  | long => "long"
  | float => "float"
  | double => "double"
  | ref => "ref"
  | void => "void"

/-- Whether a value takes two words. -/
def isWide : Kind → Bool
  | long | double => true
  | _ => false

/-- The name under a number, also for numbers that belong to no kind. -/
def nameOfNumber (n : Nat) : Text :=
  match all[n]? with
  | some k => k.name
  | none => s!"kind({n})"

/-- A stack of kinds, bottom first. -/
def stackText (ks : List Kind) : Text := Text.bracketed (ks.map name)

end Kind

end ClassWasm
