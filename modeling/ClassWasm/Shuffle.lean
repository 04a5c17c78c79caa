/-
  Rearranging the operand stack. Values take one word or two, so what an instruction such as
  `dup2` does depends on the kinds it finds.
-/
import ClassWasm.Instruction

namespace ClassWasm

/-- How many values are taken off the stack, and which of them, counted from the lowest, are put
back in order. -/
structure Shuffle where
  taken : Nat
  order : List Nat
deriving DecidableEq, Inhabited

namespace Shuffle

/-- A value of one word. -/
def isSingle (k : Kind) : Bool := !k.isWide && k != .void

/-- What an instruction does on a stack of kinds, top first. -/
def of? (op : StackOp) (stack : List Kind) : Option Shuffle :=
  let single (i : Nat) : Bool := (stack[i]?).any isSingle
  let wide (i : Nat) : Bool := (stack[i]?).any Kind.isWide
  match op with
  | .pop => if single 0 then some ⟨1, []⟩ else none
  | .pop2 =>
    if wide 0 then some ⟨1, []⟩
    else if single 0 && single 1 then some ⟨2, []⟩
    else none
  | .dup => if single 0 then some ⟨1, [0, 0]⟩ else none
  | .dupX1 => if single 0 && single 1 then some ⟨2, [1, 0, 1]⟩ else none
  | .dupX2 =>
    if single 0 && single 1 && single 2 then some ⟨3, [2, 0, 1, 2]⟩
    else if single 0 && wide 1 then some ⟨2, [1, 0, 1]⟩
    else none
  | .dup2 =>
    if wide 0 then some ⟨1, [0, 0]⟩
    else if single 0 && single 1 then some ⟨2, [0, 1, 0, 1]⟩
    else none
  | .dup2X1 =>
    if single 0 && single 1 && single 2 then some ⟨3, [1, 2, 0, 1, 2]⟩
    else if wide 0 && single 1 then some ⟨2, [1, 0, 1]⟩
    else none
  | .dup2X2 =>
    if single 0 && single 1 && single 2 && single 3 then some ⟨4, [2, 3, 0, 1, 2, 3]⟩
    else if wide 0 && single 1 && single 2 then some ⟨3, [2, 0, 1, 2]⟩
    else if single 0 && single 1 && wide 2 then some ⟨3, [1, 2, 0, 1, 2]⟩
    else if wide 0 && wide 1 then some ⟨2, [1, 0, 1]⟩
    else none
  | .swap => if single 0 && single 1 then some ⟨2, [1, 0]⟩ else none

/-- The values that are taken, lowest first. -/
def takenFrom {α : Type} (s : Shuffle) (stack : List α) : List α := (stack.take s.taken).reverse

/-- The values that are put back, in the order in which they are pushed. -/
def pushed {α : Type} (s : Shuffle) (stack : List α) : List α :=
  s.order.filterMap fun p => (s.takenFrom stack)[p]?

/-- The rearranged stack, top first. -/
def apply {α : Type} (s : Shuffle) (stack : List α) : List α :=
  (s.pushed stack).reverse ++ stack.drop s.taken

end Shuffle

end ClassWasm
