/-
  The frame of a running method: local variables and an operand stack of bounded height. Accesses
  that do not fit the frame fail and leave it as it was, except that a value of the wrong kind has
  been taken off the stack when it is found out.
-/
import ClassWasm.Value

namespace ClassWasm

/-- The stack is kept with its top first. -/
structure Frame where
  locals : Array Value
  stack : List Value
  maxStack : Nat
deriving Inhabited

namespace Frame

inductive Fault where
  | overflow (maxStack : Nat)
  | underflow
  | wrongKind (wanted found : Kind)
  | noLocal (index : Int) (maxLocals : Nat)
deriving DecidableEq

def Fault.message : Fault → Text
  | overflow maxStack => s!"operand stack overflow: SP={maxStack}, max={maxStack}"
  | underflow => "operand stack underflow: SP=0"
  | wrongKind wanted found =>
    "expected " ++ wanted.name ++ " on the operand stack, found " ++ found.name
  | noLocal index maxLocals =>
    s!"local variable index out of range: index={index}, max={maxLocals}"

/-- A frame in which nothing has happened yet. -/
def fresh (maxLocals maxStack : Nat) : Frame :=
  ⟨Array.replicate maxLocals (.int 0), [], maxStack⟩

/-- The kinds on the stack, top first. -/
def kinds (f : Frame) : List Kind := f.stack.map Value.kind

/-- Computations on a frame. -/
abbrev Access := EStateM Fault Frame

def push (v : Value) : Access Unit := fun f =>
  if f.stack.length ≥ f.maxStack then .error (.overflow f.maxStack) f
  else .ok () { f with stack := v :: f.stack }

def pop : Access Value := fun f =>
  match f.stack with
  | [] => .error .underflow f
  | v :: stack => .ok v { f with stack }

/-- Takes off a value that must be of kind `k`. -/
def popKind (k : Kind) : Access Value := do
  let v ← pop
  if v.kind = k then pure v else throw (.wrongKind k v.kind)

/-- Takes off one value for each of the kinds, the last of them first, and gives them in order. -/
def popKinds (ks : List Kind) : Access (List Value) :=
  ks.foldr (fun k rest => do
    let vs ← rest
    let v ← popKind k
    pure (v :: vs)) (pure [])

def getLocal (index : Int) : Access Value := fun f =>
  match if index < 0 then none else f.locals[index.toNat]? with
  | some v => .ok v f
  | none => .error (.noLocal index f.locals.size) f

def setLocal (index : Int) (v : Value) : Access Unit := fun f =>
  if index < 0 ∨ f.locals.size ≤ index.toNat then .error (.noLocal index f.locals.size) f
  else .ok () { f with locals := f.locals.setIfInBounds index.toNat v }

/-- Stores arguments from a slot on; a wide value takes two slots. -/
def enter (slot : Nat) : List Value → Access Unit
  | [] => pure ()
  | v :: vs => do
    setLocal slot v
    enter (if v.kind.isWide then slot + 2 else slot + 1) vs

end Frame

end ClassWasm
