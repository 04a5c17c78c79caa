/-
  The locals of a lowered function: parameters first, then locals in the order in which they are
  first needed. A local holds values of one kind of one local variable, or is scratch space for a
  single instruction, or belongs to one construct. Locals are kept by the place they were added at;
  the index that is handed out has 32 bits and starts at 0 again after 2^32 locals.
-/
import ClassWasm.Wasm.Module

namespace ClassWasm.Lowering

open Wasm (ValType LocalRun)

structure Locals where
  params : Nat
  types : Array ValType
  /-- Places of locals that hold values of a kind in a local variable. -/
  slots : List ((Nat × Kind) × Nat)
  /-- Types and places of scratch locals, in the order they were added. -/
  scratch : List (ValType × Nat)
deriving Inhabited

namespace Locals

/-- A local that is shared with nothing. -/
def fresh (t : ValType) (l : Locals) : UInt32 × Locals :=
  (.ofNat l.types.size, { l with types := l.types.push t })

/-- The local for values of kind `k` in local variable `s`. -/
def slot (s : Nat) (k : Kind) (l : Locals) : UInt32 × Locals :=
  match l.slots.lookup (s, k) with
  | some i => (.ofNat i, l)
  | none =>
    let (i, l') := l.fresh (.ofKind k)
    (i, { l' with slots := ((s, k), l.types.size) :: l.slots })

/-- Places of the scratch locals of a type. -/
def scratchOf (t : ValType) (l : Locals) : List Nat :=
  (l.scratch.filter fun (u, _) => u = t).map Prod.snd

/-- Adds `n` scratch locals. -/
def addScratch (t : ValType) : (n : Nat) → Locals → Locals
  | 0, l => l
  | n + 1, l =>
    addScratch t n { (l.fresh t).2 with scratch := l.scratch ++ [(t, l.types.size)] }

/-- The scratch local with number `n` of a type. -/
def temp (t : ValType) (n : Nat) (l : Locals) : UInt32 × Locals :=
  let l := addScratch t (n + 1 - (l.scratchOf t).length) l
  (.ofNat ((l.scratchOf t).getD n 0), l)

/-- One local for each parameter, which holds the variable that the parameter arrives in. -/
def ofParams (params : List Kind) : Locals :=
  (params.foldl (fun (l, s) k =>
      ({ (l.fresh (.ofKind k)).2 with slots := ((s, k), l.types.size) :: l.slots },
        s + if k.isWide then 2 else 1))
    ((⟨params.length, #[], [], []⟩ : Locals), 0)).1

/-- Adjacent locals of one type as one run. -/
def runs : List ValType → List LocalRun
  | [] => []
  | t :: ts =>
    match runs ts with
    | r :: rs => if r.type = t then ⟨r.count + 1, t⟩ :: rs else ⟨1, t⟩ :: r :: rs
    | [] => [⟨1, t⟩]

/-- The locals that are no parameters, as a function declares them. -/
def declarations (l : Locals) : List LocalRun := runs (l.types.toList.drop l.params)

end Locals

end ClassWasm.Lowering
