/-
  Regions of code: ranges of instructions that become loops and blocks. A branch backward or to
  itself closes a loop at its target, a branch forward opens a block that ends at its target, and
  a switch opens one wrapper block for each of its targets.
-/
import ClassWasm.Fault
import ClassWasm.Instruction
import ClassWasm.Instruction.Mnemonic

namespace ClassWasm

namespace Region

/-- A wrapper belongs to the switch with a number; a conditional block starts at its guard. -/
inductive Shape where
  | loop
  | block
  | wrapper (owner : Nat)
  | conditional
deriving DecidableEq, Inhabited

/-- Of two regions over the same range the one with the lower rank stands outside. -/
def Shape.rank : Shape → Nat
  | loop => 0
  | block | wrapper _ => 1
  | conditional => 2

end Region

/-- The instructions from `start` up to, but without, `stop`. -/
structure Region where
  start : Nat
  stop : Nat
  shape : Region.Shape
deriving DecidableEq, Inhabited

namespace Region

inductive Error where
  /-- A branch goes to an offset at which no instruction starts. -/
  | badTarget (opcode : UInt8) (offset : Nat) (target : Int)
  | backwardSwitch (opcode : UInt8) (offset target : Nat)
  /-- Control enters a loop other than at its start. -/
  | entersLoop (loop source : Nat)
deriving DecidableEq

def Error.message : Error → Text
  | badTarget opcode offset target =>
    "branch target is not an instruction boundary: " ++ mnemonic opcode
      ++ s!" at {offset} jumps to {target}"
  | backwardSwitch opcode offset target =>
    "irreducible control flow: " ++ mnemonic opcode
      ++ s!" at {offset} has backward target {target}"
  | entersLoop loop source =>
    s!"irreducible control flow: jump into loop at {loop} from region at {source}"

def Error.causes : Error → List Cause
  | badTarget .. => [.badTarget]
  | backwardSwitch .. | entersLoop .. => [.irreducible]

instance : Fault Error := ⟨Error.message, Error.causes⟩

/-- The position that a relative target of `i` leads to. -/
def target (table : OffsetTable) (i : Instruction) (delta : Int32) : Except Error Nat :=
  match table.find? (i.absolute delta) with
  | some t => .ok t
  | none => .error (.badTarget i.opcode i.offset (i.absolute delta))

/-- Regions found so far: forward ones in order, the number of switches, and for every loop its
start with the last branch back to it, sorted by start. -/
structure Collected where
  forward : Array Region := #[]
  switches : Nat := 0
  loops : List (Nat × Nat) := []

/-- Notes a branch at `last` back to `start`; branches come in ascending order. -/
def addLoop (start last : Nat) : List (Nat × Nat) → List (Nat × Nat)
  | [] => [(start, last)]
  | (s, l) :: rest =>
    if start < s then (start, last) :: (s, l) :: rest
    else if start = s then (s, max l last) :: rest
    else (s, l) :: addLoop start last rest

/-- The wrapper of one target of the switch at position `k`. -/
def wrapper (instrs : Array Instruction) (table : OffsetTable) (i : Instruction) (k owner : Nat)
    (delta : Int32) : Except Error Region := do
  let t ← target table i delta
  if t ≤ k then
    .error (.backwardSwitch i.opcode i.offset ((instrs[t]?).map Instruction.offset |>.getD 0))
  else .ok ⟨k, t, .wrapper owner⟩

/-- The regions that the instruction at position `k` gives rise to. -/
def collectAt (instrs : Array Instruction) (table : OffsetTable) (c : Collected)
    (ik : Instruction × Nat) : Except Error Collected :=
  let (i, k) := ik
  match i.op.branches with
  | [] => .ok c
  | d :: ds =>
    if i.op.isSwitch then do
      let ws ← (d :: ds).mapM (wrapper instrs table i k c.switches)
      .ok { c with forward := c.forward ++ ws.toArray, switches := c.switches + 1 }
    else do
      let t ← target table i d
      if t ≤ k then .ok { c with loops := addLoop t k c.loops }
      else
        let shape := if i.op.isConditional then .conditional else .block
        .ok { c with forward := c.forward.push ⟨k, t, shape⟩ }

/-- All regions: forward ones in code order, then the loops by their start. -/
def collect (instrs : Array Instruction) : Except Error (Array Region) := do
  let table := OffsetTable.ofInstructions instrs
  let c ← instrs.toList.zipIdx.foldlM (collectAt instrs table) {}
  .ok (c.forward ++ (c.loops.map fun (s, l) => ⟨s, l + 1, .loop⟩).toArray)

/-- Whether `b` starts inside `a` and ends after it. -/
def crosses (a b : Region) : Bool :=
  a.start < b.start && b.start < a.stop && a.stop < b.stop

/-- Moves the start of region `j` to `start`; the wrappers of one switch move together, and a
conditional block stops being one. -/
def widen (rs : Array Region) (j start : Nat) : Array Region :=
  match rs[j]? with
  | none => rs
  | some b =>
    match b.shape with
    | .wrapper owner =>
      rs.map fun r => if r.shape = .wrapper owner then { r with start } else r
    | _ => rs.setIfInBounds j { b with start, shape := .block }

/-- Regions and whether any of them has moved. -/
structure Repair where
  regions : Array Region
  changed : Bool

/-- Looks at regions `i` and `j`, and where they cross moves the start of `j` back to that of
`i`. -/
def repairPair (offset : Nat → Nat) (i : Nat) (r : Repair) (j : Nat) : Except Error Repair :=
  match r.regions[i]?, r.regions[j]? with
  | some a, some b =>
    if crosses a b then
      if b.shape = .loop then .error (.entersLoop (offset b.start) (offset a.start))
      else .ok ⟨widen r.regions j a.start, true⟩
    else .ok r
  | _, _ => .ok r

/-- Looks at every pair of regions once. -/
def repairPass (offset : Nat → Nat) (regions : Array Region) : Except Error Repair :=
  (List.range regions.size).foldlM
    (fun r i => (List.range regions.size).foldlM (repairPair offset i) r) ⟨regions, false⟩

/-- Passes until nothing crosses. Each pass but the last moves a start down, so the sum of the
starts is enough `fuel`. -/
def repairFrom (offset : Nat → Nat) : (fuel : Nat) → Array Region → Except Error (Array Region)
  | 0, rs => .ok rs
  | fuel + 1, rs => do
    let r ← repairPass offset rs
    if r.changed then repairFrom offset fuel r.regions else .ok r.regions

/-- Widens regions until no two of them cross. A loop cannot be widened, since branches back to it
would then land elsewhere. -/
def repair (instrs : Array Instruction) (rs : Array Region) : Except Error (Array Region) :=
  let offset (k : Nat) : Nat := (instrs[k]?).map Instruction.offset |>.getD 0
  repairFrom offset ((rs.map Region.start).foldr (· + ·) 0 + 1) rs

/-- A conditional block becomes a plain one where a shorter region starts at its guard. -/
def demote (rs : Array Region) (c : Region) : Region :=
  if c.shape = .conditional ∧ rs.any (fun r => r.start = c.start ∧ r.stop < c.stop) then
    { c with shape := .block }
  else c

/-- Outer regions come before those they hold. -/
def precedes (a b : Region) : Bool :=
  if a.start ≠ b.start then a.start < b.start
  else if a.stop ≠ b.stop then a.stop > b.stop
  else a.shape.rank ≤ b.shape.rank

end Region

/-- The regions of a method body, nested, each before those it holds. -/
def regions (instrs : Array Instruction) : Except Region.Error (List Region) := do
  let rs ← Region.collect instrs
  let rs ← Region.repair instrs rs
  .ok ((rs.map (Region.demote rs)).toList.mergeSort Region.precedes)

end ClassWasm
