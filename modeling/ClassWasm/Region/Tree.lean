/-
  The tree of a method body: instructions in order, grouped by the regions they lie in.
-/
import ClassWasm.Region

namespace ClassWasm

/-- What a block is there for. The guard of a conditional block is the instruction it starts at,
and is not part of its body. -/
inductive BlockKind where
  | plain
  | wrapper
  | conditional
deriving DecidableEq, Inhabited

/-- A branch to a loop continues at its start, a branch to a block at its stop. -/
inductive Node where
  | op (index : Nat)
  | loop (start stop : Nat) (body : List Node)
  | block (start stop : Nat) (kind : BlockKind) (body : List Node)
deriving Inhabited

namespace Node

/-- How many regions of each sort a tree holds. -/
structure Counts where
  loops : Nat := 0
  blocks : Nat := 0
  conditionals : Nat := 0
  wrappers : Nat := 0
deriving DecidableEq

def Counts.countBlock (c : Counts) : BlockKind → Counts
  | .plain => { c with blocks := c.blocks + 1 }
  | .wrapper => { c with wrappers := c.wrappers + 1 }
  | .conditional => { c with conditionals := c.conditionals + 1 }

mutual

/-- The instructions of a node in order, guards left out. -/
def ops : Node → List Nat
  | op i => [i]
  | loop _ _ body => opsOf body
  | block _ _ _ body => opsOf body

def opsOf : List Node → List Nat
  | [] => []
  | n :: ns => n.ops ++ opsOf ns

end

mutual

def countFrom (c : Counts) : Node → Counts
  | op _ => c
  | loop _ _ body => countAllFrom { c with loops := c.loops + 1 } body
  | block _ _ kind body => countAllFrom (c.countBlock kind) body

def countAllFrom (c : Counts) : List Node → Counts
  | [] => c
  | n :: ns => countAllFrom (n.countFrom c) ns

end

/-- A region being filled; its nodes stand last first. -/
structure Open where
  region : Region
  done : List Node

/-- The node of a region with its body. -/
def ofRegion (r : Region) (body : List Node) : Node :=
  match r.shape with
  | .loop => .loop r.start r.stop body
  | .block => .block r.start r.stop .plain body
  | .wrapper _ => .block r.start r.stop .wrapper body
  | .conditional => .block r.start r.stop .conditional body

/-- Open regions, innermost first, and the nodes outside all of them, last first. -/
structure Builder where
  opened : List Open
  done : List Node

namespace Builder

def add (b : Builder) (n : Node) : Builder :=
  match b.opened with
  | o :: os => { b with opened := { o with done := n :: o.done } :: os }
  | [] => { b with done := n :: b.done }

/-- Closes the regions that hold neither instruction `i` nor a later one. The node of a closed
region, in `carry`, goes to the region around it. -/
def closeTo (i : Nat) (done carry : List Node) : List Open → Builder
  | [] => ⟨[], carry ++ done⟩
  | o :: os =>
    let inside := carry ++ o.done
    if o.region.stop ≤ i then closeTo i done [ofRegion o.region inside.reverse] os
    else ⟨{ o with done := inside } :: os, done⟩

/-- Opens the regions that start at `i`, and gives those that start later. -/
def openAt (i : Nat) (b : Builder) : List Region → Builder × List Region
  | [] => (b, [])
  | r :: rs =>
    if r.start = i then openAt i { b with opened := ⟨r, []⟩ :: b.opened } rs else (b, r :: rs)

/-- Whether instruction `i` is the guard of an open region. -/
def isGuard (b : Builder) (i : Nat) : Bool :=
  b.opened.any fun o => o.region.start = i ∧ o.region.shape = .conditional

/-- One instruction more. -/
def step (br : Builder × List Region) (i : Nat) : Builder × List Region :=
  let (b, rs) := br
  let (b, rs) := openAt i (closeTo i b.done [] b.opened) rs
  (if b.isGuard i then b else b.add (.op i), rs)

end Builder

/-- The tree of `n` instructions under nested regions. -/
def build (n : Nat) (rs : List Region) : List Node :=
  let (b, _) := (List.range n).foldl Builder.step (⟨[], []⟩, rs)
  (Builder.closeTo (n + 1) b.done [] b.opened).done.reverse

end Node

/-- The tree of a method body. -/
def structureOf (instrs : Array Instruction) : Except Region.Error (List Node) := do
  .ok (Node.build instrs.size (← regions instrs))

end ClassWasm
