/-
  Loops and blocks are entered at their start. Every edge of control into one from outside goes to
  its first instruction (`structureOf_entered`), so a construct whose first instruction is not
  reached holds no instruction that is. Lowering leaves such a construct out: it treats the tree as
  if only the first instruction stood there (`nodes_pruneAll`), and no instruction that is reached
  gets lost by that. Main statement: `single_entry`.
-/
import ClassWasm.Proofs.Lowering.Progress

namespace ClassWasm

/-! ## Edges -/

/-- Control can go from position `k` to position `t`: by a branch, or to the next instruction. -/
def Edge (instrs : Array Instruction) (k t : Nat) : Prop :=
  LeadsTo instrs k t ∨ t = k + 1 ∧ ∃ i, instrs[k]? = some i ∧ i.op.fallsThrough = true

/-- Every edge into a loop or block among the nodes, from outside of it, goes to its start. -/
def EnteredAtStart (instrs : Array Instruction) (ns : List Node) : Prop :=
  ∀ n s e, Node.Within n ns → n.extent? = some (s, e) →
    ∀ k t, Edge instrs k t → k < s ∨ e ≤ k → s ≤ t → t < e → t = s

theorem structureOf_entered {instrs : Array Instruction} (hasc : Ascending instrs)
    {tree : List Node} (hs : structureOf instrs = .ok tree) : EnteredAtStart instrs tree := by
  intro n s e hn hext k t hk hout hst hte
  obtain ⟨rs, hfound, hnested, r, hr, rfl, rfl⟩ := Node.region_of_within hasc hs hn hext
  rcases hk with hk | ⟨rfl, -⟩
  · have := hfound.not_into hnested hr hk hout
    omega
  · omega

namespace Lowering

/-! ## What lowering leaves out -/

mutual

/-- A node without the loops and blocks whose first instruction is not reached: nothing but that
instruction is left of them. -/
def Context.prune (ctx : Context) : Node → Node
  | .op k => .op k
  | .loop start stop body =>
    if (ctx.stack? start).isSome then .loop start stop (ctx.pruneAll body) else .op start
  | .block start stop kind body =>
    if (ctx.stack? start).isSome then .block start stop kind (ctx.pruneAll body) else .op start

def Context.pruneAll (ctx : Context) : List Node → List Node
  | [] => []
  | n :: ns => ctx.prune n :: ctx.pruneAll ns

end

theorem node_op_of_none {ctx : Context} {k : Nat} (h : ctx.stack? k = none)
    (labels : List Label) : node ctx labels (.op k) = unreachable := by
  unfold node
  rw [h]
  cases ctx.instrs[k]? <;> rfl

mutual

theorem node_prune (ctx : Context) (labels : List Label) (n : Node) :
    node ctx labels (ctx.prune n) = node ctx labels n := by
  match n with
  | .op k =>
    unfold Context.prune
    rfl
  | .loop start stop body =>
    unfold Context.prune
    cases hs : ctx.stack? start with
    | none =>
      rw [Option.isSome_none, if_neg Bool.false_ne_true, node_op_of_none hs]
      unfold node
      rw [hs]
    | some stack =>
      rw [Option.isSome_some, if_pos rfl]
      unfold node
      simp only [nodes_pruneAll ctx _ body]
  | .block start stop kind body =>
    unfold Context.prune
    cases hs : ctx.stack? start with
    | none =>
      rw [Option.isSome_none, if_neg Bool.false_ne_true, node_op_of_none hs]
      cases kind <;>
      · unfold node
        rw [hs]
    | some stack =>
      rw [Option.isSome_some, if_pos rfl]
      cases kind <;>
      · unfold node
        simp only [nodes_pruneAll ctx _ body]

/-- Lowering sees no more of a tree than is left of it. -/
theorem nodes_pruneAll (ctx : Context) (labels : List Label) (ns : List Node) :
    nodes ctx labels (ctx.pruneAll ns) = nodes ctx labels ns := by
  match ns with
  | [] =>
    unfold Context.pruneAll
    rfl
  | n :: ns =>
    unfold Context.pruneAll nodes
    rw [node_prune ctx labels n, nodes_pruneAll ctx labels ns]

end

/-- A loop or block that is not reached at its start is reached nowhere. -/
def Context.Quiet (ctx : Context) (ns : List Node) : Prop :=
  ∀ n s e, Node.Within n ns → n.extent? = some (s, e) → ctx.stack? s = none →
    ∀ k ∈ n.indices, ctx.stack? k = none

theorem Context.Quiet.mono {ctx : Context} {ns ns' : List Node} (h : ctx.Quiet ns')
    (hs : ns ⊆ ns') : ctx.Quiet ns :=
  fun n s e hn => h n s e (hn.mono hs)

theorem Context.Quiet.body {ctx : Context} {n : Node} (h : ctx.Quiet [n]) : ctx.Quiet n.body :=
  fun m s e hm => h m s e (.inside List.mem_cons_self hm)

mutual

theorem mem_prune {ctx : Context} {n : Node} (h : ctx.Quiet [n]) {k : Nat} (hk : k ∈ n.indices)
    (hr : (ctx.stack? k).isSome = true) : k ∈ (ctx.prune n).indices := by
  have hreached {s e : Nat} (hext : n.extent? = some (s, e)) : (ctx.stack? s).isSome = true := by
    by_contra hs
    rw [h n s e (.here List.mem_cons_self) hext (by simpa using hs) k hk] at hr
    cases hr
  match n with
  | .op j =>
    unfold Context.prune
    exact hk
  | .loop start stop body =>
    unfold Context.prune
    rw [if_pos (hreached rfl)]
    exact mem_pruneAll h.body hk hr
  | .block start stop kind body =>
    unfold Context.prune
    rw [if_pos (hreached rfl)]
    rcases List.mem_append.mp hk with hk | hk
    · exact List.mem_append_left _ hk
    · exact List.mem_append_right _ (mem_pruneAll h.body hk hr)

/-- What is reached is left. -/
theorem mem_pruneAll {ctx : Context} {ns : List Node} (h : ctx.Quiet ns) {k : Nat}
    (hk : k ∈ Node.indicesOf ns) (hr : (ctx.stack? k).isSome = true) :
    k ∈ Node.indicesOf (ctx.pruneAll ns) := by
  match ns with
  | [] => cases hk
  | n :: ns =>
    unfold Context.pruneAll
    rcases List.mem_append.mp hk with hk | hk
    · exact List.mem_append_left _ (mem_prune (h.mono (by simp)) hk hr)
    · exact List.mem_append_right _ (mem_pruneAll (h.mono (by simp)) hk hr)

end

mutual

theorem reached_of_within_prune {ctx : Context} {n m : Node} {s e : Nat}
    (hm : m = ctx.prune n ∨ Node.Within m (ctx.prune n).body) (hext : m.extent? = some (s, e)) :
    (ctx.stack? s).isSome = true := by
  have hop {j : Nat} (hm : m = .op j ∨ Node.Within m (Node.op j).body) : False := by
    rcases hm with rfl | hm
    · cases hext
    · exact Node.not_within_nil hm
  match n with
  | .op j =>
    unfold Context.prune at hm
    exact (hop hm).elim
  | .loop start stop body | .block start stop kind body =>
    unfold Context.prune at hm
    split at hm
    · next hs =>
      rcases hm with rfl | hm
      · cases hext
        exact hs
      · exact reached_of_within hm hext
    · exact (hop hm).elim

/-- No loop or block is left that is not reached at its start. -/
theorem reached_of_within {ctx : Context} {ns : List Node} {m : Node} {s e : Nat}
    (hm : Node.Within m (ctx.pruneAll ns)) (hext : m.extent? = some (s, e)) :
    (ctx.stack? s).isSome = true := by
  match ns with
  | [] =>
    unfold Context.pruneAll at hm
    exact (Node.not_within_nil hm).elim
  | n :: ns =>
    unfold Context.pruneAll at hm
    rcases Node.within_cons hm with hm | hm | hm
    · exact reached_of_within_prune (.inl hm) hext
    · exact reached_of_within_prune (.inr hm) hext
    · exact reached_of_within hm hext

end

/-- Lowering lowers all that is reached: what it leaves out of the nodes is not reached. -/
structure Context.LowersReached (ctx : Context) (ns : List Node) : Prop where
  /-- Where control reaches a loop or block, it reaches its start. -/
  entered : ctx.Entered ns
  same : ∀ labels, nodes ctx labels (ctx.pruneAll ns) = nodes ctx labels ns
  /-- Of what is left nothing is left out. -/
  whole : ∀ n s e, Node.Within n (ctx.pruneAll ns) → n.extent? = some (s, e) →
    (ctx.stack? s).isSome = true
  kept : ∀ k, (ctx.stack? k).isSome = true → k ∈ Node.indicesOf (ctx.pruneAll ns)

theorem Context.Entered.quiet {ctx : Context} {ns : List Node} (h : ctx.Entered ns)
    (hext : ∀ n s e, Node.Within n ns → n.extent? = some (s, e) →
      s < e ∧ n.indices = List.range' s (e - s)) : ctx.Quiet ns := by
  intro n s e hn hne hs k hk
  rw [(hext n s e hn hne).2, List.mem_range'_1] at hk
  exact h n s e hn hne hs k hk.1 (by omega)

end Lowering

open Lowering

/-- Every edge into a loop or block of the tree of decoded instructions goes to its start. So, once
stacks are typed, a construct that lowering leaves out for its start holds nothing that is
reached. -/
theorem single_entry {pool : Pool} {code : Bytes} {instrs : Array Instruction} {tree : List Node}
    (hd : decode pool code = .ok instrs) (hs : structureOf instrs = .ok tree) :
    EnteredAtStart instrs tree ∧
      ∀ ret typing, stackTyping ret instrs = .ok typing → ∀ resolver maxSpan,
        (Context.of resolver maxSpan instrs typing).LowersReached tree := by
  have hasc := ascending_of_decode hd
  have hshaped := structureOf_shaped hd hs
  refine ⟨structureOf_entered hasc hs, fun ret typing htyping resolver maxSpan => ?_⟩
  have hentered := Context.entered_of_structureOf hasc hs htyping resolver maxSpan
  refine ⟨hentered, fun labels => nodes_pruneAll _ labels tree,
    fun n s e hn hext => reached_of_within hn hext, fun k hk => ?_⟩
  refine mem_pruneAll (hentered.quiet hshaped.extents) ?_ hk
  rw [hshaped.order, List.mem_range, ← (stackTyping_typed hasc htyping).size]
  obtain ⟨stack, hstack⟩ := Option.isSome_iff_exists.mp hk
  exact StackTyping.lt_size_of_stackAt hstack

/-! ## A loop that a jump passes over -/

def passedCode : Bytes := [0xa7, 0, 7, 0x00, 0xa7, 0xff, 0xff, 0xb1]

def passedInstrs : Array Instruction :=
  #[⟨0, 3, 0xa7, false, .goto 7⟩, ⟨3, 1, 0x00, false, .nop⟩, ⟨4, 3, 0xa7, false, .goto (-1)⟩,
    ⟨7, 1, 0xb1, false, .ret .void⟩]

def passedTree : List Node := [.block 0 3 .plain [.op 0, .loop 1 3 [.op 1, .op 2]], .op 3]

set_option maxRecDepth 2000 in
theorem decode_passedCode : decode ⟨#[]⟩ passedCode = .ok passedInstrs := by
  rfl

theorem structureOf_passedInstrs : structureOf passedInstrs = .ok passedTree :=
  structureOf_of_repaired #[⟨0, 3, .block⟩, ⟨1, 3, .loop⟩] [⟨0, 3, .block⟩, ⟨1, 3, .loop⟩]
    rfl (by simp [List.mergeSort, Region.precedes, Region.demote]) rfl

theorem single_entry_passed :
    decode ⟨#[]⟩ passedCode = .ok passedInstrs ∧ structureOf passedInstrs = .ok passedTree ∧
      EnteredAtStart passedInstrs passedTree ∧
      stackTyping .void passedInstrs = .ok #[some [], none, none, some []] ∧
      let ctx := Context.of ⟨fun _ => none, fun _ => none⟩ 0 passedInstrs
        #[some [], none, none, some []]
      ctx.LowersReached passedTree ∧
        ctx.pruneAll passedTree = [.block 0 3 .plain [.op 0, .op 1], .op 3] := by
  have hd := decode_passedCode
  have hs := structureOf_passedInstrs
  have htyping : stackTyping .void passedInstrs = .ok #[some [], none, none, some []] :=
    ok_of_toOption rfl
  obtain ⟨hentered, hlowers⟩ := single_entry hd hs
  exact ⟨hd, hs, hentered, htyping, hlowers .void _ htyping _ 0, rfl⟩

end ClassWasm
