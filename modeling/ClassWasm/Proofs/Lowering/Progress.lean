/-
  Where lowering gets stuck. A computation `Settles` a condition when it succeeds exactly where
  the condition holds and fails with a known error elsewhere. Marks around a branch are the labels
  around it, so a branch always finds its construct, typed stacks have the operands that a shuffle
  needs, and no operator or conversion lacks its instruction. What is left are members without an
  index, and switches whose table is too long for an index of 32 bits. `lower_settles` says that
  lowering succeeds exactly when stacks can be typed and no reached instruction is one of these.
-/
import Mathlib
import ClassWasm.Proofs.Lowering.BranchRuns
import ClassWasm.Proofs.Lowering.Compiles
import ClassWasm.Proofs.Reachability

namespace ClassWasm

namespace Lowering

open Wasm (Plain Instr BlockType FuncType ValType)

variable {α β : Type} {P Q : Prop} {E : Error → Prop}

/-! ## Success -/

/-- The computation succeeds in every state. -/
def Succeeds (x : M α) : Prop := ∀ s, ∃ a s', x s = .ok a s'

/-- The computation succeeds where `P` holds, and fails with an error of `E` where it does not. -/
def Settles (x : M α) (P : Prop) (E : Error → Prop) : Prop :=
  ∀ s, match x s with
    | .ok _ _ => P
    | .error e _ => ¬P ∧ E e

theorem Succeeds.settles {x : M α} (h : Succeeds x) (hP : P) : Settles x P E := by
  intro s
  obtain ⟨a, s', hx⟩ := h s
  rw [hx]
  exact hP

theorem Succeeds.bind {x : M α} {f : α → M β} (hx : Succeeds x) (hf : ∀ a, Succeeds (f a)) :
    Succeeds (x >>= f) := by
  intro s
  obtain ⟨a, s₁, hx⟩ := hx s
  obtain ⟨b, s₂, hf⟩ := hf a s₁
  refine ⟨b, s₂, ?_⟩
  change EStateM.bind x f s = _
  rw [EStateM.bind, hx]
  exact hf

theorem Settles.congr {x : M α} (h : Settles x P E) (hPQ : P ↔ Q) : Settles x Q E := by
  rwa [← propext hPQ]

theorem Settles.mono {x : M α} {E' : Error → Prop} (h : Settles x P E) (hE : ∀ e, E e → E' e) :
    Settles x P E' := by
  intro s
  have hx := h s
  split at hx
  · exact hx
  · exact ⟨hx.1, hE _ hx.2⟩

theorem Settles.bind {x : M α} {f : α → M β} (hx : Settles x P E) (hf : ∀ a, Settles (f a) Q E) :
    Settles (x >>= f) (P ∧ Q) E := by
  intro s
  have hx := hx s
  change match EStateM.bind x f s with
    | .ok _ _ => P ∧ Q
    | .error e _ => ¬(P ∧ Q) ∧ E e
  unfold EStateM.bind
  split at hx
  · next a s₁ hrun =>
    rw [hrun]
    have hf := hf a s₁
    dsimp only
    split at hf
    · exact ⟨hx, hf⟩
    · exact ⟨fun h => hf.1 h.2, hf.2⟩
  · next e s₁ hrun =>
    rw [hrun]
    exact ⟨fun h => hx.1 h.1, hx.2⟩

theorem Succeeds.then {x : M α} {f : α → M β} (hx : Succeeds x) (hf : ∀ a, Settles (f a) Q E) :
    Settles (x >>= f) Q E :=
  ((hx.settles trivial).bind hf).congr (iff_of_eq (true_and Q))

theorem Settles.then {x : M α} {f : α → M β} (hx : Settles x P E) (hf : ∀ a, Succeeds (f a)) :
    Settles (x >>= f) P E :=
  (hx.bind fun a => (hf a).settles trivial).congr (iff_of_eq (and_true P))

theorem Settles.nested {x : M Unit} (hx : Settles x P E) : Settles (nested x) P E := by
  have hget : Succeeds (get : M State) := fun s => ⟨_, _, rfl⟩
  refine hget.then fun s => ?_
  have hset (f : State → State) : Succeeds (modify f : M Unit) := fun s => ⟨_, _, rfl⟩
  refine (hset _).then fun _ => hx.then fun _ => hget.bind fun s' => ?_
  exact (hset _).bind fun _ s => ⟨_, _, rfl⟩

/-- Lowering an instruction in the state `s` succeeds, with code of which `P` holds, whatever the
locals and types of the whole function turn out to be. -/
def Lowers (ctx : Context) (labels : List Label) (k : Nat) (i : Instruction) (stack : List Kind)
    (s : State) (P : Locals → Array FuncType → List Instr → Prop) : Prop :=
  ∃ s' code, operation ctx labels k i stack s = .ok () s' ∧ s'.done = code.reverse ++ s.done ∧
    ∀ L T, Final s' L T → P L T code

theorem Succeeds.lowers {ctx : Context} {labels : List Label} {k : Nat} {i : Instruction}
    {stack : List Kind} {s : State} {n : Nat} {x : M Unit} {P : Emission Unit}
    (h : Succeeds (operation ctx labels k i stack)) (he : Emits n x P)
    (hx : operation ctx labels k i stack = x) (hs : s.locals.Sound) :
    Lowers ctx labels k i stack s fun L T code => L.Sound ∧ P L T () code := by
  obtain ⟨⟨⟩, s', hrun⟩ := h s
  obtain ⟨-, code, hdone, hP⟩ := he s () s' (hx ▸ hrun) hs
  exact ⟨s', code, hrun, hdone, fun L T hf => ⟨hf.sound, hP L T hf⟩⟩

theorem Lowers.mono {ctx : Context} {labels : List Label} {k : Nat} {i : Instruction}
    {stack : List Kind} {s : State} {P Q : Locals → Array FuncType → List Instr → Prop}
    (h : Lowers ctx labels k i stack s P) (hPQ : ∀ L T code, P L T code → Q L T code) :
    Lowers ctx labels k i stack s Q := by
  obtain ⟨s', code, hrun, hdone, hP⟩ := h
  exact ⟨s', code, hrun, hdone, fun L T hf => hPQ L T code (hP L T hf)⟩

/-! ## What always succeeds -/

theorem succeeds_emit (i : Instr) : Succeeds (emit i) := fun _ => ⟨_, _, rfl⟩

theorem succeeds_emitAll (ps : List Plain) : Succeeds (emitAll ps) := fun _ => ⟨_, _, rfl⟩

theorem succeeds_unreachable : Succeeds unreachable := by
  intro s
  simp only [unreachable, bind, EStateM.bind, get, getThe, MonadStateOf.get, EStateM.get]
  split <;> exact ⟨_, _, rfl⟩

theorem succeeds_blockType (ks : List Kind) : Succeeds (blockType ks) := by
  intro s
  match ks with
  | [] | [_] | _ :: _ :: _ => exact ⟨_, _, rfl⟩

theorem succeeds_freshAll (ks : List Kind) : Succeeds (freshAll ks) := by
  induction ks with
  | nil => exact fun s => ⟨_, _, rfl⟩
  | cons k ks ih =>
    have hfresh : Succeeds (withLocals (Locals.fresh (.ofKind k))) := fun s => ⟨_, _, rfl⟩
    exact hfresh.bind fun l => ih.bind fun ls s => ⟨_, _, rfl⟩

theorem succeeds_spillFresh (ks : List Kind) : Succeeds (spillFresh ks) :=
  (succeeds_freshAll ks).bind fun _ _ => ⟨_, _, rfl⟩

theorem succeeds_spillBelow (below : List Kind) : Succeeds (spillBelow below) := by
  cases below with
  | nil => exact fun s => ⟨_, _, rfl⟩
  | cons k ks =>
    have hflag : Succeeds (temp .i32 0) := fun s => ⟨_, _, rfl⟩
    refine hflag.bind fun flag => (succeeds_emit _).bind fun _ => ?_
    exact (succeeds_spillFresh (k :: ks)).bind fun ls s => ⟨_, _, rfl⟩

theorem succeeds_close (ctx : Context) (stop : Nat) (i : Instr) : Succeeds (close ctx stop i) := by
  refine (succeeds_emit i).bind fun _ => ?_
  have hdead : Succeeds (setDead false) := fun s => ⟨_, _, rfl⟩
  refine hdead.bind fun _ => ?_
  split
  · exact succeeds_unreachable
  · exact fun s => ⟨_, _, rfl⟩

theorem succeeds_tempsFor (used : List ValType) (ks : List Kind) : Succeeds (tempsFor used ks) := by
  induction ks generalizing used with
  | nil => exact fun s => ⟨_, _, rfl⟩
  | cons k ks ih =>
    have htemp : Succeeds (temp (.ofKind k) (used.count (.ofKind k))) := fun s => ⟨_, _, rfl⟩
    exact htemp.bind fun l => (ih _).bind fun ls s => ⟨_, _, rfl⟩

theorem succeeds_rearrange (s : Shuffle) (stack : List Kind) : Succeeds (rearrange s stack) := by
  unfold rearrange
  split
  · exact succeeds_emitAll _
  · exact (succeeds_tempsFor _ _).bind fun ls s => ⟨_, _, rfl⟩

theorem succeeds_arith (fail : OpError → Error) (a : Arith) :
    Succeeds (arith fail a.kind (arithOperator a)) := by
  have hdivide (t : ValType) (ps : UInt32 × UInt32 → List Plain) :
      Succeeds (twoTemps t >>= fun ab => emitAll (ps ab)) := fun s => ⟨_, _, rfl⟩
  by_cases hint : a = .int .div
  · subst hint
    exact hdivide .i32 fun ab => divide .w32 ab.1 ab.2
  by_cases hlong : a = .long .div
  · subst hlong
    exact hdivide .i64 fun ab => divide .w64 ab.1 ab.2
  rw [arith_eq_emitAll fail hint hlong]
  exact succeeds_emitAll _

theorem succeeds_convert (fail : OpError → Error) (c : Conversion) :
    Succeeds (convert fail c.source c.target) := by
  rw [convert_eq_emitAll]
  exact succeeds_emitAll _

theorem succeeds_branchIf (c : Condition) (target : UInt32 × Label) :
    Succeeds (branchIf c target) := by
  refine (succeeds_emitAll _).bind fun _ => ?_
  split <;> exact fun s => ⟨_, _, rfl⟩

/-! ## Branches find their construct -/

/-- Where a branch to a construct goes. -/
def Label.mark : Label → Mark
  | loop start _ => .restart start
  | block stop => .leave stop

theorem exists_serves {labels : List Label} {k t : Nat}
    (h : Served (labels.map Label.mark) k t) : ∃ l ∈ labels, l.serves k t = true := by
  unfold Served at h
  split at h
  · next hlt =>
    obtain ⟨l, hl, hmark⟩ := List.mem_map.mp h
    refine ⟨l, hl, ?_⟩
    cases l with
    | loop start spill => cases hmark
    | block stop =>
      cases hmark
      simp [Label.serves, hlt]
  · next hlt =>
    obtain ⟨l, hl, hmark⟩ := List.mem_map.mp h
    refine ⟨l, hl, ?_⟩
    cases l with
    | loop start spill =>
      cases hmark
      simp [Label.serves, Nat.not_lt.mp hlt]
    | block stop => cases hmark

theorem depth_eq_ok {ctx : Context} (hctx : ctx.Sound) {labels : List Label} {k t : Nat}
    {i : Instruction} {delta : Int32} (ht : StartsAt ctx.instrs t (i.absolute delta))
    (hserved : Served (labels.map Label.mark) k t) : ∃ d, depth ctx labels k i delta = .ok d := by
  obtain ⟨l, hl, hserves⟩ := exists_serves hserved
  have hfind : ctx.table.find? (i.absolute delta) = some t := by
    rw [hctx.table]
    exact (OffsetTable.find?_ofInstructions hctx.ascending).mpr ht
  unfold depth
  rw [hfind, Option.getD_some]
  dsimp only
  split
  · exact ⟨_, rfl⟩
  · next hnone =>
    obtain ⟨n, hn, rfl⟩ := List.getElem_of_mem hl
    have hmem : (labels[n], n) ∈ labels.zipIdx := by
      rw [List.mem_zipIdx_iff_getElem?]
      exact List.getElem?_eq_getElem hn
    exact absurd hserves (List.find?_eq_none.mp hnone _ hmem)

/-- All branches of the instruction at position `k` go to constructs around it. -/
def Context.Aimed (ctx : Context) (labels : List Label) (k : Nat) : Prop :=
  ∀ t, LeadsTo ctx.instrs k t → Served (labels.map Label.mark) k t

/-- What typing and structuring have found out about code of any length. -/
structure Context.Flows (ctx : Context) (ret : Kind) : Prop extends ctx.Sound where
  typed : Typed ctx.instrs ret ctx.typing
  lands : Lands ctx.instrs ctx.instrs.size

theorem Context.Flows.target {ctx : Context} {ret : Kind} (hctx : ctx.Flows ret)
    {labels : List Label} {k : Nat} {i : Instruction} (hi : ctx.instrs[k]? = some i)
    (haimed : ctx.Aimed labels k) :
    ∀ delta ∈ i.op.branches, ∃ d, depth ctx labels k i delta = .ok d := by
  intro delta hdelta
  obtain ⟨t, ht, -⟩ := hctx.lands k (Array.getElem?_eq_some_iff.mp hi).1 i hi delta hdelta
  exact depth_eq_ok hctx.toSound ht (haimed t ⟨i, hi, delta, hdelta, ht⟩)

theorem mapM_eq_pure {f : α → M β} (as : List α) (h : ∀ a ∈ as, ∃ b, f a = pure b) :
    ∃ bs, as.mapM f = pure bs ∧ bs.length = as.length := by
  induction as with
  | nil => exact ⟨[], rfl, rfl⟩
  | cons a as ih =>
    obtain ⟨b, hb⟩ := h a List.mem_cons_self
    obtain ⟨bs, hbs, hlength⟩ := ih fun a ha => h a (List.mem_cons_of_mem _ ha)
    refine ⟨b :: bs, ?_, congrArg (· + 1) hlength⟩
    rw [List.mapM_cons, hb, pure_bind, hbs, pure_bind]

/-- A switch over listed keys becomes a table, and this is too long for an index of 32 bits. -/
def Overflows (maxSpan : Int) : Operation → Prop
  | .lookupSwitch _ cases => Dense maxSpan cases ∧ ¬Dense (2 ^ 31) cases
  | _ => False

theorem not_overflows {maxSpan : Int} (h : maxSpan ≤ 2 ^ 31) (op : Operation) :
    ¬Overflows maxSpan op := by
  cases op with
  | lookupSwitch default cases =>
    exact fun ⟨hdense, hnot⟩ => hnot fun a ha b hb => (hdense a ha b hb).trans_le h
  | _ => exact id

/-- A table that is too long is where the index of a key wraps around. -/
theorem lookupSwitch_settles {maxSpan : Int} (default : UInt32) {cs : List (Int32 × UInt32)}
    {cases : List (Int32 × Int32)} (hkeys : cs.map Prod.fst = cases.map Prod.fst) (t : Int32) :
    Settles (lookupSwitch maxSpan default cs) (¬Overflows maxSpan (.lookupSwitch t cases))
      fun e => Overflows maxSpan (.lookupSwitch t cases) ∧
        ∃ index : Int32, index.toInt < 0 ∧ e = .crash index := by
  unfold lookupSwitch
  split
  · next hnil =>
    obtain rfl : cases = [] := List.map_eq_nil_iff.mp (hkeys.symm.trans hnil)
    exact Succeeds.settles (fun s => ⟨_, _, rfl⟩) fun h => h.2 nofun
  · next k ks hcons =>
    have hcases := hkeys.symm.trans hcons
    have hdense := span_le_iff maxSpan hcases
    have hfits := wrapped?_eq_none_iff_dense hcases
    dsimp only
    split
    · next hspan =>
      split
      · next index hindex =>
        have hover : Overflows maxSpan (.lookupSwitch t cases) := by
          refine ⟨hdense.mp hspan, fun h => ?_⟩
          rw [hfits.mpr h] at hindex
          cases hindex
        have hneg := List.find?_some hindex
        exact fun s => ⟨not_not_intro hover, hover, index, by simpa using hneg, rfl⟩
      · next hnone =>
        exact Succeeds.settles (fun s => ⟨_, _, rfl⟩) fun h => h.2 (hfits.mp hnone)
    · next hspan =>
      exact Succeeds.settles (fun s => ⟨_, _, rfl⟩) fun h => hspan (hdense.mpr h.1)

/-- Lowering a switch whose targets are found fails only where its table is too long. -/
theorem switch_settles {ctx : Context} {labels : List Label} {k : Nat} {i : Instruction}
    (hswitch : i.op.isSwitch = true)
    (htarget : ∀ delta ∈ i.op.branches, ∃ d, depth ctx labels k i delta = .ok d)
    (stack : List Kind) :
    Settles (operation ctx labels k i stack) (¬Overflows ctx.maxSpan i.op) fun e =>
      Overflows ctx.maxSpan i.op ∧ ∃ index : Int32, index.toInt < 0 ∧ e = .crash index := by
  have hfound : ∀ delta ∈ i.op.branches,
      ∃ d, found (.operation i.opcode i.offset) (depth ctx labels k i delta) = pure d := by
    intro delta hdelta
    obtain ⟨d, hd⟩ := htarget delta hdelta
    exact ⟨d, by rw [hd]; rfl⟩
  have hbranches : i.op.branches ≠ [] := by
    cases hop : i.op with
    | tableSwitch | lookupSwitch => exact List.cons_ne_nil _ _
    | _ =>
      rw [hop] at hswitch
      cases hswitch
  rw [operation_eq_branching hbranches]
  unfold branching
  cases hop : i.op with
  | tableSwitch default low ts =>
    rw [hop] at hfound
    obtain ⟨ds, hds, -⟩ := mapM_eq_pure ts fun t ht => hfound t (List.mem_cons_of_mem _ ht)
    obtain ⟨d, hd⟩ := hfound default List.mem_cons_self
    dsimp only
    rw [hds, pure_bind, hd, pure_bind]
    exact Succeeds.settles (fun s => ⟨_, _, rfl⟩) id
  | lookupSwitch default cases =>
    rw [hop] at hfound
    obtain ⟨d, hd⟩ := hfound default List.mem_cons_self
    obtain ⟨ds, hds, hlength⟩ := mapM_eq_pure cases
      fun c hc => hfound c.2 (List.mem_cons_of_mem _ (List.mem_map_of_mem hc))
    dsimp only
    rw [hd, pure_bind, hds, pure_bind]
    refine lookupSwitch_settles d.1 (List.map_fst_zip ?_) default
    rw [List.length_map, List.length_map, hlength]
  | _ =>
    rw [hop] at hswitch
    cases hswitch

/-! ## Members and their indices -/

/-- The member that an operation refers to, where it does, has an index. -/
def Resolver.Resolves (r : Resolver) : Operation → Prop
  | .getStatic ref | .putStatic ref => (r.global ref).isSome = true
  | .invokeStatic ref => (r.function ref).isSome = true
  | _ => True

/-- The error of an instruction that is reached and refers to a member without an index. -/
inductive Context.Unresolved (ctx : Context) : Error → Prop
  | field {k : Nat} {i : Instruction} {ref : MemberRef} : ctx.instrs[k]? = some i →
    (ctx.stack? k).isSome = true → i.op = .getStatic ref ∨ i.op = .putStatic ref →
    ctx.resolver.global ref = none → Unresolved ctx (.operation i.opcode i.offset (.field ref))
  | method {k : Nat} {i : Instruction} {ref : MemberRef} : ctx.instrs[k]? = some i →
    (ctx.stack? k).isSome = true → i.op = .invokeStatic ref →
    ctx.resolver.function ref = none → Unresolved ctx (.operation i.opcode i.offset (.method ref))

theorem Context.Unresolved.causes {ctx : Context} {e : Error} (h : ctx.Unresolved e) :
    Fault.causes e = [.unresolvedSymbol] := by
  cases h <;> rfl

theorem Context.Unresolved.exists_not_resolves {ctx : Context} {e : Error}
    (h : ctx.Unresolved e) : ∃ i ∈ ctx.instrs, ¬ctx.resolver.Resolves i.op := by
  cases h with
  | field hi _ hop hnone =>
    refine ⟨_, Array.mem_of_getElem? hi, fun hresolves => ?_⟩
    obtain hop | hop := hop <;>
    · rw [hop, Resolver.Resolves, hnone] at hresolves
      cases hresolves
  | method hi _ hop hnone =>
    refine ⟨_, Array.mem_of_getElem? hi, fun hresolves => ?_⟩
    rw [hop, Resolver.Resolves, hnone] at hresolves
    cases hresolves

/-- The crash of a switch that is reached and whose table is too long for an index of 32 bits. -/
def Context.Crashes (ctx : Context) (e : Error) : Prop :=
  ∃ (k : Nat) (i : Instruction) (index : Int32), ctx.instrs[k]? = some i ∧
    (ctx.stack? k).isSome = true ∧ Overflows ctx.maxSpan i.op ∧ index.toInt < 0 ∧ e = .crash index

/-- How lowering fails where stacks are typed. -/
def Context.Fails (ctx : Context) (e : Error) : Prop := ctx.Unresolved e ∨ ctx.Crashes e

/-- The operation refers to a member with an index, where it does to one, and is no switch whose
table is too long. -/
def Context.Admits (ctx : Context) (op : Operation) : Prop :=
  ctx.resolver.Resolves op ∧ ¬Overflows ctx.maxSpan op

/-- Lowering an instruction fails only where its member has no index or its table is too long. -/
theorem operation_settles {ctx : Context} {ret : Kind} (hctx : ctx.Flows ret)
    {labels : List Label} {k : Nat} {i : Instruction} {stack : List Kind}
    (hi : ctx.instrs[k]? = some i) (hk : ctx.stack? k = some stack) (haimed : ctx.Aimed labels k) :
    Settles (operation ctx labels k i stack) (ctx.Admits i.op) ctx.Fails := by
  obtain ⟨out, hstep, -⟩ := hctx.typed.follows k stack hk i hi
  have hreached : (ctx.stack? k).isSome = true := by rw [hk]; rfl
  have htarget := hctx.target hi haimed
  by_cases hswitch : i.op.isSwitch = true
  · have hresolves : ctx.resolver.Resolves i.op := by
      cases hop : i.op with
      | tableSwitch | lookupSwitch => trivial
      | _ =>
        rw [hop] at hswitch
        cases hswitch
    refine ((switch_settles hswitch htarget stack).congr (and_iff_right hresolves).symm).mono ?_
    rintro e ⟨hover, index, hneg, rfl⟩
    exact .inr ⟨k, i, index, hi, hreached, hover, hneg, rfl⟩
  have hfound {delta : Int32} (hdelta : delta ∈ i.op.branches) :
      Succeeds (found (.operation i.opcode i.offset) (depth ctx labels k i delta)) := by
    obtain ⟨d, hd⟩ := htarget delta hdelta
    rw [hd]
    exact fun s => ⟨_, _, rfl⟩
  unfold operation
  cases hop : i.op with
  | nop | const | load | store | increment | narrow | compare | ret =>
    exact Succeeds.settles (fun s => ⟨_, _, rfl⟩) ⟨trivial, id⟩
  | arith a => exact (succeeds_arith _ a).settles ⟨trivial, id⟩
  | convert c => exact (succeeds_convert _ c).settles ⟨trivial, id⟩
  | stack op =>
    rw [hop] at hstep
    simp only [StackTyping.step] at hstep
    dsimp only
    cases hs : Shuffle.of? op stack with
    | none =>
      rw [hs] at hstep
      cases hstep
    | some s => exact (succeeds_rearrange s stack).settles ⟨trivial, id⟩
  | getStatic ref =>
    dsimp only
    cases hg : ctx.resolver.global ref with
    | some g => exact (succeeds_emit _).settles ⟨by simp [Resolver.Resolves, hg], id⟩
    | none =>
      exact fun s => ⟨fun h => by simp [Context.Admits, Resolver.Resolves, hg] at h,
        .inl (.field hi hreached (.inl hop) hg)⟩
  | putStatic ref =>
    dsimp only
    cases hg : ctx.resolver.global ref with
    | some g => exact (succeeds_emit _).settles ⟨by simp [Resolver.Resolves, hg], id⟩
    | none =>
      exact fun s => ⟨fun h => by simp [Context.Admits, Resolver.Resolves, hg] at h,
        .inl (.field hi hreached (.inr hop) hg)⟩
  | invokeStatic ref =>
    dsimp only
    cases hf : ctx.resolver.function ref with
    | some f => exact (succeeds_emit _).settles ⟨by simp [Resolver.Resolves, hf], id⟩
    | none =>
      exact fun s => ⟨fun h => by simp [Context.Admits, Resolver.Resolves, hf] at h,
        .inl (.method hi hreached hop hf)⟩
  | goto t =>
    dsimp only
    unfold branching
    rw [hop] at hfound ⊢
    refine Succeeds.settles ((hfound (by simp [Operation.branches])).bind fun d s => ?_)
      ⟨trivial, id⟩
    exact ⟨_, _, rfl⟩
  | branch c t =>
    dsimp only
    unfold branching
    rw [hop] at hfound ⊢
    refine Succeeds.settles ((hfound (by simp [Operation.branches])).bind fun d => ?_) ⟨trivial, id⟩
    exact succeeds_branchIf c d
  | tableSwitch | lookupSwitch =>
    exact absurd (by rw [hop]; rfl) hswitch

/-! ## Trees -/

/-- Every instruction from `a` up to `b` is admitted, where control reaches it. -/
def Context.AdmitsAll (ctx : Context) (a b : Nat) : Prop :=
  ∀ k i, a ≤ k → k < b → ctx.instrs[k]? = some i → (ctx.stack? k).isSome = true → ctx.Admits i.op

theorem Context.admitsAll_join {ctx : Context} {a b c : Nat} (hab : a ≤ b) (hbc : b ≤ c) :
    ctx.AdmitsAll a b ∧ ctx.AdmitsAll b c ↔ ctx.AdmitsAll a c := by
  constructor
  · rintro ⟨hl, hr⟩ k i hak hkc
    rcases Nat.lt_or_ge k b with hk | hk
    · exact hl k i hak hk
    · exact hr k i hk hkc
  · intro h
    exact ⟨fun k i hak hkb => h k i hak (by omega), fun k i hbk hkc => h k i (by omega) hkc⟩

/-- A guard is no switch and refers to no member. -/
theorem Context.admitsAll_guard {ctx : Context} {a e : Nat} (hg : Guards ctx.instrs a e) :
    ctx.AdmitsAll a (a + 1) := by
  obtain ⟨-, i, hi, hcond⟩ := hg
  intro k j hak hka hj _
  obtain rfl : k = a := by omega
  rw [hi] at hj
  cases hj
  cases hop : i.op with
  | branch c t => exact ⟨trivial, id⟩
  | _ =>
    rw [hop] at hcond
    cases hcond

/-- Where control reaches a loop or block among the nodes, it reaches its start. -/
def Context.Entered (ctx : Context) (ns : List Node) : Prop :=
  ∀ n s e, Node.Within n ns → n.extent? = some (s, e) → ctx.stack? s = none →
    ∀ k, s ≤ k → k < e → ctx.stack? k = none

theorem Context.Entered.tail {ctx : Context} {n : Node} {ns : List Node}
    (h : ctx.Entered (n :: ns)) : ctx.Entered ns :=
  fun m s e hm => h m s e (hm.mono (List.subset_cons_self _ _))

theorem Context.Entered.body {ctx : Context} {n : Node} {ns : List Node}
    (h : ctx.Entered (n :: ns)) : ctx.Entered n.body :=
  fun m s e hm => h m s e (.inside List.mem_cons_self hm)

/-- In a construct that is not reached, nothing is asked for. -/
theorem Context.Entered.admitsAll {ctx : Context} {n : Node} {ns : List Node} {s e : Nat}
    (h : ctx.Entered (n :: ns)) (hn : n.extent? = some (s, e)) (hs : ctx.stack? s = none) :
    ctx.AdmitsAll s e := by
  intro k i hsk hke _ hk
  rw [h n s e (.here List.mem_cons_self) hn hs k hsk hke] at hk
  cases hk

theorem construct_settles {ctx : Context} {stop : Nat} (ls : List UInt32) {inner : M Unit}
    (hinner : Settles inner P E) {finish : BlockType → List Instr → M Unit}
    (hfinish : ∀ t body, Succeeds (finish t body)) :
    Settles (do
      let t ← blockType (ctx.result stop)
      let body ← nested do
        reload ls
        inner
      finish t body) P E := by
  refine (succeeds_blockType _).then fun t => Settles.then ?_ fun body => hfinish t body
  exact ((succeeds_emitAll _).then fun _ => hinner).nested

/-- Lowering nodes fails only at an instruction that is not admitted. -/
theorem nodes_settles {ctx : Context} {ret : Kind} (hctx : ctx.Flows ret) {ms : List Mark}
    {a b : Nat} {ns : List Node} (h : Structured ctx.instrs ms a b ns) {labels : List Label}
    (hms : labels.map Label.mark = ms) (hent : ctx.Entered ns) :
    Settles (nodes ctx labels ns) (ctx.AdmitsAll a b) ctx.Fails := by
  induction h generalizing labels with
  | nil a =>
    refine Succeeds.settles (fun s => ⟨_, _, rfl⟩) fun k i hak hka => ?_
    omega
  | @op ms a b ns haimed hns ih =>
    refine (Settles.bind ?_ fun _ => ih hms hent.tail).congr
      (Context.admitsAll_join (Nat.le_succ a) hns.le)
    subst hms
    unfold node
    split
    · next i stack hi hk =>
      refine (operation_settles hctx hi hk haimed).congr ⟨fun hr k j hak hka hj _ => ?_, ?_⟩
      · obtain rfl : k = a := by omega
        rw [hi] at hj
        cases hj
        exact hr
      · exact fun hr => hr a i (Nat.le_refl a) (Nat.lt_succ_self a) hi (by rw [hk]; rfl)
    · next hno =>
      refine succeeds_unreachable.settles fun k i hak hka hi hk => ?_
      obtain rfl : k = a := by omega
      obtain ⟨stack, hstack⟩ := Option.isSome_iff_exists.mp hk
      exact (hno i stack hi hstack).elim
  | @loop ms a e b body ns hlt hbody hns ihbody ihns =>
    refine (Settles.bind ?_ fun _ => ihns hms hent.tail).congr (Context.admitsAll_join hlt.le hns.le)
    unfold node
    split
    · next hnone => exact succeeds_unreachable.settles (hent.admitsAll rfl hnone)
    · refine (succeeds_spillFresh _).then fun ls => construct_settles ls (ihbody ?_ hent.body) ?_
      · rw [List.map_cons, hms, Label.mark]
      · exact fun t inner => succeeds_close ctx e _
  | @block ms a e b kind body ns hkind hlt hbody hns ihbody ihns =>
    refine (Settles.bind ?_ fun _ => ihns hms hent.tail).congr (Context.admitsAll_join hlt.le hns.le)
    have hinner : Settles (nodes ctx (.block e :: labels) body) _ _ :=
      ihbody (by rw [List.map_cons, hms, Label.mark]) hent.body
    cases kind with
    | conditional => exact absurd rfl hkind
    | plain | wrapper =>
      unfold node
      split
      · next hnone => exact succeeds_unreachable.settles (hent.admitsAll rfl hnone)
      · refine (succeeds_spillFresh _).then fun ls => construct_settles ls hinner ?_
        exact fun t inner => succeeds_close ctx e _
  | @guarded ms a e b body ns hg hlt hbody hns ihbody ihns =>
    refine (Settles.bind ?_ fun _ => ihns hms hent.tail).congr (Context.admitsAll_join hlt.le hns.le)
    unfold node
    split
    · next hnone => exact succeeds_unreachable.settles (hent.admitsAll rfl hnone)
    · have hinner : Settles (nodes ctx (.block e :: labels) body) _ _ :=
        ihbody (by rw [List.map_cons, hms, Label.mark]) hent.body
      have hwhole : ctx.AdmitsAll (a + 1) e ↔ ctx.AdmitsAll a e := by
        rw [← Context.admitsAll_join (Nat.le_succ a) hlt]
        exact (and_iff_right (Context.admitsAll_guard hg)).symm
      refine (succeeds_emitAll _).then fun _ => (succeeds_spillBelow _).then fun ls => ?_
      refine (construct_settles ls hinner fun t inner => ?_).congr hwhole
      split
      · exact succeeds_close ctx e _
      · have hother : Succeeds (nested (reload ls)) := fun s => ⟨_, _, rfl⟩
        exact hother.bind fun other => succeeds_close ctx e _

/-! ## Whole methods -/

theorem Context.entered_of_structureOf {instrs : Array Instruction} (hasc : Ascending instrs)
    {tree : List Node} (hs : structureOf instrs = .ok tree) {ret : Kind}
    {typing : Array (Option (List Kind))} (htyping : stackTyping ret instrs = .ok typing)
    (resolver : Resolver) (maxSpan : Int) :
    (Context.of resolver maxSpan instrs typing).Entered tree := by
  intro n s e hn hext hnone k hsk hke
  rw [Option.eq_none_iff_forall_ne_some]
  intro stack hk
  have htyped := stackTyping_typed hasc htyping
  have hreach := stackTyping_reachable hasc htyping hk
  have hpos := Nat.zero_lt_of_lt (StackTyping.lt_size_of_stackAt hk)
  obtain ⟨stack', hs'⟩ := htyped.of_reachable hasc (htyped.size ▸ hpos)
    (hreach.start_of_within hasc hs hn hext hsk hke)
  cases hnone.symm.trans hs'

/-- Once stacks are typed, lowering succeeds exactly when every instruction that is reached is
admitted. -/
theorem body_settles {pool : Pool} {bytes : Bytes} {instrs : Array Instruction}
    (hd : decode pool bytes = .ok instrs) {tree : List Node} (hs : structureOf instrs = .ok tree)
    {ret : Kind} {typing : Array (Option (List Kind))}
    (htyping : stackTyping ret instrs = .ok typing) (resolver : Resolver) (maxSpan : Int) :
    Settles (body (.of resolver maxSpan instrs typing) tree)
      ((Context.of resolver maxSpan instrs typing).AdmitsAll 0 instrs.size)
      (Context.of resolver maxSpan instrs typing).Fails := by
  have hasc := ascending_of_decode hd
  have htyped := stackTyping_typed hasc htyping
  obtain ⟨hstructured, hlands⟩ := structureOf_structured hasc hs
  have hctx : (Context.of resolver maxSpan instrs typing).Flows ret :=
    ⟨⟨hasc, rfl, fun k stack hk => htyped.size ▸ StackTyping.lt_size_of_stackAt hk⟩, htyped, hlands⟩
  refine (nodes_settles hctx hstructured rfl
    (Context.entered_of_structureOf hasc hs htyping resolver maxSpan)).then fun _ => ?_
  exact succeeds_unreachable.bind fun _ s => ⟨_, _, rfl⟩

theorem check_static {m : Method} {code : Code} {type : MethodType} (hcode : m.code? = some code)
    (hstatic : m.access.isStatic = true) (hhandlers : code.handlers = [])
    (htype : Descriptor.parseMethod m.descriptor = .ok type) (instrs : Array Instruction) :
    check m instrs = match stackTyping type.resultKind instrs with
      | .error e => .error (.typing e)
      | .ok typing => .ok (type, typing) := by
  unfold check
  rw [hcode]
  dsimp only
  rw [hstatic, hhandlers, htype]
  rfl

theorem lower_settles {pool : Pool} {bytes : Bytes} {instrs : Array Instruction}
    (hd : decode pool bytes = .ok instrs) {tree : List Node} (hs : structureOf instrs = .ok tree)
    {m : Method} {type : MethodType} {typing : Array (Option (List Kind))}
    (hcheck : check m instrs = .ok (type, typing)) (resolver : Resolver) (maxSpan : Int)
    (types : Array FuncType) :
    match (lower resolver maxSpan m instrs tree types).1 with
    | .ok _ => (Context.of resolver maxSpan instrs typing).AdmitsAll 0 instrs.size
    | .error e => ¬(Context.of resolver maxSpan instrs typing).AdmitsAll 0 instrs.size ∧
      (Context.of resolver maxSpan instrs typing).Fails e := by
  have hbody := body_settles hd hs (check_eq_ok hcheck).2 resolver maxSpan
    ⟨Locals.ofParams (type.params.map FieldType.kind), types, [], false⟩
  unfold lower
  rw [hcheck]
  dsimp only
  unfold Context.of at hbody ⊢
  split at hbody
  · next f s hrun =>
    rw [hrun]
    exact hbody
  · next e s hrun =>
    rw [hrun]
    exact hbody

end Lowering

open Lowering

/-- Lowering a static method with code, no handlers and a descriptor that can be read succeeds
exactly when its stacks can be typed, every member that control can get to has an index, and no
switch that control can get to has a table too long for an index of 32 bits. Otherwise it reports
the stacks or the member of an instruction that is reached, or crashes at such a switch. A branch
never misses its construct, and no operation, operator or conversion lacks its instruction. Where
no table may be longer than 2^31, none is too long. -/
theorem lower_progress {pool : Pool} {bytes : Bytes} {instrs : Array Instruction}
    (hd : decode pool bytes = .ok instrs) {tree : List Node} (hs : structureOf instrs = .ok tree)
    {m : Method} {code : Code} {type : MethodType} (hcode : m.code? = some code)
    (hstatic : m.access.isStatic = true) (hhandlers : code.handlers = [])
    (htype : Descriptor.parseMethod m.descriptor = .ok type) (resolver : Resolver) (maxSpan : Int)
    (types : Array Wasm.FuncType) :
    ((∃ f, (lower resolver maxSpan m instrs tree types).1 = .ok f) ↔
      ∃ typing, stackTyping type.resultKind instrs = .ok typing ∧
        ∀ k i, instrs[k]? = some i → (StackTyping.stackAt typing k).isSome = true →
          resolver.Resolves i.op ∧ ¬Overflows (widestSpan maxSpan) i.op) ∧
    (∀ e, (lower resolver maxSpan m instrs tree types).1 = .error e →
      (∃ e', stackTyping type.resultKind instrs = .error e' ∧ e = .typing e') ∨
      ∃ typing, stackTyping type.resultKind instrs = .ok typing ∧
        ((Context.of resolver maxSpan instrs typing).Unresolved e ∧
            Fault.causes e = [.unresolvedSymbol] ∨
          (Context.of resolver maxSpan instrs typing).Crashes e)) ∧
    (∀ opcode offset reason,
      (lower resolver maxSpan m instrs tree types).1 = .error (.operation opcode offset reason) →
        ∃ ref, reason = .field ref ∨ reason = .method ref) ∧
    (maxSpan ≤ 2 ^ 31 → ∀ op, ¬Overflows (widestSpan maxSpan) op) := by
  have hcheck := check_static hcode hstatic hhandlers htype instrs
  have hspan : maxSpan ≤ 2 ^ 31 → ∀ op, ¬Overflows (widestSpan maxSpan) op := by
    refine fun h => not_overflows ?_
    unfold widestSpan
    split
    · decide
    · exact h
  cases htyping : stackTyping type.resultKind instrs with
  | error e =>
    rw [htyping] at hcheck
    have hlower : (lower resolver maxSpan m instrs tree types).1 = .error (.typing e) := by
      unfold lower
      rw [hcheck]
    rw [hlower]
    refine ⟨⟨nofun, fun ⟨typing, h, _⟩ => nomatch h⟩, ?_, nofun, hspan⟩
    rintro _ ⟨⟩
    exact .inl ⟨e, rfl, rfl⟩
  | ok typing =>
    rw [htyping] at hcheck
    have hsettles := lower_settles hd hs hcheck resolver maxSpan types
    cases hlower : (lower resolver maxSpan m instrs tree types).1 with
    | ok f =>
      rw [hlower] at hsettles
      refine ⟨⟨fun _ => ⟨typing, rfl, fun k i hi hk => ?_⟩, fun _ => ⟨f, rfl⟩⟩, nofun, nofun, hspan⟩
      exact hsettles k i (Nat.zero_le k) (Array.getElem?_eq_some_iff.mp hi).1 hi hk
    | error e =>
      rw [hlower] at hsettles
      obtain ⟨hnot, hfails⟩ := hsettles
      refine ⟨⟨nofun, ?_⟩, ?_, ?_, hspan⟩
      · rintro ⟨_, ⟨⟩, hall⟩
        exact (hnot fun k i _ _ hi hk => hall k i hi hk).elim
      · rintro _ ⟨⟩
        exact .inr ⟨typing, rfl, hfails.imp_left fun h => ⟨h, h.causes⟩⟩
      · rintro opcode offset reason ⟨⟩
        rcases hfails with hmember | ⟨_, _, _, _, _, _, _, hcrash⟩
        · cases hmember with
          | field => exact ⟨_, .inl rfl⟩
          | method => exact ⟨_, .inr rfl⟩
        · cases hcrash

/-! ## A method that reads a field -/

def readerPool : Pool :=
  ⟨#[none, some (.utf8 "A"), some (.classRef 1), some (.utf8 "x"), some (.utf8 "I"),
    some (.nameAndType 3 4), some (.fieldRef 2 5)]⟩

def readerCode : Bytes := [0xb2, 0, 6, 0xac]

def readerInstrs : Array Instruction :=
  #[⟨0, 3, 0xb2, false, .getStatic ⟨"A", "x", "I"⟩⟩, ⟨3, 1, 0xac, false, .ret .int⟩]

def readerMethod : Method := ⟨⟨0x0008⟩, "f", "()I", [.code ⟨1, 0, readerCode, [], []⟩]⟩

set_option maxRecDepth 2000 in
theorem decode_readerCode : decode readerPool readerCode = .ok readerInstrs := by
  rfl

theorem structureOf_readerInstrs : structureOf readerInstrs = .ok [.op 0, .op 1] :=
  structureOf_of_repaired #[] [] rfl (by simp) rfl

/-- Without an index for the field, its reader is not lowered. -/
theorem lower_progress_reader :
    (∃ f, (lower ⟨fun _ => some 0, fun _ => none⟩ 0 readerMethod readerInstrs [.op 0, .op 1]
      #[]).1 = .ok f) ∧
    ¬∃ f, (lower ⟨fun _ => none, fun _ => none⟩ 0 readerMethod readerInstrs [.op 0, .op 1]
      #[]).1 = .ok f := by
  have hparse : Descriptor.parseMethod "()I" = .ok ⟨[], some ⟨0, .primitive .int⟩⟩ := by
    decide +kernel
  have htyping : stackTyping .int readerInstrs = .ok #[some [], some [.int]] :=
    ok_of_toOption rfl
  have hcode : readerMethod.code? = some ⟨1, 0, readerCode, [], []⟩ := rfl
  have hprogress (resolver : Resolver) := (lower_progress decode_readerCode structureOf_readerInstrs
    hcode (by decide) rfl hparse resolver 0 #[]).1
  constructor
  · refine (hprogress _).mpr ⟨_, htyping, fun k i hi _ => ?_⟩
    match k with
    | 0 =>
      cases hi
      exact ⟨rfl, id⟩
    | 1 =>
      cases hi
      exact ⟨trivial, id⟩
  · intro hf
    obtain ⟨typing, htyping', hall⟩ := (hprogress _).mp hf
    obtain rfl := Except.ok.inj (htyping.symm.trans htyping')
    cases (hall 0 _ rfl rfl).1

/-! ## A switch whose table is too long -/

/-- A switch over the keys -1 and 2147483647. -/
def wideCode : Bytes :=
  [0x1a, 0xab, 0, 0, 0, 0, 0, 31, 0, 0, 0, 2, 0xff, 0xff, 0xff, 0xff, 0, 0, 0, 27,
    0x7f, 0xff, 0xff, 0xff, 0, 0, 0, 29, 0x04, 0xac, 0x05, 0xac, 0x03, 0xac]

def wideInstrs : Array Instruction :=
  #[⟨0, 1, 0x1a, false, .load .int 0⟩,
    ⟨1, 27, 0xab, false, .lookupSwitch 31 [(-1, 27), (2147483647, 29)]⟩,
    ⟨28, 1, 0x04, false, .const (.int 1)⟩, ⟨29, 1, 0xac, false, .ret .int⟩,
    ⟨30, 1, 0x05, false, .const (.int 2)⟩, ⟨31, 1, 0xac, false, .ret .int⟩,
    ⟨32, 1, 0x03, false, .const (.int 0)⟩, ⟨33, 1, 0xac, false, .ret .int⟩]

def wideTree : List Node :=
  [.op 0, .block 1 6 .wrapper [.block 1 4 .wrapper [.block 1 2 .wrapper [.op 1], .op 2, .op 3],
    .op 4, .op 5], .op 6, .op 7]

def wideMethod : Method := ⟨⟨0x0008⟩, "f", "(I)I", [.code ⟨1, 1, wideCode, [], []⟩]⟩

set_option maxRecDepth 2000 in
theorem decode_wideCode : decode ⟨#[]⟩ wideCode = .ok wideInstrs := by
  rfl

/-- The range of keys fits a table of 2^32 entries, but not an index of 32 bits: where such a table
is allowed, lowering crashes though stacks are typed and no instruction refers to a member. -/
theorem wide_switch_crashes :
    decode ⟨#[]⟩ wideCode = .ok wideInstrs ∧ structureOf wideInstrs = .ok wideTree ∧
      (wideMethod.access.isStatic = true ∧
        wideMethod.code? = some ⟨1, 1, wideCode, [], []⟩ ∧
        Descriptor.parseMethod "(I)I" =
          .ok ⟨[⟨0, .primitive .int⟩], some ⟨0, .primitive .int⟩⟩) ∧
      (∃ typing, stackTyping .int wideInstrs = .ok typing) ∧
      (∀ i ∈ wideInstrs, Resolver.Resolves ⟨fun _ => none, fun _ => none⟩ i.op) ∧
      lower ⟨fun _ => none, fun _ => none⟩ (2 ^ 32) wideMethod wideInstrs wideTree #[] =
        (.error (.crash (-2147483648)), #[]) := by
  refine ⟨decode_wideCode, ?_, ⟨by decide, rfl, parseMethod_int⟩, ?_, ?_, by cbv⟩
  · exact structureOf_of_repaired #[⟨1, 6, .wrapper 0⟩, ⟨1, 2, .wrapper 0⟩, ⟨1, 4, .wrapper 0⟩]
      [⟨1, 6, .wrapper 0⟩, ⟨1, 4, .wrapper 0⟩, ⟨1, 2, .wrapper 0⟩] rfl
      (by simp [List.mergeSort, Region.precedes, Region.demote]) rfl
  · exact ⟨#[some [], some [.int], some [], some [.int], some [], some [.int], some [],
      some [.int]], ok_of_toOption rfl⟩
  · intro i hi
    simp only [wideInstrs, List.mem_toArray, List.mem_cons, List.not_mem_nil, or_false] at hi
    rcases hi with rfl | rfl | rfl | rfl | rfl | rfl | rfl | rfl <;> trivial

end ClassWasm
