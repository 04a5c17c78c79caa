/-
  Lowered code does what the method does. The code of a part of a tree does the part of a run that
  lies between its positions (`Compiles.simulates`): a branch outward is answered by the construct it
  leads to, and a loop by induction on the steps that are left.
-/
import ClassWasm.Proofs.Lowering.Agreement

namespace ClassWasm.Lowering

open Machine (Setting Routine Program Point End Effect Store Statics staticKey)
open Wasm (Plain Instr Val Config FuncType BlockType Exec runPlain leave)

namespace Pairing

variable {x : Pairing} {labels : List Label} {a b n : Nat} {code code' : List Instr}

/-! ## Parts of code -/

theorem Arrives.mono {m : Nat} {r : Wasm.Outcome × Config} (h : x.Arrives labels b m r)
    (hmn : m ≤ n) : x.Arrives labels b n r := by
  obtain ⟨o, c⟩ := r
  cases o with
  | next =>
    obtain ⟨k, hk, hrest⟩ := h
    exact ⟨k, hk.trans hmn, hrest⟩
  | br d =>
    obtain ⟨k, hk, hrest⟩ := h
    exact ⟨k, hk.trans_le hmn, hrest⟩
  | ret => exact h
  | trap => exact h

theorem simulates_nil (a : Nat) : x.Simulates labels a a [] :=
  fun n p c hpc hends hagrees hstack => ⟨_, .nil c, n, Nat.le_refl n, p, hends, hpc, hagrees, hstack⟩

/-- What does not reach the position between two parts is the same for both. -/
theorem Arrives.past {e : Nat} {r : Wasm.Outcome × Config} (h : x.Arrives labels e n r)
    (hr : r.1 ≠ .next) : x.Arrives labels b n r := by
  obtain ⟨o, c⟩ := r
  cases o with
  | next => exact absurd rfl hr
  | br d => exact h
  | ret => exact h
  | trap => exact h

theorem Simulates.append {e : Nat} (h : x.Simulates labels a e code)
    (h' : x.Simulates labels e b code') : x.Simulates labels a b (code ++ code') := by
  intro n p c hpc hends hagrees hstack
  obtain ⟨⟨o, c₁⟩, hexec, harrives⟩ := h n p c hpc hends hagrees hstack
  by_cases ho : o = .next
  · subst ho
    obtain ⟨m, hm, q, hq, hqpc, hqagrees, hqstack⟩ := harrives
    obtain ⟨r, hexec', harrives'⟩ := h' m q c₁ hqpc hq hqagrees hqstack
    exact ⟨r, hexec.append hexec', harrives'.mono hm⟩
  · exact ⟨_, hexec.append_stop ho code', harrives.past ho⟩

/-- Nothing stands behind a construct that control leaves. -/
theorem simulates_afterwards (stop : Nat) :
    x.Simulates labels stop stop (afterwards x.ctx stop) := by
  intro n p c hpc hends hagrees hstack
  have hnil : afterwards x.ctx stop = [] := by
    rw [afterwards, ← hpc, hagrees.kinds]
    rfl
  rw [hnil]
  exact simulates_nil stop n p c hpc hends hagrees hstack

/-! ## Constructs -/

theorem arity_of_gives {T : Array FuncType} {t : BlockType} {us : List Wasm.ValType}
    (h : Gives T t us) : t.arity? T = some (0, us.length) := by
  cases t with
  | empty =>
    obtain rfl := h
    rfl
  | value v =>
    obtain rfl := h
    rfl
  | func i =>
    rw [BlockType.arity?, h]
    rfl

/-- Where a construct ends, its results are all there is on its stack. -/
theorem Agrees.take_result {q : Point} {c : Config} (h : x.Agrees q c)
    (hstack : c.stack = q.frame.stack.map Value.toVal) :
    c.stack.take (x.ctx.result q.pc).length = c.stack := by
  refine List.take_of_length_le ?_
  rw [result_of_stack h.kinds, hstack, List.length_reverse, List.length_map, Frame.kinds,
    List.length_map]

theorem Arrives.leave_block {stop : Nat} {r : Wasm.Outcome × Config}
    (h : x.Arrives (.block stop :: labels) stop n r) :
    x.Arrives labels stop n (leave (x.ctx.result stop).length [] r) := by
  have hnext {m : Nat} {q : Point} {c : Config} (hm : m ≤ n) (hq : x.Ends m q) (hpc : q.pc = stop)
      (hagrees : x.Agrees q c) (hstack : c.stack = q.frame.stack.map Value.toVal) :
      x.Arrives labels stop n
        (.next, { c with stack := c.stack.take (x.ctx.result stop).length ++ [] }) := by
    subst hpc
    rw [hagrees.take_result hstack, List.append_nil]
    exact ⟨m, hm, q, hq, rfl, hagrees, hstack⟩
  obtain ⟨o, c⟩ := r
  cases o with
  | next =>
    obtain ⟨m, hm, q, hq, hpc, hagrees, hstack⟩ := h
    exact hnext hm hq hpc hagrees hstack
  | br d =>
    obtain ⟨m, hm, q, l, hq, hl, hpc, hagrees, hcarries⟩ := h
    cases d with
    | zero =>
      cases hl
      exact hnext hm.le hq hpc.symm hagrees hcarries
    | succ d => exact ⟨m, hm, q, l, hq, hl, hpc, hagrees, hcarries⟩
  | ret => exact h
  | trap => exact h

theorem Arrives.leave_loop {start stop : Nat} {ls : List UInt32} {r : Wasm.Outcome × Config}
    (h : x.Arrives (.loop start ls :: labels) stop n r) (hr : r.1 ≠ .br 0) :
    x.Arrives labels stop n (leave (x.ctx.result stop).length [] r) := by
  obtain ⟨o, c⟩ := r
  cases o with
  | next =>
    obtain ⟨m, hm, q, hq, rfl, hagrees, hstack⟩ := h
    refine ⟨m, hm, q, hq, rfl, hagrees.keeps (.refl c _), ?_⟩
    rw [hagrees.take_result hstack, List.append_nil]
    exact hstack
  | br d =>
    cases d with
    | zero => exact absurd rfl hr
    | succ d => exact h
  | ret => exact h
  | trap => exact h

/-- A run comes to position `a` with its stack in the locals `ls`. -/
structure Waits (x : Pairing) (ls : List UInt32) (a n : Nat) (p : Point) (c : Config) : Prop where
  position : p.pc = a
  ends : x.Ends n p
  agrees : x.Agrees p c
  empty : c.stack = []
  stored : Stored c.locals ls p.frame.stack.reverse

/-- The body of a construct takes the stack back from the locals. -/
theorem Simulates.body {ls : List UInt32} (h : x.Simulates labels a b code) {p : Point}
    {c : Config} (hp : x.Waits ls a n p c) :
    ∃ r, Exec x.types ((reloadCode ls).map .plain ++ code) c r ∧ x.Arrives labels b n r := by
  have hreload := run_reload hp.stored
  rw [List.reverse_reverse, hp.empty, List.append_nil] at hreload
  obtain ⟨r, hexec, harrives⟩ :=
    h n p _ hp.position hp.ends (hp.agrees.keeps (.refl c (p.frame.stack.map Value.toVal))) rfl
  exact ⟨r, (Exec.plain hreload).append hexec, harrives⟩

/-- A construct that waits for the stack in locals, behind the code that puts it there. -/
theorem simulates_construct {stack : List Kind} {ls : List UInt32} {stop : Nat} {i : Instr}
    (hstack : x.ctx.stack? a = some stack) (hls : Spilled x.locals ls stack.reverse)
    (hi : ∀ n p c, x.Waits ls a n p c → ∃ r, i.Runs x.types c r ∧ x.Arrives labels stop n r) :
    x.Simulates labels a stop ((spillCode ls).map .plain ++ i :: afterwards x.ctx stop) := by
  rw [List.append_cons]
  refine Simulates.append ?_ (simulates_afterwards stop)
  intro n p c hpc hends hagrees hc
  obtain rfl : stack = p.frame.kinds := Option.some.inj ((hpc ▸ hstack).symm.trans hagrees.kinds)
  have hlen : ls.length = p.frame.stack.length := by
    rw [hls.each.length_eq, List.length_reverse, Frame.kinds, List.length_map]
  obtain ⟨c₁, hrun, hempty, hkeeps, hstored, -⟩ :=
    run_spill hls.toHolds hagrees.size hlen (hc.trans (List.append_nil _).symm)
  obtain ⟨r, hruns, harrives⟩ := hi n p c₁ ⟨hpc, hends, hagrees.keeps hkeeps, hempty, hstored⟩
  exact ⟨r, (Exec.plain hrun).append (.single hruns), harrives⟩

theorem block_runs {stop : Nat} {t : BlockType} {body : List Instr} {c : Config}
    (ht : Gives x.types t ((x.ctx.result stop).map .ofKind)) (hc : c.stack = [])
    (h : ∃ r, Exec x.types body c r ∧ x.Arrives (.block stop :: labels) stop n r) :
    ∃ r, (Instr.block t body).Runs x.types c r ∧ x.Arrives labels stop n r := by
  obtain ⟨stack, locals, globals⟩ := c
  obtain rfl : stack = [] := hc
  obtain ⟨r, hexec, harrives⟩ := h
  have harity := arity_of_gives ht
  rw [List.length_map] at harity
  exact ⟨_, Exec.block harity hexec, harrives.leave_block⟩

/-- A branch to a loop leaves fewer steps of the run than there were. -/
theorem loop_runs {start stop : Nat} {ls : List UInt32} {t : BlockType} {inner : List Instr}
    (ht : Gives x.types t ((x.ctx.result stop).map .ofKind))
    (hinner : x.Simulates (.loop start ls :: labels) start stop inner) (n : Nat) :
    ∀ p c, x.Waits ls start n p c →
      ∃ r, (Instr.loop t ((reloadCode ls).map .plain ++ inner)).Runs x.types c r ∧
        x.Arrives labels stop n r := by
  have harity := arity_of_gives ht
  rw [List.length_map] at harity
  induction n using Nat.strongRecOn with
  | ind n ih =>
    intro p c hp
    obtain ⟨⟨o, c₁⟩, hexec, harrives⟩ := hinner.body hp
    have hempty := hp.empty
    obtain ⟨stack, locals, globals⟩ := c
    obtain rfl : stack = [] := hempty
    by_cases ho : o = .br 0
    · subst ho
      obtain ⟨m, hm, q, l, hq, hl, hpc, hagrees, hcarries⟩ := harrives
      cases hl
      have hwaits : x.Waits ls start m q { c₁ with stack := [] } :=
        ⟨hpc.symm, hq, hagrees.keeps (.refl c₁ []), rfl, hcarries⟩
      obtain ⟨r, hruns, harrives⟩ := ih m hm q _ hwaits
      exact ⟨r, Exec.again harity hexec hruns, harrives.mono hm.le⟩
    · exact ⟨_, Exec.loop harity hexec ho, harrives.leave_loop ho⟩

/-- The block of a guard is a block of one of two arms. Where it gives no values there are none to
take back, so the second arm may be left out. -/
theorem guardedInstr_runs {stop : Nat} {ls : List UInt32} {t : BlockType} {inner : List Instr}
    (hls : x.ctx.result stop = [] → ls = []) {v : BitVec 32} {c : Config} (hc : c.stack = [.i32 v])
    {r : Wasm.Outcome × Config}
    (h : (Instr.block t (if v = 0 then (reloadCode ls).map .plain else inner)).Runs x.types
      { c with stack := [] } r) : (guardedInstr x.ctx stop ls t inner).Runs x.types c r := by
  unfold guardedInstr
  split
  · next hempty =>
    rw [hls (by simpa using hempty)] at h
    exact Exec.ifThen hc h
  · exact Exec.ifElse hc h

/-- What the guard at a point does. -/
theorem Linked.guard_effect (hx : x.Linked) {stop m : Nat} {p : Point} {eff : Effect}
    (hg : Guards x.ctx.instrs p.pc stop) {i : Instruction} (hi : x.ctx.instrs[p.pc]? = some i)
    {ks : List Kind} (hks : p.frame.kinds = StackTyping.conditionOperands (x.ctx.guard p.pc) ++ ks)
    (hperforms : Machine.perform x.setting (Machine.call x.setting m x.depth) x.routine p.pc p.frame i
      p.store = eff.result) :
    eff = .goes ⟨if (x.ctx.guard p.pc).test p.frame.stack then stop else p.pc + 1,
      { p.frame with
        stack := p.frame.stack.drop (StackTyping.conditionOperands (x.ctx.guard p.pc)).length },
      p.store⟩ := by
  obtain ⟨hlead, i', hi', hcond⟩ := hg
  obtain rfl := Option.some.inj (hi'.symm.trans hi)
  obtain ⟨delta, hdelta, ht⟩ := (Region.leadsTo_iff hi).mp hlead
  obtain ⟨cond, d, hop⟩ : ∃ cond d, i'.op = .branch cond d := by
    generalize i'.op = op at hcond
    cases op with
    | branch cond d => exact ⟨cond, d, rfl⟩
    | _ => cases hcond
  have hguard : x.ctx.guard p.pc = cond := by rw [Context.guard, hi, Option.map_some, hop]
  rw [hguard] at hks ⊢
  have hon := Machine.onFrame_of_perform (by rw [hop]; rfl) hperforms
  have hs := Machine.step_branch (t := d) hks
  rw [← hop] at hs
  split at hs
  · next htest =>
    obtain ⟨k, hk, rfl⟩ := hon.jump hs
    rw [hop] at hdelta
    obtain rfl := List.mem_singleton.mp hdelta
    rw [hx.offsets, OffsetTable.find?_ofInstructions hx.checked.ascending] at hk
    obtain rfl := hk.unique hx.checked.ascending ht
    rw [if_pos htest]
  · next htest =>
    rw [if_neg htest]
    exact hon.next hs

theorem simulates_guarded (hx : x.Linked) {start stop : Nat} {stack : List Kind} {ls : List UInt32}
    {ps : List Plain} {t : BlockType} {inner : List Instr} (hg : Guards x.ctx.instrs start stop)
    (hstack : x.ctx.stack? start = some stack)
    (hls : Spilled x.locals ls (stack.drop (guardOperands (x.ctx.guard start))).reverse)
    (hps : GuardCode x.locals (stack.drop (guardOperands (x.ctx.guard start))).reverse ls ps)
    (ht : Gives x.types t ((x.ctx.result stop).map .ofKind))
    (hinner : x.Simulates (.block stop :: labels) (start + 1) stop inner) :
    x.Simulates labels start stop
      ((condition (negateCondition (x.ctx.guard start)) ++ ps).map .plain ++
        guardedInstr x.ctx stop ls t ((reloadCode ls).map .plain ++ inner) ::
          afterwards x.ctx stop) := by
  obtain ⟨out, hout, hnext, hstop⟩ := hx.checked.guarded hg hstack
  have hdrop : stack.drop (guardOperands (x.ctx.guard start)) = out := by
    rw [hout]
    exact List.drop_left
  rw [hdrop] at hls hps
  rw [List.append_cons]
  refine Simulates.append ?_ (simulates_afterwards stop)
  intro n p c hpc hends hagrees hc
  subst hpc
  obtain rfl := Option.some.inj (hstack.symm.trans hagrees.kinds)
  obtain ⟨m, i, eff, rfl, hi, hperforms, hcontinues⟩ := hends.cases
  rw [hx.instrs] at hi
  have heff := hx.guard_effect hg hi hout hperforms
  have hrest : (p.frame.stack.drop
      (StackTyping.conditionOperands (x.ctx.guard p.pc)).length).map Value.kind = out := by
    rw [List.map_drop]
    exact (congrArg _ hout).trans List.drop_left
  obtain ⟨v, c₁, hrun, hflag, hv, hstored, hkeeps⟩ :=
    run_guard hx.locals hout hls hps hagrees.size hc rfl
  generalize p.frame.stack.drop (StackTyping.conditionOperands (x.ctx.guard p.pc)).length = vs
    at heff hrest hstored
  subst heff
  have hleads : p.Leads x.setting x.routine _ := ⟨i, m, x.depth, hx.instrs ▸ hi, hperforms⟩
  -- Both arms start with the rest of the stack in locals; only the second one ends there.
  have harm : ∃ r, Exec x.types (if v = 0 then (reloadCode ls).map .plain
      else (reloadCode ls).map .plain ++ inner) { c₁ with stack := [] } r ∧
        x.Arrives (.block stop :: labels) stop (m + 1) r := by
    by_cases htest : (x.ctx.guard p.pc).test p.frame.stack = true
    · rw [if_pos htest] at hcontinues hleads
      have hagrees' := hagrees.leads hleads (hrest ▸ hstop)
      have hreload := run_reload (c := { c₁ with stack := [] }) hstored
      rw [List.reverse_reverse, List.append_nil] at hreload
      rw [if_pos (hv.mpr htest)]
      exact ⟨_, Exec.plain hreload, m, Nat.le_succ m, _, hcontinues, rfl,
        (hagrees'.keeps hkeeps).keeps (.refl c₁ _), rfl⟩
    · rw [if_neg htest] at hcontinues hleads
      have hagrees' := hagrees.leads hleads (hrest ▸ hnext)
      rw [if_neg fun h => htest (hv.mp h)]
      obtain ⟨r, hexec, harrives⟩ := hinner.body
        ⟨rfl, hcontinues, (hagrees'.keeps hkeeps).keeps (.refl c₁ []), rfl, hstored⟩
      exact ⟨r, hexec, harrives.mono (Nat.le_succ m)⟩
  obtain ⟨r, hblock, harrives⟩ := block_runs ht rfl harm
  have hnone : x.ctx.result stop = [] → ls = [] := by
    intro hempty
    rw [result_of_stack hstop, List.reverse_eq_nil_iff] at hempty
    subst hempty
    exact List.eq_nil_of_length_eq_zero hls.each.length_eq
  exact ⟨r, (Exec.plain hrun).append (.single (guardedInstr_runs hnone hflag hblock)), harrives⟩

end Pairing

open Pairing

/-- Code of nodes does the part of a run that lies between their positions. -/
theorem Compiles.simulates {x : Pairing} (hx : x.Linked) {labels : List Label} {ns : List Node}
    {code : List Instr} (h : Compiles x.ctx x.locals x.types labels ns code) {ms : List Mark}
    {a b : Nat} (hst : Structured x.ctx.instrs ms a b ns) (hready : ∀ l ∈ labels, x.Ready l) :
    x.Simulates labels a b code := by
  induction h generalizing ms a b with
  | nil =>
    cases hst
    exact simulates_nil a
  | skip hn =>
    obtain ⟨hstart, -⟩ := hst.tail
    intro n p c hpc hends hagrees
    have hkinds := hagrees.kinds
    rw [hpc, ← hstart, hn] at hkinds
    cases hkinds
  | op hi hk hops _ ih =>
    cases hst with
    | op _ hrest => exact (opCode_simulates hx hready hi hk hops).append (ih hrest hready)
  | @loop labels start stop stack ls t body ns inner code hstack hls ht _ _ ihb ih =>
    cases hst with
    | loop _ hbody hrest =>
      have hready' : ∀ l ∈ .loop start ls :: labels, x.Ready l := by
        intro l hl
        rcases List.mem_cons.mp hl with rfl | hl
        · exact ⟨stack, hstack, hls⟩
        · exact hready l hl
      exact (simulates_construct hstack hls
        (loop_runs ht (ihb hbody hready'))).append (ih hrest hready)
  | @block labels start stop kind stack ls t body ns inner code hkind hstack hls ht _ _ ihb ih =>
    cases hst with
    | guarded => exact absurd rfl hkind
    | block _ _ hbody hrest =>
      have hready' : ∀ l ∈ .block stop :: labels, x.Ready l :=
        List.forall_mem_cons.mpr ⟨trivial, hready⟩
      refine (simulates_construct hstack hls fun n p c hp => ?_).append (ih hrest hready)
      exact block_runs ht hp.empty ((ihb hbody hready').body hp)
  | @guarded labels start stop stack ls ps t body ns inner code hstack hls hps ht _ _ ihb ih =>
    cases hst with
    | block hkind => exact absurd rfl hkind
    | guarded hg _ hbody hrest =>
      have hready' : ∀ l ∈ .block stop :: labels, x.Ready l :=
        List.forall_mem_cons.mpr ⟨trivial, hready⟩
      exact (simulates_guarded hx hg hstack hls hps ht (ihb hbody hready')).append
        (ih hrest hready)

end ClassWasm.Lowering
