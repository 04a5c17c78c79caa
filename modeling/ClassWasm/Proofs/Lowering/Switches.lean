/-
  Where switches go. A run of a switch takes the first case of its key, and so does the code of the
  switch when it compares with one key after the other. A table is filled in the order of the
  cases, so that the last one counts (`lookup_transfers`). Where no key is listed twice this is the
  same case, and the code goes where a run of the switch goes (`switch_dispatches`). Otherwise it
  depends on the widest range for a table (`spans_agree`, `spans_disagree`).
-/
import ClassWasm.Proofs.Lowering.Progress
import ClassWasm.Proofs.Lowering.Refinement

namespace ClassWasm

/-- The keys that a switch lists, in the order of the code. -/
def Operation.keys : Operation → List Int32
  | lookupSwitch _ cases => cases.map Prod.fst
  | _ => []

namespace Lowering

open Wasm (Plain Instr Val Config FuncType Exec runPlain)

/-- With `key` on top of the stack, the code takes it off and branches to the construct that serves
the target `t` of the instruction `i` at position `k`. -/
def Transfers (ctx : Context) (labels : List Label) (k : Nat) (i : Instruction) (L : Locals)
    (T : Array FuncType) (code : List Instr) (key t : Int32) : Prop :=
  ∃ d l, depth ctx labels k i t = .ok (d, l) ∧
    ∀ (c : Config) rest, c.locals.length = L.types.size → c.stack = (Value.int key).toVal :: rest →
      ∃ c', Exec T code c (.br d.toNat, c') ∧ c'.stack = rest ∧ Keeps L c c'

/-- A switch over these keys becomes the table from `low` up to `high`. -/
def Tabulates (maxSpan : Int) (keys : List Int32) (low high : Int32) : Prop :=
  ∃ k ks, keys = k :: ks ∧ low = ks.foldl min k ∧ high = ks.foldl max k ∧
    high.toInt - low.toInt + 1 ≤ maxSpan

/-- The distance of a key from the least one does not wrap around, and lies in the table. -/
theorem Tabulates.within {maxSpan : Int} {keys : List Int32} {low high : Int32}
    (h : Tabulates maxSpan keys low high) (hspan : maxSpan ≤ 2 ^ 31) {key : Int32}
    (hkey : key ∈ keys) : (key - low).toInt = key.toInt - low.toInt ∧ 0 ≤ (key - low).toInt ∧
      (key - low).toInt < high.toInt - low.toInt + 1 := by
  obtain ⟨k, ks, rfl, rfl, rfl, hfits⟩ := h
  have hlow := foldl_min_le k ks key hkey
  have hhigh := le_foldl_max k ks key hkey
  have hsub : (key - ks.foldl min k).toInt = key.toInt - (ks.foldl min k).toInt := by
    rw [Int32.toInt_sub]
    exact Int.bmod_eq_of_le (by omega) (by omega)
  omega

/-- Where no key is listed twice, the first case of a key is the last one. -/
theorem lookup_reverse {α : Type} {cases : List (Int32 × α)} (h : (cases.map Prod.fst).Nodup)
    (key : Int32) : cases.lookup key = cases.reverse.lookup key := by
  induction cases with
  | nil => rfl
  | cons e cases ih =>
    obtain ⟨k, t⟩ := e
    obtain ⟨hnot, hnodup⟩ : k ∉ cases.map Prod.fst ∧ (cases.map Prod.fst).Nodup :=
      List.nodup_cons.mp h
    rw [List.reverse_cons, List.lookup_append, ← ih hnodup, List.lookup_cons]
    by_cases hk : key = k
    · have hnone : cases.lookup key = none := by
        rw [List.lookup_eq_none_iff]
        intro e he
        have hne : key ≠ e.1 := fun heq => hnot (hk ▸ heq ▸ List.mem_map_of_mem he)
        simpa using hne
      simp [hk, hk ▸ hnone]
    · have hother : List.lookup key [(k, t)] = none := by simp [hk]
      rw [beq_eq_false_iff_ne.mpr hk, hother, Option.or_none]

/-! ## Code of one switch -/

section

variable {ctx : Context} {labels : List Label} {k : Nat} {i : Instruction}
  (htargets : ∀ t ∈ i.op.branches, ∃ d, depth ctx labels k i t = .ok d) (stack : List Kind)

include htargets

theorem succeeds_operation_of_switch (hswitch : i.op.isSwitch = true)
    (hfits : ¬Overflows ctx.maxSpan i.op) : Succeeds (operation ctx labels k i stack) := by
  intro s
  have hsettles := switch_settles hswitch htargets stack s
  split at hsettles
  · next a s' hrun => exact ⟨a, s', hrun⟩
  · exact absurd hfits hsettles.1

variable {s : State} (hs : s.locals.Sound)

include hs

/-- A switch over a range goes where a run of it does, as long as the range ends within 32 bits. -/
theorem range_transfers {default low : Int32} {ts : List Int32}
    (hop : i.op = .tableSwitch default low ts) (hwf : i.op.WellFormed) :
    Lowers ctx labels k i stack s fun L T code => ∀ key,
      Transfers ctx labels k i L T code key (Machine.tableTarget default low ts key) := by
  rw [hop] at hwf
  refine ((succeeds_operation_of_switch htargets stack (by rw [hop]; rfl)
    (by rw [hop]; exact id)).lowers (emits_rangeSwitch (emits_depth ctx labels k i) default low ts)
    (by unfold operation branching; rw [hop]) hs).mono ?_
  rintro L T code ⟨-, ds, d, hds, hd, rfl⟩ key
  obtain ⟨l, hl⟩ := tableTarget_rel (R := fun t d => ∃ l, depth ctx labels k i t = .ok (d, l)) hwf
    (by rw [List.forall₂_map_right_iff]; exact hds.imp fun t dl h => ⟨dl.2, h⟩) ⟨d.2, hd⟩ key
  refine ⟨_, l, hl, fun c rest _ hc => ⟨_, .plain (run_table low key _ d.1 ?_), rfl, .refl c rest⟩⟩
  rw [hc, Value.toVal_int]

/-- A switch over listed keys goes where `spanTarget` says, for every widest range `m` of a table
that does not make this one too long. -/
theorem lookup_transfers {m : Int} {default : Int32} {cases : List (Int32 × Int32)}
    (hop : i.op = .lookupSwitch default cases) (hfits : ¬Overflows m i.op) :
    Lowers { ctx with maxSpan := m } labels k i stack s fun L T code => ∀ key,
      Transfers ctx labels k i L T code key (spanTarget m default cases key) := by
  have hdepths : ∀ t ∈ i.op.branches, ∃ d, depth { ctx with maxSpan := m } labels k i t = .ok d :=
    htargets
  refine ((succeeds_operation_of_switch hdepths stack (by rw [hop]; rfl) hfits).lowers
    (emits_caseSwitch (emits_depth ctx labels k i) m default cases)
    (by unfold operation branching; rw [hop]; rfl) hs).mono ?_
  rintro L T code ⟨hL, ds, d, hds, hd, ps, rfl, hps⟩ key
  rw [hop] at htargets
  obtain ⟨⟨d', l⟩, hdepth⟩ := htargets _ (spanTarget_mem m default cases key)
  refine ⟨d', l, hdepth, fun c rest hsize hc => ?_⟩
  rw [Value.toVal_int] at hc
  obtain ⟨d'', c', hrun, ⟨l', hl'⟩, hstack, hkeeps⟩ := run_spanTarget hL
    (R := fun t d => ∃ l, depth ctx labels k i t = .ok (d, l)) hps
    (by rw [List.forall₂_map_right_iff]; exact hds.imp fun c dl h => ⟨dl.2, h⟩) ⟨d.2, hd⟩ hsize hc
  obtain ⟨rfl, rfl⟩ := Prod.mk.inj (Except.ok.inj (hl'.symm.trans hdepth))
  exact ⟨c', .plain hrun, hstack, hkeeps⟩

end

/-! ## Any switch -/

/-- The code of a decoded switch that lists no key twice takes the key off the stack and branches to
the construct that serves the target of a run, for every key. In the table for close keys every key
has a place, which is found without wrapping around. -/
theorem switch_dispatches {pool : Pool} {bytes : Bytes} {instrs : Array Instruction}
    (hd : decode pool bytes = .ok instrs) {i : Instruction} (hi : i ∈ instrs)
    (hswitch : i.op.isSwitch = true) (hkeys : i.op.keys.Nodup) {ctx : Context}
    (hspan : ctx.maxSpan ≤ 2 ^ 31) {labels : List Label} {k : Nat}
    (htargets : ∀ t ∈ i.op.branches, ∃ d, depth ctx labels k i t = .ok d) (stack : List Kind)
    {s : State} (hs : s.locals.Sound) :
    (Lowers ctx labels k i stack s fun L T code => ∀ key, ∃ t,
      (∀ f vs, f.stack = .int key :: vs →
        Machine.step i.op f = .ok (.jump t) { f with stack := vs }) ∧
      Transfers ctx labels k i L T code key t) ∧
    ∀ low high, Tabulates ctx.maxSpan i.op.keys low high → ∀ key ∈ i.op.keys, ∀ default cases,
      (key - low).toInt = key.toInt - low.toInt ∧ 0 ≤ (key - low).toInt ∧
        (key - low).toInt.toNat <
          (denseTable low (high.toInt - low.toInt + 1).toNat default cases).length := by
  have hwf : i.op.WellFormed := ((decode_tiles hd).bounds (Array.mem_toList_iff.mpr hi)).2.1
  constructor
  · cases hop : i.op with
    | tableSwitch default low ts =>
      refine (range_transfers htargets stack hs hop hwf).mono fun L T code h key => ?_
      exact ⟨_, fun f vs hf => Machine.step_tableSwitch hf, h key⟩
    | lookupSwitch default cases =>
      refine (lookup_transfers htargets stack hs hop (not_overflows hspan _)).mono fun L T code h key =>
        ⟨_, ?_, h key⟩
      rw [hop] at hkeys
      rw [spanTarget_eq fun _ => lookup_reverse hkeys key]
      exact fun f vs hf => Machine.step_lookupSwitch hf
    | _ =>
      rw [hop] at hswitch
      cases hswitch
  · intro low high htable key hkey default cases
    obtain ⟨hsub, hpos, hlt⟩ := htable.within hspan hkey
    refine ⟨hsub, hpos, ?_⟩
    rw [length_denseTable]
    omega

/-- Two keys next to the least number, the greater one first. -/
def limitsCode : Bytes :=
  [0x1a, 0xab, 0, 0, 0, 0, 0, 31, 0, 0, 0, 2, 0x80, 0, 0, 1, 0, 0, 0, 27, 0x80, 0, 0, 0, 0, 0, 0, 29,
    0x04, 0xac, 0x05, 0xac, 0x03, 0xac]

def limitsSwitch : Instruction :=
  ⟨1, 27, 0xab, false, .lookupSwitch 31 [(-2147483647, 27), (-2147483648, 29)]⟩

def limitsInstrs : Array Instruction :=
  #[⟨0, 1, 0x1a, false, .load .int 0⟩, limitsSwitch,
    ⟨28, 1, 0x04, false, .const (.int 1)⟩, ⟨29, 1, 0xac, false, .ret .int⟩,
    ⟨30, 1, 0x05, false, .const (.int 2)⟩, ⟨31, 1, 0xac, false, .ret .int⟩,
    ⟨32, 1, 0x03, false, .const (.int 0)⟩, ⟨33, 1, 0xac, false, .ret .int⟩]

set_option maxRecDepth 2000 in
theorem decode_limitsCode : decode ⟨#[]⟩ limitsCode = .ok limitsInstrs := by
  rfl

def limitsLabels : List Label := [.block 2, .block 4, .block 6]

def limitsContext : Context := .of intFields 0 limitsInstrs #[]

/-- The state in which a method with one `int` begins. -/
def intStart : State := ⟨.ofParams [.int], #[], [], false⟩

theorem sound_intStart : intStart.locals.Sound := (Locals.ofParams_spec [.int]).1

def limitsTable : List Instr :=
  [.plain (.i32Const (-2147483648)), .plain (.intBinary .w32 .sub), .plain (.brTable [1, 0] 2)]

theorem switch_dispatches_limits :
    operation limitsContext limitsLabels 1 limitsSwitch [.int] intStart =
        .ok () { intStart with done := limitsTable.reverse, dead := true } ∧
      Machine.step limitsSwitch.op ⟨#[], [.int (-2147483648)], 1⟩ = .ok (.jump 29) ⟨#[], [], 1⟩ ∧
      Transfers limitsContext limitsLabels 1 limitsSwitch (.ofParams [.int]) #[] limitsTable
        (-2147483648) 29 := by
  have htargets : ∀ t ∈ limitsSwitch.op.branches,
      ∃ d, depth limitsContext limitsLabels 1 limitsSwitch t = .ok d := by
    intro t ht
    have ht : t = 31 ∨ t = 27 ∨ t = 29 := by simpa [limitsSwitch, Operation.branches] using ht
    rcases ht with rfl | rfl | rfl <;> exact ⟨_, rfl⟩
  have hlowered : operation limitsContext limitsLabels 1 limitsSwitch [.int] intStart =
      .ok () { intStart with done := limitsTable.reverse, dead := true } := rfl
  have hjump : Machine.step limitsSwitch.op ⟨#[], [.int (-2147483648)], 1⟩ =
      .ok (.jump 29) ⟨#[], [], 1⟩ := rfl
  have hspan : limitsContext.maxSpan ≤ 2 ^ 31 := by decide
  obtain ⟨⟨s', code, hrun, hdone, hcode⟩, -⟩ := switch_dispatches decode_limitsCode
    (i := limitsSwitch) (by simp [limitsInstrs]) rfl (by decide) hspan htargets [.int] sound_intStart
  cases hlowered.symm.trans hrun
  obtain rfl : code = limitsTable := by
    rw [← List.reverse_inj, ← List.append_nil code.reverse]
    exact hdone.symm
  obtain ⟨t, hstep, htransfers⟩ := hcode _ _
    ⟨sound_intStart, .refl _, fun _ _ h => h, by decide, by decide⟩ (-2147483648)
  cases hjump.symm.trans (hstep ⟨#[], [.int (-2147483648)], 1⟩ [] rfl)
  exact ⟨hlowered, hjump, htransfers⟩

/-! ## The widest range for a table -/

/-- A switch over listed keys is lowered with every widest range for a table that does not make its
table too long for an index, as none up to 2^31 does. With two such ranges the code goes to the
same target for a key exactly if both or none of them makes a table, or if the first and the last
case of the key lead to one place. -/
theorem spans_agree {ctx : Context} {labels : List Label} {k : Nat} {i : Instruction}
    {default : Int32} {cases : List (Int32 × Int32)} (hop : i.op = .lookupSwitch default cases)
    (htargets : ∀ t ∈ i.op.branches, ∃ d, depth ctx labels k i t = .ok d) (stack : List Kind)
    {s : State} (hs : s.locals.Sound) (m m' : Int) :
    (¬Overflows m i.op → Lowers { ctx with maxSpan := m } labels k i stack s fun L T code => ∀ key,
      Transfers ctx labels k i L T code key (spanTarget m default cases key)) ∧
    (¬Overflows m' i.op →
      Lowers { ctx with maxSpan := m' } labels k i stack s fun L T code => ∀ key,
        Transfers ctx labels k i L T code key (spanTarget m' default cases key)) ∧
    (∀ n ≤ 2 ^ 31, ¬Overflows n i.op) ∧
    ∀ key, spanTarget m default cases key = spanTarget m' default cases key ↔
      (Dense m cases ↔ Dense m' cases) ∨ Machine.lookupTarget default cases key =
        Machine.lookupTarget default cases.reverse key := by
  refine ⟨lookup_transfers htargets stack hs hop, lookup_transfers htargets stack hs hop,
    fun n hn => not_overflows hn i.op, fun key => ?_⟩
  unfold spanTarget
  by_cases hm : Dense m cases <;> by_cases hm' : Dense m' cases
  · simp [hm, hm']
  · simp only [hm, hm', if_true, if_false, iff_false, not_true_eq_false, false_or]
    exact eq_comm
  · simp only [hm, hm', if_true, if_false, false_iff, not_true_eq_false, false_or]
    rfl
  · simp [hm, hm']

/-- Three cases, the first two of them for the key 1. -/
def repeatedCode : Bytes :=
  [0x1a, 0xab, 0, 0, 0, 0, 0, 39, 0, 0, 0, 3, 0, 0, 0, 1, 0, 0, 0, 35, 0, 0, 0, 1, 0, 0, 0, 37,
    0, 0, 0, 2, 0, 0, 0, 35, 0x04, 0xac, 0x05, 0xac, 0x03, 0xac]

def repeatedSwitch : Instruction :=
  ⟨1, 35, 0xab, false, .lookupSwitch 39 [(1, 35), (1, 37), (2, 35)]⟩

def repeatedInstrs : Array Instruction :=
  #[⟨0, 1, 0x1a, false, .load .int 0⟩, repeatedSwitch,
    ⟨36, 1, 0x04, false, .const (.int 1)⟩, ⟨37, 1, 0xac, false, .ret .int⟩,
    ⟨38, 1, 0x05, false, .const (.int 2)⟩, ⟨39, 1, 0xac, false, .ret .int⟩,
    ⟨40, 1, 0x03, false, .const (.int 0)⟩, ⟨41, 1, 0xac, false, .ret .int⟩]

set_option maxRecDepth 2000 in
theorem decode_repeatedCode : decode ⟨#[]⟩ repeatedCode = .ok repeatedInstrs := by
  rfl

/-- Two cases that lead to one place get a block each. -/
def repeatedTree : List Node :=
  [.op 0, .block 1 6 .wrapper [.block 1 4 .wrapper [.block 1 2 .wrapper [.block 1 2 .wrapper [.op 1]],
    .op 2, .op 3], .op 4, .op 5], .op 6, .op 7]

theorem structureOf_repeatedInstrs : structureOf repeatedInstrs = .ok repeatedTree :=
  structureOf_of_repaired
    #[⟨1, 6, .wrapper 0⟩, ⟨1, 2, .wrapper 0⟩, ⟨1, 4, .wrapper 0⟩, ⟨1, 2, .wrapper 0⟩]
    [⟨1, 6, .wrapper 0⟩, ⟨1, 4, .wrapper 0⟩, ⟨1, 2, .wrapper 0⟩, ⟨1, 2, .wrapper 0⟩]
    rfl (by simp [List.mergeSort, Region.precedes, Region.demote]) rfl

def repeatedMethod : Method := ⟨⟨0x0008⟩, "f", "(I)I", [.code ⟨1, 1, repeatedCode, [], []⟩]⟩

def repeatedContext : Context := .of intFields 0 repeatedInstrs #[]

/-- The key 2, which is listed once, leads to the same place with and without a table. -/
theorem spans_agree_repeated :
    (Lowers { repeatedContext with maxSpan := 1 } limitsLabels 1 repeatedSwitch [.int] intStart
      fun L T code => Transfers repeatedContext limitsLabels 1 repeatedSwitch L T code 2 35) ∧
    Lowers { repeatedContext with maxSpan := 4096 } limitsLabels 1 repeatedSwitch [.int] intStart
      fun L T code => Transfers repeatedContext limitsLabels 1 repeatedSwitch L T code 2 35 := by
  have htargets : ∀ t ∈ repeatedSwitch.op.branches,
      ∃ d, depth repeatedContext limitsLabels 1 repeatedSwitch t = .ok d := by
    intro t ht
    have ht : t = 39 ∨ t = 35 ∨ t = 37 ∨ t = 35 := by
      simpa [repeatedSwitch, Operation.branches] using ht
    rcases ht with rfl | rfl | rfl | rfl <;> exact ⟨_, rfl⟩
  have htarget (m : Int) : spanTarget m 39 [(1, 35), (1, 37), (2, 35)] 2 = 35 :=
    spanTarget_eq (fun _ => rfl) 39
  obtain ⟨hchain, htable, hfits, -⟩ :=
    spans_agree (i := repeatedSwitch) rfl htargets [.int] sound_intStart 1 4096
  exact ⟨(hchain (hfits 1 (by decide))).mono fun L T code h => htarget 1 ▸ h 2,
    (htable (hfits 4096 (by decide))).mono fun L T code h => htarget 4096 ▸ h 2⟩

/-- The function that the method becomes with this code for its switch. -/
def repeatedFunction (declared : UInt32) (dispatch : List Plain) : Function where
  locals := [⟨declared, .i32⟩]
  body :=
    [.plain (.localGet 0), .plain (.localSet 1),
      .block .empty
        [.plain (.localGet 1), .plain (.localSet 2),
          .block .empty
            [.plain (.localGet 2), .plain (.localSet 3),
              .block .empty
                [.plain (.localGet 3), .plain (.localSet 4),
                  .block .empty (.plain (.localGet 4) :: dispatch.map .plain)],
              .plain (.i32Const 1), .plain .ret],
          .plain (.i32Const 2), .plain .ret],
      .plain (.i32Const 0), .plain .ret]

def repeatedChain : List Plain := comparisonChain 5 3 [(1, 0), (1, 2), (2, 0)]

def repeatedTable : List Plain := [.i32Const 1, .intBinary .w32 .sub, .brTable [2, 0] 3]

/-- Whether a switch that lists a key twice becomes a table decides what the method returns. -/
theorem spans_disagree :
    decode ⟨#[]⟩ repeatedCode = .ok repeatedInstrs ∧
      structureOf repeatedInstrs = .ok repeatedTree ∧
      lower intFields 1 repeatedMethod repeatedInstrs repeatedTree #[] =
        (.ok (repeatedFunction 5 repeatedChain), #[]) ∧
      lower intFields 4096 repeatedMethod repeatedInstrs repeatedTree #[] =
        (.ok (repeatedFunction 4 repeatedTable), #[]) ∧
      Wasm.Invokes #[] ⟨[.i32], [.i32]⟩ [.i32, .i32, .i32, .i32, .i32]
        (repeatedFunction 5 repeatedChain).body [.i32 1] [] (.returned [.i32 1] []) ∧
      Wasm.Invokes #[] ⟨[.i32], [.i32]⟩ [.i32, .i32, .i32, .i32]
        (repeatedFunction 4 repeatedTable).body [.i32 1] [] (.returned [.i32 2] []) := by
  refine ⟨decode_repeatedCode, structureOf_repeatedInstrs, by cbv, by cbv, ?_, ?_⟩
  · exact ⟨(.ret, ⟨[.i32 1], List.replicate 6 (.i32 1), []⟩), ⟨20, rfl⟩, rfl⟩
  · exact ⟨(.ret, ⟨[.i32 2], List.replicate 5 (.i32 1), []⟩), ⟨20, rfl⟩, rfl⟩

end Lowering

end ClassWasm
