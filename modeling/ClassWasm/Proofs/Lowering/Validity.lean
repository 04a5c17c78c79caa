/-
  Lowered code is valid. Where control reaches a position, the operand stack of the innermost
  construct has the types of the stack that was found for it; where it does not, the code before it
  ends in a branch, a return or a trap and any stack will do. So the code of a part of a tree leads
  from some stack that fits its first position (`Fits`) to every stack that fits the position behind
  it (`Compiles.valid`), and `lower_valid` follows for whole methods.
-/
import Mathlib
import ClassWasm.Proofs.Lowering.StraightTypes

namespace ClassWasm.Lowering

open Wasm (Plain Instr BlockType FuncType ValType GlobalType Env runTypes takeTypes runTypes_append
  runTypes_valid after?_of_type)
open Wasm.Instr (AllValid)

/-- Fields stand for mutable globals of their type, and methods for functions of theirs. -/
structure Resolver.Typed (r : Resolver) (globals : List GlobalType) (functions : List FuncType) :
    Prop where
  global : ∀ ref g t, r.global ref = some g → Descriptor.parseField ref.descriptor = .ok t →
    globals[g.toNat]? = some ⟨.ofKind t.kind, true⟩
  function : ∀ ref f m, r.function ref = some f → Descriptor.parseMethod ref.descriptor = .ok m →
    functions[f.toNat]? = some (.ofMethodType m)

/-- No switch over sparse keys becomes a table of more entries than 32 bits can count. -/
def TablesFit (maxSpan : Int) (instrs : Array Instruction) : Prop :=
  ∀ i ∈ instrs, ∀ default cases, i.op = .lookupSwitch default cases →
    ∀ a ∈ cases, ∀ b ∈ cases, b.1.toInt - a.1.toInt < maxSpan → b.1.toInt - a.1.toInt < 2 ^ 32 - 1

/-- What a branch to a construct takes along. A loop has its values in locals. -/
def Label.types (ctx : Context) : Label → List ValType
  | loop .. => []
  | block stop => typesOf (ctx.result stop)

/-- The environment of code inside the constructs `labels`. -/
structure Suits (env : Env) (ctx : Context) (ret : Kind) (L : Locals) (T : Array FuncType)
    (labels : List Label) : Prop where
  types : env.types = T
  locals : env.locals = L.types.toList
  around : env.labels = labels.map (Label.types ctx) ++ [env.results]
  results : env.results = resultTypes ret
  resolver : ctx.resolver.Typed env.globals env.functions
  loops : ∀ start ls, Label.loop start ls ∈ labels →
    ∃ stack, ctx.stack? start = some stack ∧ Holds L ls stack.reverse

theorem Suits.inside {env : Env} {ctx : Context} {ret : Kind} {L : Locals} {T : Array FuncType}
    {labels : List Label} (h : Suits env ctx ret L T labels) (l : Label)
    (hl : ∀ start ls, l = .loop start ls →
      ∃ stack, ctx.stack? start = some stack ∧ Holds L ls stack.reverse) :
    Suits (env.inside (l.types ctx)) ctx ret L T (l :: labels) := by
  refine ⟨h.types, h.locals, ?_, h.results, h.resolver, fun start ls hm => ?_⟩
  · change l.types ctx :: env.labels = _
    rw [h.around]
    rfl
  · rcases List.mem_cons.mp hm with hm | hm
    · exact hl start ls hm.symm
    · exact h.loops start ls hm

section

variable {env : Env} {ctx : Context} {ret : Kind} {L : Locals} {T : Array FuncType}
  {labels : List Label} (hs : Suits env ctx ret L T labels)

/-! ## Branches -/

theorem result_of_stack {stop : Nat} {stack : List Kind} (h : ctx.stack? stop = some stack) :
    ctx.result stop = stack.reverse := by
  rw [Context.result, h]
  rfl

include hs

theorem label_types {k t : Nat} {i : Instruction} {delta : Int32} {d : UInt32} {l : Label}
    (h : Aims ctx labels k i delta d l) (ht : StartsAt ctx.instrs t (i.absolute delta)) :
    env.labels[d.toNat]? = some (l.types ctx) := by
  have hl := (h t ht).1
  have hlt := (List.getElem?_eq_some_iff.mp hl).1
  rw [hs.around, List.getElem?_append_left (by simpa using hlt), List.getElem?_map, hl]
  rfl

/-- Before a branch the stack is brought to what the branch takes along. -/
theorem runTypes_spilled {k t : Nat} {l : Label} {out : List Kind} (hl : l ∈ labels)
    (hserves : l.serves k t = true) (ht : ctx.stack? t = some out) :
    runTypes env (spillCode l.spilled) (typesOf out) = some (l.types ctx).reverse := by
  cases l with
  | loop start ls =>
    simp only [Label.serves, Bool.and_eq_true, decide_eq_true_eq] at hserves
    obtain ⟨stack, hstack, hls⟩ := hs.loops start ls hl
    rw [hserves.2, ht] at hstack
    cases hstack
    have hspill := runTypes_spill hs.locals hls []
    rw [typesOf_reverse, List.reverse_reverse, List.append_nil] at hspill
    exact hspill
  | block stop =>
    simp only [Label.serves, Bool.and_eq_true, decide_eq_true_eq] at hserves
    rw [Label.types, hserves.2, result_of_stack ht, typesOf_reverse, List.reverse_reverse]
    rfl

omit hs in
theorem after?_brIf {d : UInt32} {ts : List ValType} (h : env.labels[d.toNat]? = some ts) :
    (Plain.brIf d).after? env (.i32 :: ts.reverse) = some ts.reverse := by
  have htype : (Plain.brIf d).type? env = some ⟨ts ++ [.i32], ts⟩ := by
    rw [Plain.type?, h]
    rfl
  simpa using after?_of_type _ _ htype []

omit hs in
theorem valid_br {d : UInt32} {ts : List ValType} (h : env.labels[d.toNat]? = some ts)
    (ps : List Plain) {stack : List ValType} (hps : runTypes env ps stack = some ts.reverse)
    (us : List ValType) : AllValid env ((ps ++ [Plain.br d]).map .plain) stack.reverse us := by
  have hbr : AllValid env [.plain (.br d)] ts us := by
    have hv : Instr.Valid env (.plain (.br d)) ([] ++ ts) us := .plain (Plain.Valid.br [] us h)
    simpa using AllValid.single [] hv
  rw [List.map_append]
  have hbefore := runTypes_valid hps
  rw [List.reverse_reverse] at hbefore
  exact hbefore.append hbr

omit hs in
theorem valid_brTable (ts : List ValType) {ds : List UInt32} {d : UInt32} (hlen : ds.length < 2 ^ 32)
    (h : ∀ d' ∈ d :: ds, env.labels[d'.toNat]? = some ts) {ps : List Plain} {stack : List ValType}
    (hps : runTypes env ps stack = some (.i32 :: ts.reverse)) (us : List ValType) :
    AllValid env ((ps ++ [Plain.brTable ds d]).map .plain) stack.reverse us := by
  have hbr : AllValid env [.plain (.brTable ds d)] (ts ++ [.i32]) us := by
    have hv : Instr.Valid env (.plain (.brTable ds d)) ([] ++ ts ++ [.i32]) us :=
      .plain (Plain.Valid.brTable [] us hlen h)
    simpa using AllValid.single [] hv
  rw [List.map_append]
  have hbefore := runTypes_valid hps
  rw [List.reverse_cons, List.reverse_reverse] at hbefore
  exact hbefore.append hbr

theorem runTypes_branch (hL : L.Sound) {c : Condition} {k t : Nat} {i : Instruction}
    {delta : Int32} {d : UInt32} {l : Label} {ps : List Plain} {out : List Kind}
    (haims : Aims ctx labels k i delta d l) (hstart : StartsAt ctx.instrs t (i.absolute delta))
    (ht : ctx.stack? t = some out) (hps : BranchCode L c d l ps) :
    runTypes env ps (typesOf (StackTyping.conditionOperands c ++ out)) = some (typesOf out) := by
  obtain ⟨hl, hserves⟩ := haims t hstart
  have hspilled := runTypes_spilled hs (List.mem_of_getElem? hl) hserves ht
  have hbr := after?_brIf (label_types hs haims hstart)
  unfold BranchCode at hps
  split at hps
  · next hnil =>
    obtain rfl := hps
    rw [hnil] at hspilled
    have hout : typesOf out = (l.types ctx).reverse := Option.some.inj hspilled
    rw [runTypes_append, runTypes_condition, Option.bind_some, hout, runTypes, hbr]
    rfl
  · next hne =>
    obtain ⟨flag, hflag, rfl⟩ := hps
    -- Only a loop has locals, and a branch to it takes nothing along.
    cases l with
    | block stop => exact absurd rfl hne
    | loop start ls =>
      obtain ⟨stack, hstack, hls⟩ := hs.loops start ls (List.mem_of_getElem? hl)
      simp only [Label.serves, Bool.and_eq_true, decide_eq_true_eq] at hserves
      rw [hserves.2, ht] at hstack
      cases hstack
      have hreload := runTypes_reload hs.locals hls.each []
      rw [typesOf_reverse, List.reverse_reverse, List.append_nil] at hreload
      have hset := after?_localSet hs.locals (hflag.type hL) (typesOf out)
      have hget := after?_localGet hs.locals (hflag.type hL) []
      simp only [Label.spilled, Label.types, List.reverse_nil] at hspilled hbr ⊢
      simp only [runTypes_append, runTypes_condition, Option.bind_some, runTypes, hset, hspilled, hget,
        hbr, hreload]

/-! ## Switches -/

omit hs in
theorem runTypes_rebase (low : Int32) (stack : List ValType) :
    runTypes env (rebase low) (.i32 :: stack) = some (.i32 :: stack) := by
  unfold rebase
  split <;> rfl

omit hs in
theorem length_denseTable (low : Int32) (span : Nat) (default : UInt32)
    (cases : List (Int32 × UInt32)) : (denseTable low span default cases).length = span := by
  unfold denseTable
  rw [Array.length_toList]
  have hsize : (Array.replicate span default).size = span := Array.size_replicate
  generalize Array.replicate span default = table at hsize
  induction cases generalizing table with
  | nil => exact hsize
  | cons c cases ih => exact ih _ (by rw [Array.size_setIfInBounds]; exact hsize)

omit hs in
theorem mem_denseTable {low : Int32} {span : Nat} {default d : UInt32}
    {cases : List (Int32 × UInt32)} (h : d ∈ denseTable low span default cases) :
    d = default ∨ d ∈ cases.map Prod.snd := by
  unfold denseTable at h
  rw [Array.mem_toList_iff] at h
  suffices hentry : d ∈ Array.replicate span default ∨ d ∈ cases.map Prod.snd from
    hentry.imp_left fun hd => (Array.mem_replicate.mp hd).2
  generalize Array.replicate span default = table at h
  induction cases generalizing table with
  | nil => exact .inl h
  | cons c cases ih =>
    rcases ih _ h with hd | hd
    · rcases Array.mem_or_eq_of_mem_setIfInBounds hd with hd | rfl
      · exact .inl hd
      · exact .inr List.mem_cons_self
    · exact .inr (List.mem_cons_of_mem _ hd)

theorem runTypes_chain (hL : L.Sound) {key : UInt32} (hkey : L.IsTemp .i32 0 key.toNat)
    {ts : List ValType} {cases : List (Int32 × UInt32)}
    (h : ∀ d ∈ cases.map Prod.snd, env.labels[d.toNat]? = some ts) :
    runTypes env (cases.flatMap fun (v, d) =>
      [.localGet key, .i32Const v, .intCompare .w32 .eq, .brIf d]) ts.reverse = some ts.reverse := by
  induction cases with
  | nil => rfl
  | cons c cases ih =>
    have hget := after?_localGet hs.locals (hkey.type hL) ts.reverse
    have hcompare : (Plain.intCompare .w32 .eq).after? env (.i32 :: .i32 :: ts.reverse) =
        some (.i32 :: ts.reverse) := rfl
    have hbr := after?_brIf (h c.2 (by simp))
    rw [List.flatMap_cons, runTypes_append]
    simp only [runTypes, hget, Wasm.after?_i32Const, hcompare, hbr, Option.bind_some]
    exact ih fun d hd => h d (List.mem_cons_of_mem _ hd)

omit hs in
theorem foldl_mem {α : Type} {f : α → α → α} (hf : ∀ a b, f a b = a ∨ f a b = b) (k : α)
    (ks : List α) : ks.foldl f k ∈ k :: ks := by
  induction ks generalizing k with
  | nil => exact List.mem_cons_self
  | cons j ks ih =>
    rcases List.mem_cons.mp (ih (f k j)) with h | h
    · rw [List.foldl_cons, h]
      rcases hf k j with h | h
      · rw [h]
        exact List.mem_cons_self
      · rw [h]
        exact List.mem_cons_of_mem _ List.mem_cons_self
    · exact List.mem_cons_of_mem _ (List.mem_cons_of_mem _ h)

omit hs in
theorem int32_max_eq_or (a b : Int32) : max a b = a ∨ max a b = b := by
  change (if a ≤ b then b else a) = a ∨ (if a ≤ b then b else a) = b
  split
  · exact .inr rfl
  · exact .inl rfl

theorem valid_lookup (hL : L.Sound) {maxSpan : Int} {default : UInt32}
    {cases : List (Int32 × UInt32)} {ps : List Plain} {out : List Kind}
    (hps : LookupCode L maxSpan default cases ps)
    (hfits : ∀ a ∈ cases, ∀ b ∈ cases, b.1.toInt - a.1.toInt < maxSpan →
      b.1.toInt - a.1.toInt < 2 ^ 32 - 1)
    (hdefault : env.labels[default.toNat]? = some (typesOf out).reverse)
    (hcases : ∀ d ∈ cases.map Prod.snd, env.labels[d.toNat]? = some (typesOf out).reverse)
    (us : List ValType) :
    AllValid env (ps.map .plain) (typesOf (.int :: out)).reverse us := by
  unfold LookupCode at hps
  split at hps
  · obtain rfl := hps
    exact valid_br hdefault [.drop] (by rw [List.reverse_reverse]; rfl) us
  · next k ks hkeys =>
    dsimp only at hps
    split at hps
    · next hspan =>
      obtain ⟨-, rfl⟩ := hps
      refine valid_brTable (typesOf out).reverse ?_ (fun d hd => ?_) ?_ us
      · have hlow : ks.foldl min k ∈ cases.map Prod.fst := hkeys ▸ foldl_mem Std.MinEqOr.min_eq_or k ks
        have hhigh : ks.foldl max k ∈ cases.map Prod.fst := hkeys ▸ foldl_mem int32_max_eq_or k ks
        obtain ⟨a, ha, halow⟩ := List.mem_map.mp hlow
        obtain ⟨b, hb, hbhigh⟩ := List.mem_map.mp hhigh
        have hbound := hfits a ha b hb
        rw [halow, hbhigh] at hbound
        rw [length_denseTable]
        omega
      · rcases List.mem_cons.mp hd with rfl | hd
        · exact hdefault
        · rcases mem_denseTable hd with rfl | hd
          · exact hdefault
          · exact hcases d hd
      · rw [List.reverse_reverse]
        exact runTypes_rebase _ _
    · obtain ⟨key, hkey, rfl⟩ := hps
      refine valid_br hdefault _ ?_ us
      have hchain := runTypes_chain hs hL hkey hcases
      rw [List.reverse_reverse] at hchain ⊢
      have hset := after?_localSet hs.locals (hkey.type hL) (typesOf out)
      change ((Plain.localSet key).after? env (.i32 :: typesOf out)).bind _ = _
      rw [hset]
      exact hchain

/-- A switch only branches forward, to blocks that give what is left on the stack. -/
theorem label_of_forward {k : Nat} {i : Instruction} {deltas : List Int32} {out : List Kind}
    (hforward : ∀ delta ∈ deltas, ∃ t, StartsAt ctx.instrs t (i.absolute delta) ∧
      ctx.stack? t = some out ∧ k < t)
    {delta : Int32} (hdelta : delta ∈ deltas) {d : UInt32} {l : Label}
    (haims : Aims ctx labels k i delta d l) :
    env.labels[d.toNat]? = some (typesOf out).reverse := by
  obtain ⟨t, hstart, ht, hk⟩ := hforward delta hdelta
  rw [label_types hs haims hstart]
  have hserves := (haims t hstart).2
  cases l with
  | loop start ls =>
    simp only [Label.serves, Bool.and_eq_true, decide_eq_true_eq] at hserves
    omega
  | block stop =>
    simp only [Label.serves, Bool.and_eq_true, decide_eq_true_eq] at hserves
    rw [Label.types, hserves.2, result_of_stack ht, typesOf_reverse]

theorem valid_tableSwitch {k : Nat} {i : Instruction} {low default : Int32} {deltas : List Int32}
    {out : List Kind} (hfew : deltas.length < 2 ^ 32)
    (hforward : ∀ delta ∈ default :: deltas, ∃ t, StartsAt ctx.instrs t (i.absolute delta) ∧
      ctx.stack? t = some out ∧ k < t)
    {ds : List UInt32} {d : UInt32} {l : Label}
    (hds : List.Forall₂ (fun t d => ∃ l, Aims ctx labels k i t d l) deltas ds)
    (haims : Aims ctx labels k i default d l) (us : List ValType) :
    AllValid env ((rebase low ++ [Plain.brTable ds d]).map .plain) (typesOf (.int :: out)).reverse
      us := by
  refine valid_brTable (typesOf out).reverse (hds.length_eq ▸ hfew) (fun d' hd' => ?_) ?_ us
  · rcases List.mem_cons.mp hd' with rfl | hd'
    · exact label_of_forward hs hforward List.mem_cons_self haims
    · obtain ⟨delta, hdelta, l', haims'⟩ := mem_left_of_forall₂ hds hd'
      exact label_of_forward hs hforward (List.mem_cons_of_mem _ hdelta) haims'
  · rw [List.reverse_reverse]
    exact runTypes_rebase low (typesOf out)

theorem valid_lookupSwitch (hL : L.Sound) {k : Nat} {i : Instruction} {default : Int32}
    {cases : List (Int32 × Int32)} {out : List Kind} {maxSpan : Int}
    (hfits : ∀ a ∈ cases, ∀ b ∈ cases, b.1.toInt - a.1.toInt < maxSpan →
      b.1.toInt - a.1.toInt < 2 ^ 32 - 1)
    (hforward : ∀ delta ∈ default :: cases.map Prod.snd, ∃ t,
      StartsAt ctx.instrs t (i.absolute delta) ∧ ctx.stack? t = some out ∧ k < t)
    {ds : List UInt32} {d : UInt32} {l : Label} {ps : List Plain}
    (hds : List.Forall₂ (fun c d => ∃ l, Aims ctx labels k i c.2 d l) cases ds)
    (haims : Aims ctx labels k i default d l)
    (hps : LookupCode L maxSpan d ((cases.map Prod.fst).zip ds) ps) (us : List ValType) :
    AllValid env (ps.map .plain) (typesOf (.int :: out)).reverse us := by
  have hlen : ds.length ≤ (cases.map Prod.fst).length := by
    rw [List.length_map, hds.length_eq]
  refine valid_lookup hs hL hps (fun a ha b hb => ?_)
    (label_of_forward hs hforward List.mem_cons_self haims) (fun d' hd' => ?_) us
  · obtain ⟨a', ha', hfst⟩ := List.mem_map.mp (List.of_mem_zip ha).1
    obtain ⟨b', hb', hfst'⟩ := List.mem_map.mp (List.of_mem_zip hb).1
    rw [← hfst, ← hfst']
    exact hfits a' ha' b' hb'
  · rw [List.map_snd_zip hlen] at hd'
    obtain ⟨c, hc, l', haims'⟩ := mem_left_of_forall₂ hds hd'
    exact label_of_forward hs hforward (List.mem_cons_of_mem _ (List.mem_map_of_mem hc)) haims'

/-! ## Instructions -/

theorem runTypes_globalGet {ref : MemberRef} {kind : Kind} {g : UInt32}
    (hkind : StackTyping.fieldKind ref = .ok kind) (hg : ctx.resolver.global ref = some g)
    (stack : List Kind) : runTypes env [.globalGet g] (typesOf stack) =
      some (typesOf (StackTyping.push kind stack)) := by
  obtain ⟨t, ht, rfl⟩ := StackTyping.fieldKind_eq_ok hkind
  have htype : (Plain.globalGet g).type? env = some ⟨[], [.ofKind t.kind]⟩ := by
    rw [Plain.type?, hs.resolver.global ref g t hg ht]
    rfl
  rw [typesOf_push, resultTypes_of_ne_void t.kind_ne_void]
  exact congrArg (·.bind (runTypes env [])) (after?_of_type _ _ htype (typesOf stack))

theorem runTypes_globalSet {ref : MemberRef} {kind : Kind} {g : UInt32}
    (hkind : StackTyping.fieldKind ref = .ok kind) (hg : ctx.resolver.global ref = some g)
    (stack : List Kind) :
    runTypes env [.globalSet g] (typesOf (kind :: stack)) = some (typesOf stack) := by
  obtain ⟨t, ht, rfl⟩ := StackTyping.fieldKind_eq_ok hkind
  have htype : (Plain.globalSet g).type? env = some ⟨[.ofKind t.kind], []⟩ := by
    rw [Plain.type?, hs.resolver.global ref g t hg ht]
  exact congrArg (·.bind (runTypes env [])) (after?_of_type _ _ htype (typesOf stack))

theorem runTypes_call {ref : MemberRef} {m : MethodType} {f : UInt32}
    (hm : StackTyping.methodType ref = .ok m) (hf : ctx.resolver.function ref = some f)
    (stack : List Kind) :
    runTypes env [.call f] (typesOf ((m.params.map FieldType.kind).reverse ++ stack)) =
      some (typesOf (StackTyping.push m.resultKind stack)) := by
  have hfunction := hs.resolver.function ref f m hf (StackTyping.methodType_eq_ok hm)
  have hcall := after?_of_type (p := .call f) (FuncType.ofMethodType m).params
    (FuncType.ofMethodType m).results hfunction (typesOf stack)
  rw [results_ofMethodType, resultTypes_reverse] at hcall
  have hparams : typesOf (m.params.map FieldType.kind).reverse =
      (FuncType.ofMethodType m).params.reverse := by
    rw [typesOf_reverse, typesOf, List.map_map]
    rfl
  rw [typesOf_append, hparams, typesOf_push, runTypes, hcall]
  rfl

/-- What is on the stack besides the result is left where it is. -/
theorem valid_ret {kind : Kind} {stack out : List Kind}
    (hstep : StackTyping.step ret (.ret kind) stack = .ok out) (us : List ValType) :
    AllValid env [.plain .ret] (typesOf stack).reverse us := by
  have hv (base : List ValType) : AllValid env [.plain .ret] (base ++ resultTypes ret) us := by
    have hv : Instr.Valid env (.plain .ret) (base ++ env.results) us := .plain (.ret base us)
    rw [← hs.results]
    simpa using AllValid.single [] hv
  simp only [StackTyping.step] at hstep
  split at hstep
  · cases hstep
  · next hkind =>
    obtain rfl := not_not.mp hkind
    split at hstep
    · next hvoid =>
      rw [resultTypes, if_pos hvoid] at hv
      simpa using hv (typesOf stack).reverse
    · next hvoid =>
      obtain rfl := StackTyping.pop_eq_ok hstep
      rw [resultTypes_of_ne_void hvoid] at hv
      simpa using hv (typesOf out).reverse

theorem opCode_valid (hL : L.Sound) {k : Nat} {i : Instruction} {stack out : List Kind}
    {ps : List Plain} (hop : OpCode ctx L labels k i stack ps) (hwf : i.op.WellFormed)
    (hfew : i.op.branches.length < 2 ^ 32)
    (hfits : ∀ default cases, i.op = .lookupSwitch default cases → ∀ a ∈ cases, ∀ b ∈ cases,
      b.1.toInt - a.1.toInt < ctx.maxSpan → b.1.toInt - a.1.toInt < 2 ^ 32 - 1)
    (hstep : StackTyping.step ret i.op stack = .ok out)
    (htargets : ∀ delta ∈ i.op.branches, ∃ t, StartsAt ctx.instrs t (i.absolute delta) ∧
      ctx.stack? t = some out ∧ (i.op.isSwitch = true → k < t))
    {us : List ValType} (hnext : i.op.fallsThrough = true → us = (typesOf out).reverse) :
    AllValid env (ps.map .plain) (typesOf stack).reverse us := by
  have straight (hf : i.op.fallsThrough = true)
      (h : runTypes env ps (typesOf stack) = some (typesOf out)) :
      AllValid env (ps.map .plain) (typesOf stack).reverse us := hnext hf ▸ runTypes_valid h
  unfold OpCode at hop
  generalize i.op = op at *
  cases op with
  | nop =>
    cases hstep
    obtain rfl := hop
    exact straight rfl rfl
  | const c =>
    cases hstep
    obtain rfl := hop
    refine straight rfl ?_
    cases c <;> rfl
  | load kind s =>
    cases hstep
    obtain ⟨l, hl, rfl⟩ := hop
    refine straight rfl ?_
    rw [typesOf_push, resultTypes_of_ne_void hwf, runTypes,
      after?_localGet hs.locals (hL.slots _ _ hl)]
    rfl
  | store kind s =>
    obtain rfl := StackTyping.pop_eq_ok hstep
    obtain ⟨l, hl, rfl⟩ := hop
    refine straight rfl ?_
    exact congrArg (·.bind (runTypes env [])) (after?_localSet hs.locals (hL.slots _ _ hl) _)
  | increment s delta =>
    cases hstep
    obtain ⟨l, hl, rfl⟩ := hop
    refine straight rfl ?_
    have hget := after?_localGet hs.locals (hL.slots _ _ hl) (typesOf stack)
    have hset := after?_localSet hs.locals (hL.slots _ _ hl) (typesOf stack)
    have hadd : (Plain.intBinary .w32 .add).after? env (.i32 :: .i32 :: typesOf stack) =
        some (.i32 :: typesOf stack) := rfl
    simp only [ValType.ofKind] at hget hset
    simp only [runTypes, hget, hset, hadd, Wasm.after?_i32Const, Option.bind_some]
  | arith a =>
    obtain ⟨rest, hrest, rfl⟩ := map_eq_ok hstep
    rw [StackTyping.pop_eq_ok hrest] at straight ⊢
    refine straight rfl ?_
    rw [runTypes_arith hs.locals hL hop, typesOf_push]
    cases a <;> rfl
  | convert c =>
    obtain ⟨rest, hrest, rfl⟩ := map_eq_ok hstep
    obtain rfl := hop
    rw [StackTyping.pop_eq_ok hrest] at straight ⊢
    refine straight rfl ?_
    cases c <;> rfl
  | narrow n =>
    obtain ⟨rest, hrest, rfl⟩ := map_eq_ok hstep
    obtain rfl := hop
    rw [StackTyping.pop_eq_ok hrest] at straight ⊢
    refine straight rfl ?_
    cases n <;> rfl
  | compare c =>
    obtain ⟨rest, hrest, rfl⟩ := map_eq_ok hstep
    obtain ⟨a, b, ⟨ha, hb⟩, rfl⟩ := hop
    rw [StackTyping.pop_eq_ok hrest] at straight ⊢
    exact straight rfl (runTypes_comparison hs.locals (ha.type hL) (hb.type hL) (typesOf rest))
  | stack op =>
    obtain ⟨s, hshuffle, hps⟩ := hop
    simp only [StackTyping.step, hshuffle] at hstep
    cases hstep
    exact straight rfl (runTypes_shuffle hs.locals hshuffle hps)
  | getStatic ref =>
    obtain ⟨kind, hkind, rfl⟩ := map_eq_ok hstep
    obtain ⟨g, hg, rfl⟩ := hop
    exact straight rfl (runTypes_globalGet hs hkind hg stack)
  | putStatic ref =>
    obtain ⟨kind, hkind, hpop⟩ := bind_eq_ok.mp hstep
    obtain ⟨g, hg, rfl⟩ := hop
    obtain rfl := StackTyping.pop_eq_ok hpop
    exact straight rfl (runTypes_globalSet hs hkind hg out)
  | invokeStatic ref =>
    obtain ⟨m, hm, hrest⟩ := bind_eq_ok.mp hstep
    obtain ⟨rest, hpop, rfl⟩ := map_eq_ok hrest
    obtain ⟨f, hf, rfl⟩ := hop
    rw [StackTyping.pop_eq_ok hpop] at straight ⊢
    exact straight rfl (runTypes_call hs hm hf rest)
  | ret kind =>
    obtain rfl := hop
    exact valid_ret hs hstep us
  | goto delta =>
    cases hstep
    obtain ⟨d, l, haims, rfl⟩ := hop
    obtain ⟨t, hstart, ht, -⟩ := htargets delta List.mem_cons_self
    obtain ⟨hl, hserves⟩ := haims t hstart
    exact valid_br (label_types hs haims hstart) _
      (runTypes_spilled hs (List.mem_of_getElem? hl) hserves ht) us
  | branch c delta =>
    obtain ⟨d, l, haims, hps⟩ := hop
    obtain ⟨t, hstart, ht, -⟩ := htargets delta List.mem_cons_self
    rw [StackTyping.pop_eq_ok hstep] at straight ⊢
    exact straight rfl (runTypes_branch hs hL haims hstart ht hps)
  | tableSwitch default low deltas =>
    obtain rfl := StackTyping.pop_eq_ok hstep
    obtain ⟨ds, d, l, hds, haims, rfl⟩ := hop
    refine valid_tableSwitch hs ((Nat.lt_succ_self _).trans hfew) (fun delta hdelta => ?_) hds haims us
    obtain ⟨t, hstart, ht, hlt⟩ := htargets delta hdelta
    exact ⟨t, hstart, ht, hlt rfl⟩
  | lookupSwitch default cases =>
    obtain rfl := StackTyping.pop_eq_ok hstep
    obtain ⟨ds, d, l, hds, haims, hps⟩ := hop
    refine valid_lookupSwitch hs hL (hfits default cases rfl) (fun delta hdelta => ?_) hds haims hps us
    obtain ⟨t, hstart, ht, hlt⟩ := htargets delta hdelta
    exact ⟨t, hstart, ht, hlt rfl⟩

end

/-! ## Trees -/

/-- A stack of types, lowest first, that control can reach position `k` with. -/
def FitsAt (ctx : Context) (k : Nat) (ts : List ValType) : Prop :=
  ∀ stack, ctx.stack? k = some stack → ts = (typesOf stack).reverse

theorem fitsAt_of_stack {ctx : Context} {k : Nat} {stack : List Kind}
    (h : ctx.stack? k = some stack) : FitsAt ctx k (typesOf stack).reverse := by
  intro stack' h'
  rw [h] at h'
  cases h'
  rfl

theorem fitsAt_result (ctx : Context) (stop : Nat) : FitsAt ctx stop (typesOf (ctx.result stop)) := by
  intro stack hstack
  rw [result_of_stack hstack, typesOf_reverse]

section

variable {env : Env} {ctx : Context} {ret : Kind} {L : Locals} {T : Array FuncType}
  {labels : List Label} (hs : Suits env ctx ret L T labels)

include hs

theorem Suits.expands {t : BlockType} {us : List ValType} (h : Gives T t us) :
    env.Expands t [] us := by
  cases t with
  | empty => exact ⟨rfl, h⟩
  | value v => exact ⟨rfl, h⟩
  | func i =>
    unfold Env.Expands
    rw [hs.types]
    exact h

theorem valid_spill {ls : List UInt32} {stack : List Kind} (h : Holds L ls stack.reverse) :
    AllValid env ((spillCode ls).map .plain) (typesOf stack).reverse [] := by
  have := runTypes_spill hs.locals h []
  rw [typesOf_reverse, List.reverse_reverse, List.append_nil] at this
  exact runTypes_valid this

theorem valid_reload {ls : List UInt32} {stack : List Kind} (h : Holds L ls stack.reverse) :
    AllValid env ((reloadCode ls).map .plain) [] (typesOf stack).reverse := by
  have := runTypes_reload hs.locals h.each []
  rw [typesOf_reverse, List.reverse_reverse, List.append_nil] at this
  exact runTypes_valid this

omit hs in
theorem valid_unreachable (ts us : List ValType) : AllValid env [.plain .unreachable] ts us := by
  have hv : Instr.Valid env (.plain .unreachable) ts us := .plain (.unreachable ts us)
  simpa using AllValid.single [] hv

omit hs in
theorem valid_afterwards {stop : Nat} {ts : List ValType} (h : FitsAt ctx stop ts) :
    AllValid env (afterwards ctx stop) (typesOf (ctx.result stop)) ts := by
  unfold afterwards
  split
  · exact valid_unreachable _ _
  · next hsome =>
    obtain ⟨stack, hstack⟩ := Option.ne_none_iff_exists'.mp (by simpa using hsome)
    rw [h stack hstack, result_of_stack hstack, typesOf_reverse]
    exact .nil _ _

/-- A guard leaves its flag and nothing else. -/
theorem runTypes_guard (hL : L.Sound) (c : Condition) {ls : List UInt32} {out : List Kind}
    {ps : List Plain} (hls : Holds L ls out.reverse) (hps : GuardCode L out.reverse ls ps) :
    runTypes env (condition (negateCondition c) ++ ps)
      (typesOf (StackTyping.conditionOperands c ++ out)) = some [.i32] := by
  have hoperands : StackTyping.conditionOperands c =
      StackTyping.conditionOperands (negateCondition c) := by
    cases c <;> rfl
  rw [hoperands, runTypes_append, runTypes_condition, Option.bind_some]
  unfold GuardCode at hps
  split at hps
  · next hnil =>
    obtain rfl := hps
    rw [List.reverse_eq_nil_iff.mp hnil]
    rfl
  · obtain ⟨flag, hflag, rfl⟩ := hps
    have hspill := runTypes_spill hs.locals hls []
    rw [typesOf_reverse, List.reverse_reverse, List.append_nil] at hspill
    have hset := after?_localSet hs.locals (hflag.type hL) (typesOf out)
    have hget := after?_localGet hs.locals (hflag.type hL) []
    simp only [List.cons_append, runTypes, runTypes_append, hset, hspill, hget, Option.bind_some]

/-- Where the guard is passed, the second arm gives what the first one leaves. -/
theorem valid_guardedInstr {stop : Nat} {out : List Kind} {ls : List UInt32} {t : BlockType}
    {arm : List Instr} (hstop : ctx.stack? stop = some out) (hls : Holds L ls out.reverse)
    (ht : Gives T t (typesOf (ctx.result stop)))
    (harm : AllValid (env.inside ((Label.block stop).types ctx)) arm [] (typesOf (ctx.result stop))) :
    Instr.Valid env (guardedInstr ctx stop ls t arm) [.i32] (typesOf (ctx.result stop)) := by
  have hin := hs.inside (.block stop) nofun
  unfold guardedInstr
  split
  · next hempty =>
    have hnil : ctx.result stop = [] := by simpa using hempty
    rw [hnil] at ht
    simp only [Label.types, hnil] at harm ⊢
    exact .ifThen (hs.expands ht) harm
  · have hother := valid_reload hin hls
    rw [← typesOf_reverse, ← result_of_stack hstop] at hother
    exact .ifElse (hs.expands ht) harm hother

/-- A part of a construct takes its values from locals. -/
theorem valid_body {ls : List UInt32} {start : Nat} {stack : List Kind} {inner : List Instr}
    {us : List ValType} (hstack : ctx.stack? start = some stack) (hls : Holds L ls stack.reverse)
    (h : ∃ ts, FitsAt ctx start ts ∧ AllValid env inner ts us) :
    AllValid env ((reloadCode ls).map .plain ++ inner) [] us := by
  obtain ⟨ts, hts, hinner⟩ := h
  rw [hts stack hstack] at hinner
  exact (valid_reload hs hls).append hinner

end

theorem targets_lt {instrs : Array Instruction} (h : targetsOf instrs.toList < 2 ^ 32) {k : Nat}
    {i : Instruction} (hi : instrs[k]? = some i) : i.op.branches.length < 2 ^ 32 := by
  refine Nat.lt_of_le_of_lt ?_ h
  have hmem : i ∈ instrs.toList := Array.mem_toList_iff.mpr (Array.mem_of_getElem? hi)
  exact List.le_sum_of_mem (List.mem_map.mpr ⟨i, hmem, rfl⟩)

theorem Compiles.valid {ctx : Context} {ret : Kind} {L : Locals} {T : Array FuncType}
    (hc : ctx.Checked ret) (hL : L.Sound) (hfit : TablesFit ctx.maxSpan ctx.instrs)
    {labels : List Label} {ns : List Node} {code : List Instr} (h : Compiles ctx L T labels ns code)
    {ms : List Mark} {a b : Nat} (hst : Structured ctx.instrs ms a b ns) {env : Env}
    (hs : Suits env ctx ret L T labels) {us : List ValType} (hus : FitsAt ctx b us) :
    ∃ ts, FitsAt ctx a ts ∧ AllValid env code ts us := by
  induction h generalizing ms a b env us with
  | nil =>
    cases hst
    exact ⟨us, hus, .nil _ _⟩
  | @skip labels n ns before code hn hbefore hcode ih =>
    obtain ⟨hstart, e, hrest⟩ := hst.tail
    obtain ⟨ts, -, hvalid⟩ := ih hrest hs hus
    refine ⟨ts, fun stack hstack => ?_, ?_⟩
    · rw [← hstart, hn] at hstack
      cases hstack
    · rcases hbefore with rfl | rfl
      · exact hvalid
      · exact (valid_unreachable _ _).append hvalid
  | @op labels k i stack ps ns code hi hk hops hcode ih =>
    cases hst with
    | op _ hrest =>
      obtain ⟨ts, hts, hvalid⟩ := ih hrest hs hus
      obtain ⟨out, hstep, htargets, hnext⟩ := hc.follows hi hk
      have hmem := Array.mem_of_getElem? hi
      refine ⟨(typesOf stack).reverse, fitsAt_of_stack hk, ?_⟩
      exact (opCode_valid hs hL hops (hc.wellFormed i hmem) (targets_lt hc.few_targets hi)
        (hfit i hmem) hstep htargets fun hf => hts out (hnext hf)).append hvalid
  | @loop labels start stop stack ls t body ns inner code hstack hls ht hinner hcode ihb ih =>
    cases hst with
    | loop _ hbody hrest =>
      obtain ⟨ts, hts, hvalid⟩ := ih hrest hs hus
      have hs' := hs.inside (.loop start ls) fun start' ls' he => by
        cases he
        exact ⟨stack, hstack, hls.toHolds⟩
      have hloop : Instr.Valid env (.loop t ((reloadCode ls).map .plain ++ inner)) []
          (typesOf (ctx.result stop)) :=
        .loop (hs.expands ht) (valid_body hs' hstack hls.toHolds
          (ihb hbody hs' (fitsAt_result ctx stop)))
      refine ⟨(typesOf stack).reverse, fitsAt_of_stack hstack, ?_⟩
      exact ((valid_spill hs hls.toHolds).append (.cons [] hloop (valid_afterwards hts))).append hvalid
  | @block labels start stop kind stack ls t body ns inner code hkind hstack hls ht hinner hcode ihb ih =>
    cases hst with
    | guarded => exact absurd rfl hkind
    | block _ _ hbody hrest =>
      obtain ⟨ts, hts, hvalid⟩ := ih hrest hs hus
      have hs' := hs.inside (.block stop) nofun
      have hblock : Instr.Valid env (.block t ((reloadCode ls).map .plain ++ inner)) []
          (typesOf (ctx.result stop)) :=
        .block (hs.expands ht) (valid_body hs' hstack hls.toHolds
          (ihb hbody hs' (fitsAt_result ctx stop)))
      refine ⟨(typesOf stack).reverse, fitsAt_of_stack hstack, ?_⟩
      exact ((valid_spill hs hls.toHolds).append (.cons [] hblock (valid_afterwards hts))).append hvalid
  | @guarded labels start stop stack ls ps t body ns inner code hstack hls hps ht hinner hcode ihb ih =>
    cases hst with
    | block hkind => exact absurd rfl hkind
    | guarded hguards _ hbody hrest =>
      obtain ⟨ts, hts, hvalid⟩ := ih hrest hs hus
      obtain ⟨out, hout, hnext, hstop⟩ := hc.guarded hguards hstack
      have hdrop : stack.drop (guardOperands (ctx.guard start)) = out := by
        rw [hout]
        exact List.drop_left
      rw [hdrop] at hls hps
      have hs' := hs.inside (.block stop) nofun
      have harm := valid_body hs' hnext hls.toHolds (ihb hbody hs' (fitsAt_result ctx stop))
      have hif := valid_guardedInstr hs hstop hls.toHolds ht harm
      have hflag := runTypes_valid (runTypes_guard hs hL (ctx.guard start) hls.toHolds hps)
      rw [← hout] at hflag
      refine ⟨(typesOf stack).reverse, fitsAt_of_stack hstack, ?_⟩
      exact (hflag.append (.cons [] hif (valid_afterwards hts))).append hvalid

theorem Locals.Grows.types_eq {ks : List Kind} {L : Locals} (h : (Locals.ofParams ks).Grows L) :
    L.types.toList = typesOf ks ++ L.types.toList.drop ks.length := by
  obtain ⟨-, -, -, htypes, -⟩ := Locals.ofParams_spec ks
  have htake : L.types.toList.take ks.length = typesOf ks := by
    refine List.ext_getElem? fun j => ?_
    rw [List.getElem?_take]
    split
    · next hj =>
      have hparam : (Locals.ofParams ks).types[j]? = some (.ofKind ks[j]) := by
        rw [htypes]
        simp [hj]
      rw [Array.getElem?_toList, h.types j _ hparam]
      simp [typesOf, hj]
    · next hj =>
      rw [List.getElem?_eq_none (by simpa [typesOf] using hj)]
  rw [← htake, List.take_append_drop]

/-- The body of a method that has been lowered. -/
theorem Compiled.valid {ctx : Context} {type : MethodType} {L : Locals} {T : Array FuncType}
    {tree : List Node} {f : Function} (h : Compiled ctx type L T tree f) {globals : List GlobalType}
    {functions : List FuncType} (hr : ctx.resolver.Typed globals functions)
    (hfit : TablesFit ctx.maxSpan ctx.instrs) :
    Wasm.ValidBody ⟨T, functions, globals⟩ (.ofMethodType type) (Locals.expand f.locals) f.body := by
  obtain ⟨code, last, hbody, hcode, hlast⟩ := h.code
  have hlocals : (FuncType.ofMethodType type).params ++ Locals.expand f.locals =
      L.types.toList := by
    rw [h.params.types_eq, h.declared, List.length_map, typesOf, List.map_map]
    rfl
  unfold Wasm.ValidBody
  rw [hlocals, hbody]
  have hs : Suits ⟨⟨T, functions, globals⟩, L.types.toList, [(FuncType.ofMethodType type).results],
      (FuncType.ofMethodType type).results⟩ ctx type.resultKind L T [] :=
    ⟨rfl, rfl, rfl, results_ofMethodType type, hr, fun start ls hm => by cases hm⟩
  cases tree with
  | nil =>
    cases hcode with
    | nil =>
      rcases hlast with ⟨-, hne⟩ | rfl
      · exact absurd rfl hne
      · exact valid_unreachable _ _
  | cons n ns =>
    have hend (us : List ValType) : FitsAt ctx ctx.instrs.size us := fun stack hstack =>
      absurd (h.checked.reached _ _ hstack) (Nat.lt_irrefl _)
    have hstart := h.checked.typed.start h.structured.lt
    obtain ⟨ts, hts, hvalid⟩ := hcode.valid h.checked h.locals hfit h.structured hs
      (hend (FuncType.ofMethodType type).results)
    obtain rfl : ts = [] := hts [] hstart
    rcases hlast with ⟨rfl, -⟩ | rfl
    · rw [List.append_nil]
      exact hvalid
    · exact hvalid.append (valid_unreachable _ _)

end ClassWasm.Lowering

namespace ClassWasm

open Lowering

/-- A method that can be lowered becomes code that reads back as what has been written, closed by
its `end`, and that is valid for a function of the type of the method with the locals that it
declares. -/
theorem lower_valid {pool : Pool} {bytes : Bytes} (hlength : bytes.length ≤ 65535)
    {instrs : Array Instruction} (hd : decode pool bytes = .ok instrs) {tree : List Node}
    (hs : structureOf instrs = .ok tree) {resolver : Resolver} {globals : List Wasm.GlobalType}
    {functions : List Wasm.FuncType} (hr : resolver.Typed globals functions) {maxSpan : Int}
    (hfit : TablesFit maxSpan instrs) {m : Method} {types T : Array Wasm.FuncType} {f : Function}
    (h : lower resolver maxSpan m instrs tree types = (.ok f, T)) (hT : T.size ≤ 2 ^ 32) :
    ∃ type, Descriptor.parseMethod m.descriptor = .ok type ∧
      Wasm.Binary.readBody f.encode.bytes = some f.body ∧
      type.params.length + (Locals.expand f.locals).length < 2 ^ 32 ∧
      Wasm.ValidBody ⟨T, functions, globals⟩ (.ofMethodType type) (Locals.expand f.locals) f.body := by
  obtain ⟨type, typing, L, htype, hcompiled⟩ := lower_compiles hd hlength hs h hT
  have hfit' : TablesFit (Context.of resolver maxSpan instrs typing).maxSpan instrs := by
    intro i hi default cases hop a ha b hb hlt
    have hbound := hfit i hi default cases hop a ha b hb
    simp only [Context.of, defaultMaxSpan] at hlt
    split at hlt <;> omega
  have hvalid := hcompiled.valid hr hfit'
  have hlocals := hcompiled.few_locals
  have hparams := hcompiled.params.types_eq
  refine ⟨type, htype, Wasm.read_encodeAll hvalid.writable, ?_, hvalid⟩
  rw [hcompiled.declared]
  have := congrArg List.length hparams
  simp only [List.length_append, typesOf, List.length_map, Array.length_toList] at this
  omega

/-! ## A loop with a guard, and a switch -/

/-- Fields of type `int` are the first global of a module. -/
def intFields : Resolver := ⟨fun ref => if ref.descriptor = "I" then some 0 else none, fun _ => none⟩

theorem intFields_typed : intFields.Typed [⟨.i32, true⟩] [] := by
  refine ⟨fun ref g t hg ht => ?_, fun ref f m hf => by cases hf⟩
  simp only [intFields] at hg
  split at hg
  · next hint =>
    cases hg
    have hparse : Descriptor.parseField "I" = .ok ⟨0, .primitive .int⟩ := by decide +kernel
    rw [hint, hparse] at ht
    cases ht
    rfl
  · cases hg

theorem parseMethod_int : Descriptor.parseMethod "(I)I" =
    .ok ⟨[⟨0, .primitive .int⟩], some ⟨0, .primitive .int⟩⟩ := by
  decide +kernel

def sampleMethod : Method := ⟨⟨0x0008⟩, "f", "(I)I", [.code ⟨1, 1, sampleCode, [], []⟩]⟩

def sampleFunction : Function where
  locals := [⟨2, .i32⟩]
  body :=
    [.loop .empty [.plain (.localGet 0), .ifThen .empty [.plain (.br 1)]],
      .plain (.localGet 0), .plain (.localSet 1),
      .block .empty
        [.plain (.localGet 1), .plain (.localSet 2),
          .block .empty [.plain (.localGet 2), .plain (.brTable [0] 1)],
          .plain (.i32Const 0), .plain .ret],
      .plain (.i32Const 1), .plain .ret]

theorem lower_sampleMethod :
    lower intFields 0 sampleMethod sampleInstrs sampleTree #[] = (.ok sampleFunction, #[]) := by
  cbv

theorem lower_valid_sample :
    (lower intFields 0 sampleMethod sampleInstrs sampleTree #[]).1 = .ok sampleFunction ∧
      Wasm.Binary.readBody sampleFunction.encode.bytes = some sampleFunction.body ∧
      Wasm.ValidBody ⟨#[], [], [⟨.i32, true⟩]⟩ ⟨[.i32], [.i32]⟩ [.i32, .i32] sampleFunction.body := by
  have hfit : TablesFit 0 sampleInstrs := by
    intro i hi default cases hop
    simp only [sampleInstrs, List.mem_toArray, List.mem_cons, List.not_mem_nil, or_false] at hi
    rcases hi with rfl | rfl | rfl | rfl | rfl | rfl | rfl | rfl | rfl <;> cases hop
  obtain ⟨type, htype, hread, -, hvalid⟩ := lower_valid (by decide) decode_sampleCode
    structureOf_sampleInstrs intFields_typed hfit lower_sampleMethod (by decide)
  obtain rfl := Except.ok.inj (htype.symm.trans parseMethod_int)
  exact ⟨by rw [lower_sampleMethod], hread, hvalid⟩

end ClassWasm
