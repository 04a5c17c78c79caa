/-
  Code of single instructions. `OpCode` says what code an instruction is lowered to in terms of the
  locals of the whole function, so that the order in which locals are found plays no part.
  `emits_operation` shows that lowering gives such code.
-/
import ClassWasm.Proofs.Lowering.Emits
import ClassWasm.Proofs.Region.Structured

namespace ClassWasm.Lowering

open Wasm (Plain Instr BlockType FuncType ValType IntBinary Width)

variable {α β : Type} {m n : Nat}

/-- Pops values into locals, given from the lowest value up. -/
def spillCode (ls : List UInt32) : List Plain := ls.reverse.map .localSet

def reloadCode (ls : List UInt32) : List Plain := ls.map .localGet

/-- The depth `d` leads to the construct `l` that serves the branch `delta` of the instruction `i`
at position `k`. -/
def Aims (ctx : Context) (labels : List Label) (k : Nat) (i : Instruction) (delta : Int32)
    (d : UInt32) (l : Label) : Prop :=
  ∀ t, StartsAt ctx.instrs t (i.absolute delta) → labels[d.toNat]? = some l ∧ l.serves k t = true

/-- Scratch locals for two operands of a type. -/
def TwoTemps (L : Locals) (t : ValType) (a b : UInt32) : Prop :=
  L.IsTemp t 0 a.toNat ∧ L.IsTemp t 1 b.toNat

/-- The distance of a shift is an `int`, also where the shifted number is longer. -/
def shiftCode (w : Width) (op : IntBinary) : List Plain :=
  match w with
  | .w32 => [.intBinary w op]
  | .w64 => [.convert .extendU, .intBinary w op]

/-- Integer arithmetic; `a` and `b` are scratch locals of the width, which only a division
uses. -/
def intCode (w : Width) (op : IntOp) (a b : UInt32) : List Plain :=
  match op with
  | .add => [.intBinary w .add]
  | .sub => [.intBinary w .sub]
  | .mul => [.intBinary w .mul]
  | .div => divide w a b
  | .rem => [.intBinary w .remS]
  | .neg => [intConstant w (-1), .intBinary w .mul]
  | .shl => shiftCode w .shl
  | .shr => shiftCode w .shrS
  | .ushr => shiftCode w .shrU
  | .and => [.intBinary w .and]
  | .or => [.intBinary w .or]
  | .xor => [.intBinary w .xor]

/-- Arithmetic that takes no scratch locals. -/
def arithCode : Arith → List Plain
  | .int op => intCode .w32 op 0 0
  | .long op => intCode .w64 op 0 0
  | .float op => (floatOpcode? .w32 (arithOperator (.float op))).toList
  | .double op => (floatOpcode? .w64 (arithOperator (.double op))).toList

def ArithCode (L : Locals) (op : Arith) (ps : List Plain) : Prop :=
  match op with
  | .int .div => ∃ a b, TwoTemps L .i32 a b ∧ ps = divide .w32 a b
  | .long .div => ∃ a b, TwoTemps L .i64 a b ∧ ps = divide .w64 a b
  | op => ps = arithCode op

/-- The table of conversions has an instruction for each of them. -/
def conversionCode (c : Conversion) : List Plain := (conversionOpcode? c.source c.target).toList

def ShuffleCode (L : Locals) (s : Shuffle) (stack : List Kind) (ps : List Plain) : Prop :=
  if s.order.isEmpty then ps = List.replicate s.taken .drop
  else ∃ ls, Holds L ls (s.takenFrom stack) ∧
    ps = spillCode ls ++ reloadCode (s.order.filterMap fun p => ls[p]?)

/-- A conditional branch to a construct that keeps its stack in locals fills these before it, and
takes the values back where it is not taken. -/
def BranchCode (L : Locals) (c : Condition) (d : UInt32) (l : Label) (ps : List Plain) : Prop :=
  match l.spilled with
  | [] => ps = condition c ++ [.brIf d]
  | ls => ∃ flag, L.IsTemp .i32 0 flag.toNat ∧
    ps = condition c ++ .localSet flag :: spillCode ls ++ [.localGet flag, .brIf d] ++ reloadCode ls

def LookupCode (L : Locals) (maxSpan : Int) (default : UInt32) (cases : List (Int32 × UInt32))
    (ps : List Plain) : Prop :=
  match cases.map Prod.fst with
  | [] => ps = [.drop, .br default]
  | k :: ks =>
    let low := ks.foldl min k
    let span := (ks.foldl max k).toInt - low.toInt + 1
    if span ≤ maxSpan then
      wrapped? low (k :: ks) = none ∧
        ps = rebase low ++ [.brTable (denseTable low span.toNat default cases) default]
    else ∃ key, L.IsTemp .i32 0 key.toNat ∧ ps = comparisonChain key default cases

/-- The code of the instruction `i` at position `k` on a stack. -/
def OpCode (ctx : Context) (L : Locals) (labels : List Label) (k : Nat) (i : Instruction)
    (stack : List Kind) (ps : List Plain) : Prop :=
  match i.op with
  | .nop => ps = []
  | .const c => ps = [constant c]
  | .load kind s => ∃ l, L.slots.lookup (s.toNat, kind) = some l.toNat ∧ ps = [.localGet l]
  | .store kind s => ∃ l, L.slots.lookup (s.toNat, kind) = some l.toNat ∧ ps = [.localSet l]
  | .increment s delta => ∃ l, L.slots.lookup (s.toNat, .int) = some l.toNat ∧
    ps = [.localGet l, .i32Const delta.toInt32, .intBinary .w32 .add, .localSet l]
  | .arith a => ArithCode L a ps
  | .convert c => ps = conversionCode c
  | .narrow n => ps = narrowing n
  | .compare c => ∃ a b, TwoTemps L (.ofKind c.kind) a b ∧ ps = comparison c a b
  | .stack op => ∃ s, Shuffle.of? op stack = some s ∧ ShuffleCode L s stack ps
  | .getStatic ref => ∃ g, ctx.resolver.global ref = some g ∧ ps = [.globalGet g]
  | .putStatic ref => ∃ g, ctx.resolver.global ref = some g ∧ ps = [.globalSet g]
  | .invokeStatic ref => ∃ f, ctx.resolver.function ref = some f ∧ ps = [.call f]
  | .ret _ => ps = [.ret]
  | .goto t => ∃ d l, Aims ctx labels k i t d l ∧ ps = spillCode l.spilled ++ [.br d]
  | .branch c t => ∃ d l, Aims ctx labels k i t d l ∧ BranchCode L c d l ps
  | .tableSwitch default low ts => ∃ ds d l,
    List.Forall₂ (fun t d => ∃ l, Aims ctx labels k i t d l) ts ds ∧
    Aims ctx labels k i default d l ∧ ps = rebase low ++ [.brTable ds d]
  | .lookupSwitch default cases => ∃ ds d l,
    List.Forall₂ (fun c d => ∃ l, Aims ctx labels k i c.2 d l) cases ds ∧
    Aims ctx labels k i default d l ∧
    LookupCode L ctx.maxSpan d ((cases.map Prod.fst).zip ds) ps

/-! ## Operations -/

/-- Whatever code is emitted, it is for locals that are sound. -/
theorem Emits.final {x : M α} {P : Emission α} (h : Emits n x P) :
    Emits n x fun L T a c => L.Sound ∧ P L T a c := by
  intro s a s' hx hs
  obtain ⟨he, code, hdone, hP⟩ := h s a s' hx hs
  exact ⟨he, code, hdone, fun L T hf => ⟨hf.sound, hP L T hf⟩⟩

/-- Emits one part and then another, which is all there is to it. -/
theorem Emits.then {x y : M Unit} {c c' : List Instr} (hx : Emits m x fun _ _ _ d => d = c)
    (hy : Emits n y fun _ _ _ d => d = c') :
    Emits (m + n) (x >>= fun _ => y) fun _ _ _ d => d = c ++ c' :=
  hx.bind (fun _ => hy) fun _ _ _ _ _ _ h h' => by rw [h, h']

theorem emits_found (fail : OpError → Error) (x : Except OpError α) :
    Emits 0 (found fail x) fun _ _ a c => c = [] ∧ x = .ok a := by
  cases x with
  | ok a =>
    refine (emits_pure a).mono (Nat.le_refl _) fun L T b c h => ?_
    rw [h.2]
    exact ⟨h.1, rfl⟩
  | error e => exact emits_throw _ _

theorem emits_mapM {f : α → M β} {R : α → β → Prop}
    (hf : ∀ a, Emits 0 (f a) fun _ _ b c => c = [] ∧ R a b) (as : List α) :
    Emits 0 (as.mapM f) fun _ _ bs c => c = [] ∧ List.Forall₂ R as bs := by
  induction as with
  | nil =>
    refine (emits_pure []).mono (Nat.le_refl _) fun L T b c h => ?_
    rw [h.2]
    exact ⟨h.1, .nil⟩
  | cons a as ih =>
    rw [List.mapM_cons]
    refine (hf a).bindNone (fun b => ih.bindNone (fun bs => emits_pure (b :: bs)) (R := fun _ _ cs c =>
      c = [] ∧ ∃ bs, cs = b :: bs ∧ List.Forall₂ R as bs) fun L T bs cs c h hp => ?_) ?_
    · exact ⟨hp.1, bs, hp.2, h⟩
    · rintro L T b cs c hab ⟨hc, bs, rfl, hbs⟩
      exact ⟨hc, .cons hab hbs⟩

theorem emits_spill (ls : List UInt32) :
    Emits 0 (spill ls) fun _ _ _ c => c = (spillCode ls).map .plain := emits_emitAll _

theorem emits_reload (ls : List UInt32) :
    Emits 0 (reload ls) fun _ _ _ c => c = (reloadCode ls).map .plain := emits_emitAll _

theorem depth_aims {ctx : Context} (hasc : Ascending ctx.instrs)
    (htable : ctx.table = .ofInstructions ctx.instrs) {labels : List Label}
    (hlabels : labels.length ≤ 2 ^ 32) {k : Nat} {i : Instruction} {delta : Int32} {d : UInt32}
    {l : Label} (h : depth ctx labels k i delta = .ok (d, l)) : Aims ctx labels k i delta d l := by
  intro t ht
  have hfind := (OffsetTable.find?_ofInstructions hasc).mpr ht
  unfold depth at h
  rw [htable, hfind] at h
  dsimp only [Option.getD_some] at h
  split at h
  · next l' d' hl =>
    cases h
    have hserves := List.find?_some hl
    have hmem := List.mem_zipIdx_iff_getElem?.mp (List.mem_of_find?_eq_some hl)
    have hlt := (List.getElem?_eq_some_iff.mp hmem).1
    rw [UInt32.toNat_ofNat_of_lt' (hlt.trans_le hlabels)]
    exact ⟨hmem, hserves⟩
  · cases h

theorem emits_depth (ctx : Context) (labels : List Label) (k : Nat) (i : Instruction) (delta : Int32) :
    Emits 0 (found (.operation i.opcode i.offset) (depth ctx labels k i delta)) fun _ _ t c =>
      c = [] ∧ depth ctx labels k i delta = .ok t := emits_found _ _

theorem emits_twoTemps (t : ValType) : Emits 3 (twoTemps t) fun L _ ab c =>
    c = [] ∧ TwoTemps L t ab.1 ab.2 := by
  refine (emits_temp t 0).bindNone (fun a => (emits_temp t 1).bindNone (fun b => emits_pure (a, b))
    (R := fun L _ ab c => c = [] ∧ ∃ b : UInt32, L.IsTemp t 1 b.toNat ∧ ab = (a, b)) ?_) ?_
  · exact fun L T b ab c hb h => ⟨h.1, b, hb, h.2⟩
  · rintro L T a ab c ha ⟨hc, b, hb, rfl⟩
    exact ⟨hc, ha, hb⟩

/-- Arithmetic takes no scratch locals, except that integers are divided, and no operator lacks its
instruction. -/
theorem arith_eq_emitAll (fail : OpError → Error) {a : Arith} (hint : a ≠ .int .div)
    (hlong : a ≠ .long .div) : arith fail a.kind (arithOperator a) = emitAll (arithCode a) := by
  cases a with
  | int op =>
    cases op with
    | div => exact absurd rfl hint
    | _ => rfl
  | long op =>
    cases op with
    | div => exact absurd rfl hlong
    | _ => rfl
  | float op | double op => cases op <;> rfl

/-- No conversion lacks its instruction. -/
theorem convert_eq_emitAll (fail : OpError → Error) (c : Conversion) :
    convert fail c.source c.target = emitAll (conversionCode c) := by
  cases c <;> rfl

theorem emits_arith (fail : OpError → Error) (op : Arith) :
    Emits 3 (arith fail op.kind (arithOperator op)) fun L _ _ c =>
      ∃ ps, c = ps.map .plain ∧ ArithCode L op ps := by
  by_cases hint : op = .int .div
  · subst hint
    refine (emits_twoTemps .i32).bindNone (fun ab => emits_emitAll _) fun L T ab b c hab hc => ?_
    exact ⟨_, hc, ab.1, ab.2, hab, rfl⟩
  by_cases hlong : op = .long .div
  · subst hlong
    refine (emits_twoTemps .i64).bindNone (fun ab => emits_emitAll _) fun L T ab b c hab hc => ?_
    exact ⟨_, hc, ab.1, ab.2, hab, rfl⟩
  rw [arith_eq_emitAll fail hint hlong]
  refine (emits_emitAll _).mono (Nat.zero_le _) fun L T a c hc => ⟨_, hc, ?_⟩
  unfold ArithCode
  split
  · exact absurd rfl hint
  · exact absurd rfl hlong
  · rfl

/-- Scratch locals for values of the kinds `ks`, besides those for values of the types `used`. -/
def Temps (L : Locals) (used : List ValType) : List Kind → List UInt32 → Prop
  | [], ls => ls = []
  | k :: ks, ls => ∃ l ls', ls = l :: ls' ∧ L.IsTemp (.ofKind k) (used.count (.ofKind k)) l.toNat ∧
    Temps L (.ofKind k :: used) ks ls'

theorem Temps.number {L : Locals} {used : List ValType} {ks : List Kind} {ls : List UInt32}
    (h : Temps L used ks ls) {l : UInt32} (hl : l ∈ ls) :
    ∃ t i, L.IsTemp t i l.toNat ∧ used.count t ≤ i := by
  induction ks generalizing used ls with
  | nil =>
    obtain rfl := h
    cases hl
  | cons k ks ih =>
    obtain ⟨l', ls', rfl, htemp, hrest⟩ := h
    rcases List.mem_cons.mp hl with rfl | hl
    · exact ⟨_, _, htemp, Nat.le_refl _⟩
    · obtain ⟨t, i, hi, hle⟩ := ih hrest hl
      exact ⟨t, i, hi, List.count_le_count_cons.trans hle⟩

theorem Temps.holds {L : Locals} (hL : L.Sound) {used : List ValType} {ks : List Kind}
    {ls : List UInt32} (h : Temps L used ks ls) : Holds L ls ks := by
  induction ks generalizing used ls with
  | nil =>
    obtain rfl := h
    exact ⟨.nil, .nil, nofun⟩
  | cons k ks ih =>
    obtain ⟨l, ls', rfl, htemp, hrest⟩ := h
    have hrec := ih hrest
    have htype := htemp.type hL
    refine ⟨List.nodup_cons.mpr ⟨fun hl => ?_, hrec.nodup⟩, .cons htype hrec.each,
      fun j hj key hkey => ?_⟩
    · -- The same local again would have the same type and so a lower number than it has.
      obtain ⟨t, i, hi, hle⟩ := hrest.number hl
      obtain rfl : ValType.ofKind k = t := Option.some.inj (htype.symm.trans (hi.type hL))
      have := hi.number_eq hL htemp
      rw [List.count_cons_self] at hle
      omega
    · rcases List.mem_cons.mp hj with rfl | hj
      · exact hL.slots_scratch key _ hkey _ htemp.mem rfl
      · exact hrec.slots j hj key hkey

theorem emits_tempsFor (used : List ValType) (ks : List Kind) :
    Emits (ks.length * (used.length + ks.length)) (tempsFor used ks) fun L _ ls c =>
      c = [] ∧ Temps L used ks ls := by
  induction ks generalizing used with
  | nil =>
    refine (emits_pure []).mono (Nat.zero_le _) fun L T b c h => ?_
    rw [h.2]
    exact ⟨h.1, rfl⟩
  | cons k ks ih =>
    have hrest (l : UInt32) := (ih (.ofKind k :: used)).bindNone (fun ls => emits_pure (l :: ls))
      (R := fun L _ ls c => c = [] ∧ ∃ ls', ls = l :: ls' ∧ Temps L (.ofKind k :: used) ks ls')
      fun L T ls' ls c h hp => ⟨hp.1, ls', hp.2, h⟩
    refine ((emits_temp _ _).bindNone hrest (R := fun L _ ls c => c = [] ∧ Temps L used (k :: ks) ls) ?_).mono
      ?_ fun L T ls c h => h
    · rintro L T l ls c hl ⟨hc, ls', hls, hrest⟩
      exact ⟨hc, l, ls', hls, hl, hrest⟩
    · have hcount : used.count (.ofKind k) ≤ used.length := List.count_le_length
      simp only [List.length_cons]
      nlinarith

theorem shuffle_taken_le {op : StackOp} {stack : List Kind} {s : Shuffle}
    (h : Shuffle.of? op stack = some s) : s.taken ≤ 4 := by
  cases op <;> simp only [Shuffle.of?] at h <;> (repeat' split at h) <;> cases h <;> decide

theorem emits_rearrange {op : StackOp} {stack : List Kind} {s : Shuffle}
    (h : Shuffle.of? op stack = some s) : Emits 16 (rearrange s stack) fun L _ _ c =>
      ∃ ps, c = ps.map .plain ∧ ShuffleCode L s stack ps := by
  unfold rearrange ShuffleCode
  split
  · exact (emits_emitAll _).mono (by omega) fun L T a c hc => ⟨_, hc, rfl⟩
  · next ho =>
    have htaken := shuffle_taken_le h
    have hlen : (s.takenFrom stack).length ≤ 4 := by
      rw [Shuffle.takenFrom, List.length_reverse, List.length_take]
      omega
    have hmoves (ls : List UInt32) := (emits_spill ls).then
      (emits_reload (s.order.filterMap fun p => ls[p]?))
    refine ((emits_tempsFor [] (s.takenFrom stack)).final.bind hmoves
      (R := fun L _ _ c => ∃ ps, c = ps.map .plain ∧ ∃ ls, Holds L ls (s.takenFrom stack) ∧
        ps = spillCode ls ++ reloadCode (s.order.filterMap fun p => ls[p]?)) ?_).mono ?_
      fun L T a c hc => hc
    · rintro L T ls u c c' ⟨hL, hc, htemps⟩ hc'
      refine ⟨_, ?_, ls, htemps.holds hL, rfl⟩
      rw [hc, hc', List.map_append]
      rfl
    · simp only [List.length_nil, Nat.zero_add]
      nlinarith

theorem emits_jump (target : UInt32 × Label) : Emits 0 (jump target) fun _ _ _ c =>
    c = (spillCode target.2.spilled ++ [Plain.br target.1]).map .plain := by
  refine ((emits_spill _).then ((emits_emit _).then (emits_setDead true))).mono (Nat.le_refl _) ?_
  intro L T a c hc
  rw [hc, List.map_append]
  rfl

theorem emits_branchIf (cond : Condition) (target : UInt32 × Label) :
    Emits 1 (branchIf cond target) fun L _ _ c =>
      ∃ ps, c = ps.map .plain ∧ BranchCode L cond target.1 target.2 ps := by
  unfold branchIf BranchCode
  cases hl : target.2.spilled with
  | nil =>
    refine ((emits_emitAll _).then (emits_emit _)).mono (Nat.zero_le _) fun L T a c hc => ?_
    refine ⟨_, ?_, rfl⟩
    rw [hc, List.map_append]
    rfl
  | cons l ls =>
    dsimp only
    generalize l :: ls = ls
    have hrest (flag : UInt32) := (emits_emit (.plain (.localSet flag))).then ((emits_spill ls).then
      ((emits_emitAll [.localGet flag, .brIf target.1]).then (emits_reload ls)))
    refine ((emits_emitAll (condition cond)).bind (fun _ => (emits_temp .i32 0).bindNone hrest
      (R := fun L _ _ c => ∃ flag : UInt32, L.IsTemp .i32 0 flag.toNat ∧ c =
        (Plain.localSet flag :: spillCode ls ++ [Plain.localGet flag, Plain.brIf target.1] ++
          reloadCode ls).map .plain) ?_) ?_).mono (Nat.le_refl _) fun L T a c hc => hc
    · rintro L T flag u c hflag hc
      refine ⟨flag, hflag, ?_⟩
      rw [hc]
      simp
    · rintro L T u v c c' hc ⟨flag, hflag, hc'⟩
      refine ⟨_, ?_, flag, hflag, rfl⟩
      rw [hc, hc']
      simp

theorem emits_lookupSwitch (maxSpan : Int) (default : UInt32) (cases : List (Int32 × UInt32)) :
    Emits 1 (lookupSwitch maxSpan default cases) fun L _ _ c =>
      ∃ ps, c = ps.map .plain ∧ LookupCode L maxSpan default cases ps := by
  have hdead {x : M Unit} {P : List Plain → Locals → Prop}
      (hx : Emits 1 x fun L _ _ c => ∃ ps, c = ps.map .plain ∧ P ps L) :
      Emits 1 (x >>= fun _ => setDead true) fun L _ _ c => ∃ ps, c = ps.map .plain ∧ P ps L := by
    refine hx.bind (fun _ => emits_setDead true) fun L T a b c c' hc hc' => ?_
    rw [hc', List.append_nil]
    exact hc
  unfold lookupSwitch LookupCode
  cases hkeys : cases.map Prod.fst with
  | nil => exact hdead ((emits_emitAll _).mono (Nat.zero_le _) fun L T a c hc => ⟨_, hc, rfl⟩)
  | cons k ks =>
    dsimp only
    split
    · split
      · exact (emits_throw _ _).mono (Nat.zero_le _) fun L T a c hc => hc
      · next hin =>
        exact hdead ((emits_emitAll _).mono (Nat.zero_le _) fun L T a c hc => ⟨_, hc, hin, rfl⟩)
    · refine (emits_temp .i32 0).bindNone (fun key => (emits_emitAll _).then (emits_setDead true))
        fun L T key b c hkey hc => ?_
      rw [List.append_nil] at hc
      exact ⟨_, hc, key, hkey, rfl⟩

section

variable {target : Int32 → M (UInt32 × Label)} {R : Int32 → UInt32 × Label → Prop}
  (htarget : ∀ delta, Emits 0 (target delta) fun _ _ t c => c = [] ∧ R delta t)

include htarget

/-- A switch over a range is a table of where its targets lie. -/
theorem emits_rangeSwitch (default low : Int32) (ts : List Int32) :
    Emits 0 (do
      let ds ← ts.mapM target
      let d ← target default
      emitAll (rebase low ++ [Plain.brTable (ds.map Prod.fst) d.1])
      setDead true) fun _ _ _ c => ∃ ds d, List.Forall₂ R ts ds ∧ R default d ∧
        c = (rebase low ++ [Plain.brTable (ds.map Prod.fst) d.1]).map .plain := by
  have hcode (ds : List (UInt32 × Label)) := (htarget default).bindNone
    (fun d => (emits_emitAll (rebase low ++ [Plain.brTable (ds.map Prod.fst) d.1])).then
      (emits_setDead true))
    (R := fun _ _ _ c => ∃ d, R default d ∧
      c = (rebase low ++ [Plain.brTable (ds.map Prod.fst) d.1]).map .plain)
    fun L T d b c hd hc => ⟨d, hd, by rw [hc, List.append_nil]⟩
  exact (emits_mapM htarget ts).bindNone hcode fun L T ds b c hds ⟨d, hd, hc⟩ => ⟨ds, d, hds, hd, hc⟩

theorem emits_caseSwitch (maxSpan : Int) (default : Int32) (cases : List (Int32 × Int32)) :
    Emits 1 (do
      let d ← target default
      let ds ← cases.mapM fun (_, t) => target t
      lookupSwitch maxSpan d.1 ((cases.map Prod.fst).zip (ds.map Prod.fst))) fun L _ _ c =>
        ∃ ds d, List.Forall₂ (fun c t => R c.2 t) cases ds ∧ R default d ∧ ∃ ps : List Plain,
          c = ps.map .plain ∧
            LookupCode L maxSpan d.1 ((cases.map Prod.fst).zip (ds.map Prod.fst)) ps := by
  have hcode (d : UInt32 × Label) := (emits_mapM (fun c : Int32 × Int32 => htarget c.2) cases).bindNone
    (fun ds => emits_lookupSwitch maxSpan d.1 ((cases.map Prod.fst).zip (ds.map Prod.fst)))
    (R := fun L _ _ c => ∃ ds : List (UInt32 × Label),
      List.Forall₂ (fun c t => R c.2 t) cases ds ∧ ∃ ps : List Plain, c = ps.map .plain ∧
        LookupCode L maxSpan d.1 ((cases.map Prod.fst).zip (ds.map Prod.fst)) ps)
    fun L T ds b c hds hc => ⟨ds, hds, hc⟩
  exact (htarget default).bindNone hcode fun L T d b c hd ⟨ds, hds, hps⟩ => ⟨ds, d, hds, hd, hps⟩

end

/-- The code of an instruction that branches nowhere is that of its operation. -/
theorem emits_branchless (ctx : Context) (labels : List Label) (k : Nat) {i : Instruction}
    (hi : i.op.branches = []) (stack : List Kind) :
    Emits 16 (operation ctx labels k i stack) fun L _ _ c =>
      ∃ ps, c = ps.map .plain ∧ OpCode ctx L labels k i stack ps := by
  have hall {Q : Locals → List Plain → Prop} (ps : List Plain) (h : ∀ L, Q L ps) :
      Emits 16 (emitAll ps) fun L _ _ c => ∃ ps, c = ps.map .plain ∧ Q L ps :=
    (emits_emitAll ps).mono (by omega) fun L T a c hc => ⟨ps, hc, h L⟩
  have hone {Q : Locals → List Plain → Prop} (p : Plain) (h : ∀ L, Q L [p]) :
      Emits 16 (emit p) fun L _ _ c => ∃ ps, c = ps.map .plain ∧ Q L ps :=
    (emits_emit p).mono (by omega) fun L T a c hc => ⟨[p], hc, h L⟩
  unfold operation OpCode
  dsimp only
  revert hi
  generalize i.op = op
  intro hi
  cases op with
  | goto | branch | tableSwitch | lookupSwitch => cases hi
  | nop => exact (emits_pure ()).mono (by omega) fun L T a c hc => ⟨[], hc.1, rfl⟩
  | const c => exact hone _ fun L => rfl
  | load kind s =>
    refine ((emits_slot s kind).bindNone (fun l => emits_emit _) ?_).mono (by omega)
      fun L T a c hc => hc
    exact fun L T l b c hl hc => ⟨[.localGet l], hc, l, hl, rfl⟩
  | store kind s =>
    refine ((emits_slot s kind).bindNone (fun l => emits_emit _) ?_).mono (by omega)
      fun L T a c hc => hc
    exact fun L T l b c hl hc => ⟨[.localSet l], hc, l, hl, rfl⟩
  | increment s delta =>
    refine ((emits_slot s .int).bindNone (fun l => emits_emitAll _) ?_).mono (by omega)
      fun L T a c hc => hc
    exact fun L T l b c hl hc => ⟨_, hc, l, hl, rfl⟩
  | arith a => exact (emits_arith _ a).mono (by omega) fun L T a c hc => hc
  | convert c =>
    dsimp only
    rw [convert_eq_emitAll]
    exact hall _ fun L => rfl
  | narrow n => exact hall _ fun L => rfl
  | compare c =>
    refine ((emits_twoTemps (.ofKind c.kind)).bindNone (fun ab => emits_emitAll _) ?_).mono
      (by omega) fun L T a c hc => hc
    exact fun L T ab b c hab hc => ⟨_, hc, ab.1, ab.2, hab, rfl⟩
  | stack op =>
    dsimp only
    split
    · next s hs =>
      refine (emits_rearrange hs).mono (Nat.le_refl _) ?_
      rintro L T a c ⟨ps, hc, hps⟩
      exact ⟨ps, hc, s, hs, hps⟩
    · exact (emits_throw _ _).mono (by omega) fun L T a c hc => hc
  | getStatic ref =>
    dsimp only
    split
    · next g hg => exact hone _ fun L => ⟨g, hg, rfl⟩
    · exact (emits_throw _ _).mono (by omega) fun L T a c hc => hc
  | putStatic ref =>
    dsimp only
    split
    · next g hg => exact hone _ fun L => ⟨g, hg, rfl⟩
    · exact (emits_throw _ _).mono (by omega) fun L T a c hc => hc
  | invokeStatic ref =>
    dsimp only
    split
    · next f hf => exact hone _ fun L => ⟨f, hf, rfl⟩
    · exact (emits_throw _ _).mono (by omega) fun L T a c hc => hc
  | ret kind =>
    refine ((emits_emit _).then (emits_setDead true)).mono (by omega) fun L T a c hc => ?_
    exact ⟨[.ret], hc, rfl⟩

theorem operation_eq_branching {ctx : Context} {labels : List Label} {k : Nat} {i : Instruction}
    (hi : i.op.branches ≠ []) (stack : List Kind) :
    operation ctx labels k i stack = branching ctx labels k i := by
  unfold operation
  cases hop : i.op with
  | goto | branch | tableSwitch | lookupSwitch => rfl
  | _ => exact absurd (by rw [hop]; rfl) hi

/-- What a context says of code whose offsets ascend. -/
structure Context.Sound (ctx : Context) : Prop where
  ascending : Ascending ctx.instrs
  table : ctx.table = .ofInstructions ctx.instrs
  reached : ∀ k stack, ctx.stack? k = some stack → k < ctx.instrs.size

theorem emits_operation {ctx : Context} (hctx : ctx.Sound) {labels : List Label}
    (hlabels : labels.length ≤ 2 ^ 32) (k : Nat) (i : Instruction) (stack : List Kind) :
    Emits 16 (operation ctx labels k i stack) fun L _ _ c =>
      ∃ ps, c = ps.map .plain ∧ OpCode ctx L labels k i stack ps := by
  have htarget (delta : Int32) : Emits 0
      (found (Error.operation i.opcode i.offset) (depth ctx labels k i delta)) fun _ _ t c =>
        c = [] ∧ Aims ctx labels k i delta t.1 t.2 :=
    (emits_depth ctx labels k i delta).mono (Nat.le_refl _) fun L T t c h =>
      ⟨h.1, depth_aims hctx.ascending hctx.table hlabels h.2⟩
  by_cases hi : i.op.branches = []
  · exact emits_branchless ctx labels k hi stack
  rw [operation_eq_branching hi]
  unfold branching OpCode
  dsimp only
  revert hi
  generalize i.op = op
  intro hi
  cases op with
  | goto t =>
    refine ((htarget t).bindNone emits_jump ?_).mono (by omega) fun L T a c hc => hc
    exact fun L T dl b c hdl hc => ⟨_, hc, dl.1, dl.2, hdl, rfl⟩
  | branch cond t =>
    refine ((htarget t).bindNone (emits_branchIf cond) ?_).mono (by omega) fun L T a c hc => hc
    rintro L T dl b c hdl ⟨ps, hc, hps⟩
    exact ⟨ps, hc, dl.1, dl.2, hdl, hps⟩
  | tableSwitch default low ts =>
    refine (emits_rangeSwitch htarget default low ts).mono (by omega) ?_
    rintro L T a c ⟨ds, d, hds, hd, hc⟩
    refine ⟨_, hc, ds.map Prod.fst, d.1, d.2, ?_, hd, rfl⟩
    rw [List.forall₂_map_right_iff]
    exact hds.imp fun t dl h => ⟨dl.2, h⟩
  | lookupSwitch default cases =>
    refine (emits_caseSwitch htarget ctx.maxSpan default cases).mono (by omega) ?_
    rintro L T a c ⟨ds, d, hds, hd, ps, hc, hps⟩
    refine ⟨ps, hc, ds.map Prod.fst, d.1, d.2, ?_, hd, hps⟩
    rw [List.forall₂_map_right_iff]
    exact hds.imp fun t dl h => ⟨dl.2, h⟩
  | _ => exact absurd rfl hi

end ClassWasm.Lowering
