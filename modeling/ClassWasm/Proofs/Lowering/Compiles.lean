/-
  Code of a tree. `Compiles ctx L T labels ns code` says what code the nodes `ns` inside the
  constructs `labels` are lowered to, in terms of the locals `L` and types `T` of the whole
  function, so that neither the order in which locals are found nor what has been emitted before
  plays a part. `lower_compiles` shows that lowering gives such code, with few enough locals and
  constructs for indices of 32 bits.
-/
import ClassWasm.Proofs.Lowering.OpCode
import ClassWasm.Proofs.StackTyping

namespace ClassWasm

namespace Node

mutual

/-- How many locals a node takes at most, where stacks hold at most `depth` values. -/
def weight (depth : Nat) : Node → Nat
  | op _ => 16
  | loop _ _ body => depth + 1 + weightOf depth body
  | block _ _ _ body => depth + 1 + weightOf depth body

def weightOf (depth : Nat) : List Node → Nat
  | [] => 0
  | n :: ns => n.weight depth + weightOf depth ns

end

theorem weight_ofRegion (depth : Nat) (r : Region) (body : List Node) :
    (ofRegion r body).weight depth = depth + 1 + weightOf depth body := by
  unfold ofRegion
  split <;> rfl

theorem Spans.weightOf_le {a b : Nat} {rs : List Region} {ns : List Node} (h : Spans a b rs ns)
    (depth : Nat) : weightOf depth ns + 16 * a ≤ 16 * b + (depth + 1) * rs.length := by
  induction h with
  | nil a => exact Nat.le_of_eq (Nat.zero_add _)
  | op _ ih =>
    simp only [weightOf, weight]
    omega
  | @region b r rs rs' body ns hbody hns ih ih' =>
    have hstart := r.start_le_bodyStart
    simp only [weightOf, weight_ofRegion, List.length_append, List.length_cons, Nat.mul_add]
    omega

end Node

namespace Lowering

open Wasm (Plain Instr BlockType FuncType ValType)

variable {n : Nat}

/-- Past the flag of a guard, values below its operands go into locals. -/
def GuardCode (L : Locals) (below : List Kind) (ls : List UInt32) (ps : List Plain) : Prop :=
  if below = [] then ps = []
  else ∃ flag, L.IsTemp .i32 0 flag.toNat ∧
    ps = .localSet flag :: spillCode ls ++ [.localGet flag]

/-- The conditional block of a guard. It has a second arm where it gives values. -/
def guardedInstr (ctx : Context) (stop : Nat) (ls : List UInt32) (t : BlockType) (inner : List Instr) :
    Instr :=
  if (ctx.result stop).isEmpty then .ifThen t inner
  else .ifElse t inner ((reloadCode ls).map .plain)

/-- The nodes `ns` inside the constructs `labels` have the code `code`. Nodes that control does not
reach have none. -/
inductive Compiles (ctx : Context) (L : Locals) (T : Array FuncType) :
    List Label → List Node → List Instr → Prop
  | nil {labels : List Label} : Compiles ctx L T labels [] []
  | skip {labels : List Label} {n : Node} {ns : List Node} {before code : List Instr} :
    ctx.stack? n.start = none → before = [] ∨ before = [.plain .unreachable] →
    Compiles ctx L T labels ns code → Compiles ctx L T labels (n :: ns) (before ++ code)
  | op {labels : List Label} {k : Nat} {i : Instruction} {stack : List Kind} {ps : List Plain}
    {ns : List Node} {code : List Instr} : ctx.instrs[k]? = some i → ctx.stack? k = some stack →
    OpCode ctx L labels k i stack ps → Compiles ctx L T labels ns code →
    Compiles ctx L T labels (.op k :: ns) (ps.map .plain ++ code)
  | loop {labels : List Label} {start stop : Nat} {stack : List Kind} {ls : List UInt32}
    {t : BlockType} {body ns : List Node} {inner code : List Instr} :
    ctx.stack? start = some stack → Spilled L ls stack.reverse →
    Gives T t ((ctx.result stop).map .ofKind) →
    Compiles ctx L T (.loop start ls :: labels) body inner → Compiles ctx L T labels ns code →
    Compiles ctx L T labels (.loop start stop body :: ns)
      (((spillCode ls).map .plain ++
        .loop t ((reloadCode ls).map .plain ++ inner) :: afterwards ctx stop) ++ code)
  | block {labels : List Label} {start stop : Nat} {kind : BlockKind} {stack : List Kind}
    {ls : List UInt32} {t : BlockType} {body ns : List Node} {inner code : List Instr} :
    kind ≠ .conditional → ctx.stack? start = some stack → Spilled L ls stack.reverse →
    Gives T t ((ctx.result stop).map .ofKind) →
    Compiles ctx L T (.block stop :: labels) body inner → Compiles ctx L T labels ns code →
    Compiles ctx L T labels (.block start stop kind body :: ns)
      (((spillCode ls).map .plain ++
        .block t ((reloadCode ls).map .plain ++ inner) :: afterwards ctx stop) ++ code)
  | guarded {labels : List Label} {start stop : Nat} {stack : List Kind} {ls : List UInt32}
    {ps : List Plain} {t : BlockType} {body ns : List Node} {inner code : List Instr} :
    ctx.stack? start = some stack →
    Spilled L ls (stack.drop (guardOperands (ctx.guard start))).reverse →
    GuardCode L (stack.drop (guardOperands (ctx.guard start))).reverse ls ps →
    Gives T t ((ctx.result stop).map .ofKind) →
    Compiles ctx L T (.block stop :: labels) body inner → Compiles ctx L T labels ns code →
    Compiles ctx L T labels (.block start stop .conditional body :: ns)
      (((condition (negateCondition (ctx.guard start)) ++ ps).map .plain ++
        guardedInstr ctx stop ls t ((reloadCode ls).map .plain ++ inner) :: afterwards ctx stop)
          ++ code)

theorem emits_spillFresh (ks : List Kind) : Emits ks.length (spillFresh ks) fun L _ ls c =>
    c = (spillCode ls).map .plain ∧ Spilled L ls ks := by
  have hrest (ls : List UInt32) := (emits_spill ls).bind (fun _ => emits_pure ls)
    (R := fun _ _ ls' c => c = (spillCode ls).map .plain ∧ ls' = ls) fun L T u ls' c c' hc hp => by
      rw [hc, hp.1, List.append_nil]
      exact ⟨rfl, hp.2⟩
  refine (emits_freshAll ks).bindNone hrest fun L T ls ls' c hspilled hc => ?_
  rw [hc.2]
  exact ⟨hc.1, hspilled⟩

theorem emits_spillBelow (below : List Kind) :
    Emits (below.length + 1) (spillBelow below) fun L _ ls c =>
      Spilled L ls below ∧ ∃ ps, c = ps.map .plain ∧ GuardCode L below ls ps := by
  cases below with
  | nil =>
    refine (emits_pure []).mono (Nat.zero_le _) ?_
    rintro L T ls c ⟨hc, rfl⟩
    exact ⟨⟨⟨.nil, .nil, nofun⟩, nofun⟩, [], hc, rfl⟩
  | cons k ks =>
    have hget (flag : UInt32) (ls : List UInt32) := (emits_emit (.plain (.localGet flag))).bind
      (fun _ => emits_pure ls) (R := fun _ _ ls' c => c = [.plain (.localGet flag)] ∧ ls' = ls)
      fun L T u ls' c c' hc hp => by
        rw [hc, hp.1]
        exact ⟨rfl, hp.2⟩
    have hspill (flag : UInt32) := (emits_spillFresh (k :: ks)).bind (hget flag)
      (R := fun L _ ls c => Spilled L ls (k :: ks) ∧
        c = (spillCode ls ++ [Plain.localGet flag]).map .plain) fun L T ls ls' c c' hc hc' => by
          rw [hc.1, hc'.1, hc'.2, List.map_append]
          exact ⟨hc.2, rfl⟩
    have hset (flag : UInt32) := (emits_emit (.plain (.localSet flag))).bind (fun _ => hspill flag)
      (R := fun L _ ls c => Spilled L ls (k :: ks) ∧
        c = (.localSet flag :: spillCode ls ++ [Plain.localGet flag]).map .plain)
      fun L T u ls c c' hc hc' => by
        rw [hc, hc'.2]
        exact ⟨hc'.1, rfl⟩
    refine ((emits_temp .i32 0).bindNone hset ?_).mono (by omega) fun L T ls c hc => hc
    intro L T flag ls c hflag hc
    refine ⟨hc.1, _, hc.2, ?_⟩
    rw [GuardCode, if_neg (List.cons_ne_nil k ks)]
    exact ⟨flag, hflag, rfl⟩

/-- What a construct holds, and what closes it. -/
theorem emits_construct {ctx : Context} {inner : M Unit} {stop : Nat} (ls : List UInt32)
    {P : Locals → Array FuncType → List Instr → Prop} (hinner : Emits n inner fun L T _ c => P L T c)
    {finish : BlockType → List Instr → M Unit} {make : BlockType → List Instr → Instr}
    (hfinish : ∀ t body, Emits 0 (finish t body) fun _ _ _ c =>
      c = make t body :: afterwards ctx stop) :
    Emits n (do
      let t ← blockType (ctx.result stop)
      let body ← nested do
        reload ls
        inner
      finish t body) fun L T _ c => ∃ t body, Gives T t ((ctx.result stop).map .ofKind) ∧
        P L T body ∧ c = make t ((reloadCode ls).map .plain ++ body) :: afterwards ctx stop := by
  have hbody := ((emits_reload ls).bind (fun _ => hinner)
    (R := fun L T _ c => ∃ body, P L T body ∧ c = (reloadCode ls).map .plain ++ body)
    fun L T u v c c' hc hc' => ⟨c', hc', by rw [hc]⟩).nested
  have hrest (t : BlockType) := hbody.bindNone (hfinish t)
    (R := fun L T _ c => ∃ body, P L T body ∧
      c = make t ((reloadCode ls).map .plain ++ body) :: afterwards ctx stop) (by
        rintro L T body u c ⟨body', hP, rfl⟩ hc
        exact ⟨body', hP, hc⟩)
  refine ((emits_blockType (ctx.result stop)).bindNone hrest ?_).mono (by omega) fun L T u c hc => hc
  rintro L T t u c ht ⟨body, hP, hc⟩
  exact ⟨t, body, ht, hP, hc⟩

theorem emits_guarded (ctx : Context) (stop : Nat) (ls : List UInt32) (t : BlockType)
    (inner : List Instr) :
    Emits 0 (if (ctx.result stop).isEmpty then close ctx stop (.ifThen t inner)
      else do
        let other ← nested (reload ls)
        close ctx stop (.ifElse t inner other)) fun _ _ _ c =>
      c = guardedInstr ctx stop ls t inner :: afterwards ctx stop := by
  unfold guardedInstr
  split
  · exact emits_close ctx stop _
  · refine (emits_reload ls).nested.bindNone (fun other => emits_close ctx stop _) ?_
    rintro L T other u c rfl hc
    exact hc

/-- Stacks of at most `depth` values, and few enough constructs for 32 bits. -/
structure Context.Fits (ctx : Context) (depth : Nat) (labels : List Label) (weight : Nat) : Prop where
  sound : ctx.Sound
  depth : ∀ k stack, ctx.stack? k = some stack → stack.length ≤ depth
  labels : labels.length + weight ≤ 2 ^ 32

theorem Context.Fits.mono {ctx : Context} {depth : Nat} {labels labels' : List Label} {w w' : Nat}
    (h : ctx.Fits depth labels w) (hle : labels'.length + w' ≤ labels.length + w) :
    ctx.Fits depth labels' w' := ⟨h.sound, h.depth, hle.trans h.labels⟩

mutual

theorem node_compiles {ctx : Context} {depth : Nat} (labels : List Label) (n : Node)
    (h : ctx.Fits depth labels (n.weight depth)) :
    Emits (n.weight depth) (node ctx labels n) fun L T _ c => ∀ ns code,
      Compiles ctx L T labels ns code → Compiles ctx L T labels (n :: ns) (c ++ code) := by
  have hskip (w : Nat) (hn : ctx.stack? n.start = none) :
      Emits w unreachable fun L T _ c => ∀ ns code,
        Compiles ctx L T labels ns code → Compiles ctx L T labels (n :: ns) (c ++ code) :=
    emits_unreachable.mono (Nat.zero_le _) fun L T u c hc ns code hcode => .skip hn hc hcode
  match n with
  | .op k =>
    unfold node
    split
    · next i stack hi hk =>
      have hlabels := h.labels
      rw [Node.weight] at hlabels ⊢
      refine (emits_operation h.sound (by omega) k i stack).mono (Nat.le_refl _) ?_
      rintro L T u c ⟨ps, rfl, hps⟩ ns code hcode
      exact .op hi hk hps hcode
    · next hno =>
      refine hskip _ ?_
      cases hk : ctx.stack? k with
      | none => exact hk
      | some stack =>
        have hlt := h.sound.reached k stack hk
        exact (hno _ stack (Array.getElem?_eq_getElem hlt) hk).elim
  | .loop start stop body =>
    unfold node
    split
    · next hnone => exact hskip _ hnone
    · next stack hstack =>
      have hdepth := h.depth start stack hstack
      have hbody (ls : List UInt32) := nodes_compiles (.loop start ls :: labels) body
        (h.mono (by rw [Node.weight, List.length_cons]; omega))
      have hrest (ls : List UInt32) := emits_construct ls (hbody ls)
        fun t inner => emits_close ctx stop (.loop t inner)
      refine ((emits_spillFresh stack.reverse).bind hrest ?_).mono ?_ fun L T u c hc => hc
      · rintro L T ls u c c' ⟨rfl, hls⟩ ⟨t, inner, ht, hinner, rfl⟩ ns code hcode
        exact .loop hstack hls ht hinner hcode
      · rw [Node.weight, List.length_reverse]
        omega
  | .block start stop .conditional body =>
    unfold node
    split
    · next hnone => exact hskip _ hnone
    · next stack hstack =>
      have hdepth := h.depth start stack hstack
      have hbody := nodes_compiles (.block stop :: labels) body
        (h.mono (by rw [Node.weight, List.length_cons]; omega))
      have hrest (ls : List UInt32) := emits_construct ls hbody
        fun t inner => emits_guarded ctx stop ls t inner
      have hguard := (emits_spillBelow (stack.drop (guardOperands (ctx.guard start))).reverse).bind
        hrest (R := fun L T _ c => ∀ ns code, Compiles ctx L T labels ns code →
          Compiles ctx L T labels (.block start stop .conditional body :: ns)
            ((condition (negateCondition (ctx.guard start))).map .plain ++ c ++ code)) (by
          rintro L T ls u c c' ⟨hls, ps, rfl, hps⟩ ⟨t, inner, ht, hinner, rfl⟩ ns code hcode
          have := Compiles.guarded hstack hls hps ht hinner hcode
          simpa only [List.map_append, List.append_assoc] using this)
      refine ((emits_emitAll _).bind (fun _ => hguard) ?_).mono ?_ fun L T u c hc => hc
      · rintro L T u v c c' rfl hc'
        exact hc'
      · rw [Node.weight, List.length_reverse, List.length_drop]
        omega
  | .block start stop .plain body | .block start stop .wrapper body =>
    unfold node
    split
    · next hnone => exact hskip _ hnone
    · next stack hstack =>
      have hdepth := h.depth start stack hstack
      have hbody := nodes_compiles (.block stop :: labels) body
        (h.mono (by rw [Node.weight, List.length_cons]; omega))
      have hrest (ls : List UInt32) := emits_construct ls hbody
        fun t inner => emits_close ctx stop (.block t inner)
      refine ((emits_spillFresh stack.reverse).bind hrest ?_).mono ?_ fun L T u c hc => hc
      · rintro L T ls u c c' ⟨rfl, hls⟩ ⟨t, inner, ht, hinner, rfl⟩ ns code hcode
        exact .block (by decide) hstack hls ht hinner hcode
      · rw [Node.weight, List.length_reverse]
        omega

theorem nodes_compiles {ctx : Context} {depth : Nat} (labels : List Label) (ns : List Node)
    (h : ctx.Fits depth labels (Node.weightOf depth ns)) :
    Emits (Node.weightOf depth ns) (nodes ctx labels ns) fun L T _ c =>
      Compiles ctx L T labels ns c := by
  match ns with
  | [] =>
    refine (emits_pure ()).mono (Nat.zero_le _) ?_
    rintro L T u c ⟨rfl, -⟩
    exact .nil
  | n :: ns =>
    have hn := node_compiles labels n (h.mono (by rw [Node.weightOf]; omega))
    have hns := nodes_compiles labels ns (h.mono (by rw [Node.weightOf]; omega))
    exact hn.bind (fun _ => hns) fun L T u v c c' hc hc' => hc ns c' hc'

end

/-! ## Whole methods -/

/-- The widest range of keys for which a switch becomes a table. -/
def widestSpan (maxSpan : Int) : Int := if maxSpan ≤ 0 then defaultMaxSpan else maxSpan

/-- What is lowered, as `lower` sets it up. -/
def Context.of (resolver : Resolver) (maxSpan : Int) (instrs : Array Instruction)
    (typing : Array (Option (List Kind))) : Context :=
  { instrs, typing, resolver, table := .ofInstructions instrs,
    maxSpan := if maxSpan ≤ 0 then defaultMaxSpan else maxSpan }

/-- What decoding, typing and structuring have found out about the code of a method that returns
`ret`. -/
structure Context.Checked (ctx : Context) (ret : Kind) : Prop extends ctx.Sound where
  wellFormed : ∀ i ∈ ctx.instrs, i.op.WellFormed
  few_targets : targetsOf ctx.instrs.toList < 2 ^ 32
  typed : Typed ctx.instrs ret ctx.typing
  lands : Lands ctx.instrs ctx.instrs.size

/-- An instruction that control reaches can run, and its successors are reached with what it
leaves. -/
theorem Context.Checked.follows {ctx : Context} {ret : Kind} (h : ctx.Checked ret) {k : Nat}
    {i : Instruction} {stack : List Kind} (hi : ctx.instrs[k]? = some i)
    (hk : ctx.stack? k = some stack) :
    ∃ out, StackTyping.step ret i.op stack = .ok out ∧
      (∀ delta ∈ i.op.branches, ∃ t, StartsAt ctx.instrs t (i.absolute delta) ∧
        ctx.stack? t = some out ∧ (i.op.isSwitch = true → k < t)) ∧
      (i.op.fallsThrough = true → ctx.stack? (k + 1) = some out) := by
  obtain ⟨out, hstep, hbranches, hnext⟩ := h.typed.follows k stack hk i hi
  refine ⟨out, hstep, fun delta hdelta => ?_, hnext⟩
  obtain ⟨t, ht, hout⟩ := hbranches delta hdelta
  obtain ⟨t', ht', hforward⟩ := h.lands k (Array.getElem?_eq_some_iff.mp hi).1 i hi delta hdelta
  obtain rfl := ht.unique h.ascending ht'
  exact ⟨t, ht, hout, hforward⟩

/-- The guard of a block takes its operands off the stack, and control goes on inside the block and
behind it with the rest. -/
theorem Context.Checked.guarded {ctx : Context} {ret : Kind} (h : ctx.Checked ret) {k stop : Nat}
    {stack : List Kind} (hg : Guards ctx.instrs k stop) (hk : ctx.stack? k = some stack) :
    ∃ out, stack = StackTyping.conditionOperands (ctx.guard k) ++ out ∧
      ctx.stack? (k + 1) = some out ∧ ctx.stack? stop = some out := by
  obtain ⟨hlead, i, hi, hcond⟩ := hg
  obtain ⟨out, hstep, hbranches, hnext⟩ := h.follows hi hk
  obtain ⟨delta, hdelta, ht⟩ := (Region.leadsTo_iff hi).mp hlead
  obtain ⟨t, ht', hout, -⟩ := hbranches delta hdelta
  obtain rfl := ht.unique h.ascending ht'
  obtain ⟨c, d, hop⟩ : ∃ c d, i.op = .branch c d := by
    generalize i.op = op at hcond
    cases op with
    | branch c d => exact ⟨c, d, rfl⟩
    | _ => cases hcond
  have hguard : ctx.guard k = c := by rw [Context.guard, hi, Option.map_some, hop]
  rw [hop] at hstep hnext
  rw [hguard]
  exact ⟨out, StackTyping.pop_eq_ok hstep, hnext rfl, hout⟩

/-- The function `f` is the code of a method of this type and tree, with the locals `L`. -/
structure Compiled (ctx : Context) (type : MethodType) (L : Locals) (T : Array FuncType)
    (tree : List Node) (f : Function) : Prop where
  checked : ctx.Checked type.resultKind
  structured : Structured ctx.instrs [] 0 ctx.instrs.size tree
  locals : L.Sound
  params : (Locals.ofParams (type.params.map FieldType.kind)).Grows L
  few_locals : L.types.size < 2 ^ 32
  declared : Locals.expand f.locals = L.types.toList.drop type.params.length
  code : ∃ code last, f.body = code ++ last ∧ Compiles ctx L T [] tree code ∧
    (last = [] ∧ tree ≠ [] ∨ last = [.plain .unreachable])

theorem length_params_le {text : Text} {type : MethodType}
    (h : Descriptor.parseMethod text = .ok type) : type.params.length ≤ 255 := by
  have hslots : type.argSlots ≤ 255 := by
    unfold Descriptor.parseMethod at h
    dsimp only at h
    repeat' split at h
    all_goals cases h
    omega
  refine Nat.le_trans ?_ hslots
  unfold MethodType.argSlots
  generalize type.params = ps
  induction ps with
  | nil => exact Nat.le_refl _
  | cons p ps ih =>
    have : 1 ≤ p.slots := by
      unfold FieldType.slots
      split <;> omega
    simp only [List.length_cons, List.map_cons, List.foldr_cons]
    omega

theorem check_eq_ok {m : Method} {instrs : Array Instruction} {type : MethodType}
    {typing : Array (Option (List Kind))} (h : check m instrs = .ok (type, typing)) :
    Descriptor.parseMethod m.descriptor = .ok type ∧
      stackTyping type.resultKind instrs = .ok typing := by
  unfold check at h
  repeat' split at h
  all_goals cases h
  exact ⟨‹_›, ‹_›⟩

theorem check_runnable {m : Method} {instrs : Array Instruction} {type : MethodType}
    {typing : Array (Option (List Kind))} (h : check m instrs = .ok (type, typing)) :
    m.access.isStatic = true ∧ ∃ code, m.code? = some code ∧ code.handlers.isEmpty = true := by
  unfold check at h
  repeat' split at h
  all_goals cases h
  next code hcode hstatic hhandlers _ _ _ _ =>
    exact ⟨by simpa using hstatic, code, hcode, by simpa using hhandlers⟩

/-- A tree takes few locals, since code has few instructions and few branches. -/
theorem weightOf_lt {pool : Pool} {bytes : Bytes} {instrs : Array Instruction}
    (hd : decode pool bytes = .ok instrs) (hbytes : bytes.length ≤ 65535) {tree : List Node}
    (hs : structureOf instrs = .ok tree) :
    Node.weightOf (2 * instrs.size) tree + 255 < 2 ^ 32 := by
  obtain ⟨rs, hfound, hspans⟩ := structureOf_spans (ascending_of_decode hd) hs
  have hweight := hspans.weightOf_le (2 * instrs.size)
  have hfew := hfound.few
  obtain ⟨htargets, hlength⟩ := (decode_tiles hd).targets_le
  unfold targetsOf at hfew
  rw [Array.length_toList] at hlength
  have hsize : instrs.size ≤ 65535 := by omega
  have hregions : rs.length ≤ 21845 := by omega
  have hmul : (2 * instrs.size + 1) * rs.length ≤ (2 * 65535 + 1) * 21845 :=
    Nat.mul_le_mul (by omega) hregions
  omega

theorem lower_compiles {pool : Pool} {bytes : Bytes} {instrs : Array Instruction}
    (hd : decode pool bytes = .ok instrs) (hbytes : bytes.length ≤ 65535) {tree : List Node}
    (hs : structureOf instrs = .ok tree) {resolver : Resolver} {maxSpan : Int} {m : Method}
    {types T : Array FuncType} {f : Function}
    (h : lower resolver maxSpan m instrs tree types = (.ok f, T)) (hT : T.size ≤ 2 ^ 32) :
    ∃ type typing L, Descriptor.parseMethod m.descriptor = .ok type ∧
      Compiled (.of resolver maxSpan instrs typing) type L T tree f := by
  have hasc := ascending_of_decode hd
  have hweight := weightOf_lt hd hbytes hs
  obtain ⟨htargets, -⟩ := (decode_tiles hd).targets_le
  unfold lower at h
  split at h
  · cases h
  next type typing hcheck =>
  obtain ⟨htype, htyping⟩ := check_eq_ok hcheck
  have htyped := stackTyping_typed hasc htyping
  have hparams := length_params_le htype
  dsimp only at h
  split at h
  · next f' s hbody =>
    cases h
    obtain ⟨u, s₁, h₁, hrest⟩ := bind_run_eq_ok hbody
    obtain ⟨v, s₂, h₂, hrest⟩ := bind_run_eq_ok hrest
    cases hrest
    have hctx : (Context.of resolver maxSpan instrs typing).Sound :=
      ⟨hasc, rfl, fun k stack hk => htyped.size ▸ StackTyping.lt_size_of_stackAt hk⟩
    have hfits : (Context.of resolver maxSpan instrs typing).Fits (2 * instrs.size) []
        (Node.weightOf (2 * instrs.size) tree) :=
      ⟨hctx, htyped.depth, by rw [List.length_nil]; omega⟩
    obtain ⟨hsound, hpar, -, htypes, -⟩ := Locals.ofParams_spec (type.params.map FieldType.kind)
    obtain ⟨he₁, code, hdone₁, hcode⟩ := nodes_compiles [] tree hfits _ _ _ h₁ hsound
    obtain ⟨he₂, last, hdone₂, hlast⟩ := emits_unreachable _ _ _ h₂ he₁.sound
    have hstart : (Locals.ofParams (type.params.map FieldType.kind)).types.size =
        type.params.length := by
      rw [htypes]
      simp
    have hlocals : s.locals.types.size < 2 ^ 32 := by
      have hsize₁ := he₁.size
      have hsize₂ := he₂.size
      dsimp only at hsize₁
      omega
    have hfinal : Final s s.locals s.types :=
      ⟨he₂.sound, .refl _, fun _ _ h => h, hlocals.le, hT⟩
    have hgrows := he₁.locals.trans he₂.locals
    obtain ⟨hstructured, hlands⟩ := structureOf_structured hasc hs
    refine ⟨type, typing, s.locals, htype, ⟨hctx, ?_, ?_, htyped, hlands⟩, hstructured, he₂.sound,
      hgrows, hlocals, ?_, code, last, ?_, hcode _ _ (hfinal.of_extends he₂), ?_⟩
    · exact fun i hi => ((decode_tiles hd).bounds (Array.mem_toList_iff.mpr hi)).2.1
    · change (instrs.toList.map fun i => i.op.branches.length).sum < 2 ^ 32
      omega
    · rw [Locals.expand_declarations hlocals, hgrows.params, hpar, List.length_map]
    · dsimp only
      rw [hdone₂, hdone₁]
      simp
    · refine (hlast _ _ hfinal).imp_left fun hl => ⟨hl, ?_⟩
      rintro rfl
      cases h₁
      cases h₂
      rw [hl] at hdone₂
      cases hdone₂
  · cases h

end Lowering

end ClassWasm
