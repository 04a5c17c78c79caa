/-
  What lowering adds: function types that constructs need, each once, and instructions. It moves
  none of the types that are there, also where it fails further on. Of the instructions, those that
  name a function or global stand for references of instructions that control reaches
  (`lower_adds`). `Adds ok` relates states between which only instructions of `ok` come in.
-/
import ClassWasm.Lowering
import ClassWasm.Proofs.Results

namespace ClassWasm

namespace Wasm

/-! ## Types -/

/-- All types stand where they stood, and where none stood twice none does. -/
structure Extended (T T' : Array FuncType) : Prop where
  kept : T.toList <+: T'.toList
  distinct : T.toList.Nodup → T'.toList.Nodup

theorem Extended.refl (T : Array FuncType) : Extended T T := ⟨List.prefix_rfl, id⟩

theorem Extended.trans {T T' T'' : Array FuncType} (h : Extended T T') (h' : Extended T' T'') :
    Extended T T'' := ⟨h.kept.trans h'.kept, h'.distinct ∘ h.distinct⟩

theorem Extended.getElem? {T T' : Array FuncType} (h : Extended T T') {i : Nat} {f : FuncType}
    (hi : T[i]? = some f) : T'[i]? = some f := by
  rw [← Array.getElem?_toList] at hi ⊢
  exact getElem?_of_prefix h.kept hi

theorem internType_extended (T : Array FuncType) (f : FuncType) :
    Extended T (internType T f).2 := by
  unfold internType
  split
  · exact .refl T
  · next hnew =>
    have hf : f ∉ T.toList := by
      intro hmem
      have := Array.findIdx?_eq_none_iff.mp hnew f (Array.mem_toList_iff.mp hmem)
      simp at this
    refine ⟨?_, fun hnodup => ?_⟩
    · rw [Array.toList_push]
      exact List.prefix_append _ _
    · rw [Array.toList_push]
      exact List.nodup_append.mpr ⟨hnodup, List.nodup_singleton f, by
        rintro a ha b hb rfl
        exact hf (List.mem_singleton.mp hb ▸ ha)⟩

/-! ## Instructions -/

/-- Whether an instruction names no function or global. -/
def Plain.isLocal : Plain → Bool
  | .call _ | .globalGet _ | .globalSet _ => false
  | _ => true

mutual

/-- The instructions that hold no others, also those inside constructs. -/
def Instr.plains : Instr → List Plain
  | .plain p => [p]
  | .block _ body | .loop _ body | .ifThen _ body => Instr.plainsOf body
  | .ifElse _ body other => Instr.plainsOf body ++ Instr.plainsOf other

def Instr.plainsOf : List Instr → List Plain
  | [] => []
  | i :: is => i.plains ++ Instr.plainsOf is

end

theorem Instr.mem_plainsOf {p : Plain} {is : List Instr} :
    p ∈ Instr.plainsOf is ↔ ∃ i ∈ is, p ∈ i.plains := by
  induction is with
  | nil => simp [Instr.plainsOf]
  | cons i is ih => simp [Instr.plainsOf, ih]

theorem Instr.mem_plainsOf_reverse {p : Plain} {is : List Instr} :
    p ∈ Instr.plainsOf is.reverse ↔ p ∈ Instr.plainsOf is := by
  simp only [Instr.mem_plainsOf, List.mem_reverse]

end Wasm

namespace Lowering

open Wasm (Plain Instr ValType)

/-- Types have been extended, and the instructions that have come in are of `ok`. -/
structure Adds (ok : Plain → Prop) (s s' : State) : Prop where
  types : Wasm.Extended s.types s'.types
  done : ∀ p ∈ Instr.plainsOf s'.done, p ∈ Instr.plainsOf s.done ∨ ok p

section

variable {ok : Plain → Prop}

instance : Std.Refl (Adds ok) := ⟨fun s => ⟨.refl s.types, fun _ => .inl⟩⟩

instance : IsTrans State (Adds ok) :=
  ⟨fun _ _ _ h h' => ⟨h.types.trans h'.types, fun p hp => (h'.done p hp).elim (h.done p) .inr⟩⟩

theorem adds_withLocals {α : Type} (f : Locals → α × Locals) : Moves (Adds ok) (withLocals f) :=
  moves_modifyGet fun s => ⟨.refl s.types, fun _ => .inl⟩

theorem adds_setDead (dead : Bool) : Moves (Adds ok) (setDead dead) :=
  moves_modify fun s => ⟨.refl s.types, fun _ => .inl⟩

theorem adds_emit {i : Instr} (hi : ∀ p ∈ i.plains, ok p) : Moves (Adds ok) (emit i) :=
  moves_modify fun s => ⟨.refl s.types, fun p hp => (List.mem_append.mp hp).symm.imp_right (hi p)⟩

theorem adds_temp (t : ValType) (n : Nat) : Moves (Adds ok) (temp t n) := adds_withLocals _

theorem adds_slot (s : UInt16) (k : Kind) : Moves (Adds ok) (slot s k) := adds_withLocals _

theorem adds_twoTemps (t : ValType) : Moves (Adds ok) (twoTemps t) :=
  (adds_temp t 0).bind fun _ => (adds_temp t 1).bind fun _ => moves_pure _

theorem adds_blockType (kinds : List Kind) : Moves (Adds ok) (blockType kinds) := by
  unfold blockType
  split
  · exact moves_pure _
  · exact moves_pure _
  · exact moves_modifyGet fun s => ⟨Wasm.internType_extended s.types _, fun _ => .inl⟩

theorem adds_freshAll (kinds : List Kind) : Moves (Adds ok) (freshAll kinds) := by
  induction kinds with
  | nil => exact moves_pure []
  | cons k ks ih => exact (adds_withLocals _).bind fun _ => ih.bind fun _ => moves_pure _

theorem adds_tempsFor (used : List ValType) (kinds : List Kind) :
    Moves (Adds ok) (tempsFor used kinds) := by
  induction kinds generalizing used with
  | nil => exact moves_pure []
  | cons k ks ih => exact (adds_withLocals _).bind fun _ => (ih _).bind fun _ => moves_pure _

theorem adds_found {α : Type} (fail : OpError → Error) (x : Except OpError α) :
    Moves (Adds ok) (found fail x) := by
  unfold found
  split
  · exact moves_pure _
  · exact moves_throw _

theorem nested_bind {α : Type} (inner : M Unit) (finish : List Instr → M α) (s : State) :
    (nested inner >>= finish) s = match inner { s with done := [], dead := false } with
      | .ok _ s' => finish s'.done.reverse { s' with done := s.done }
      | .error e s' => .error e s' := by
  change EStateM.bind (EStateM.bind inner _) finish _ = _
  unfold EStateM.bind
  cases inner { s with done := [], dead := false } <;> rfl

/-- What comes in within a part of a construct is of `ok`, and the part is left without a trace. -/
theorem Adds.nested {α : Type} {inner : M Unit} {finish : List Instr → M α}
    (h : Moves (Adds ok) inner)
    (hfinish : ∀ body, (∀ p ∈ Instr.plainsOf body, ok p) → Moves (Adds ok) (finish body)) :
    Moves (Adds ok) (nested inner >>= finish) := by
  intro s
  rw [nested_bind]
  have hinner := h { s with done := [], dead := false }
  have hadded {s' : State} (hs' : Adds ok { s with done := [], dead := false } s') :
      ∀ p ∈ Instr.plainsOf s'.done, ok p :=
    fun p hp => (hs'.done p hp).resolve_left List.not_mem_nil
  cases hin : inner { s with done := [], dead := false } with
  | error e s' =>
    rw [hin] at hinner
    exact ⟨hinner.types, fun p hp => .inr (hadded hinner p hp)⟩
  | ok u s' =>
    rw [hin] at hinner
    have hleft : Adds ok s { s' with done := s.done } := ⟨hinner.types, fun _ => .inl⟩
    have hrest := hfinish s'.done.reverse
      (fun p hp => hadded hinner p (Instr.mem_plainsOf_reverse.mp hp)) { s' with done := s.done }
    dsimp only
    cases hf : finish s'.done.reverse { s' with done := s.done } <;> rw [hf] at hrest <;>
      exact IsTrans.trans _ _ _ hleft hrest

end

/-! ## Instructions that name no member -/

theorem local_constant (c : Constant) : (constant c).isLocal = true := by
  cases c <;> rfl

theorem local_divide (w : Wasm.Width) (a b : UInt32) :
    (divide w a b).all Plain.isLocal = true := by
  cases w <;> rfl

theorem local_arithOpcode {k : Kind} {op : IntOp} {p : Plain} (h : arithOpcode k op = .ok p) :
    p.isLocal = true := by
  unfold arithOpcode at h
  split at h <;> cases h
  next h =>
    cases k with
    | int | long =>
      obtain ⟨i, -, rfl⟩ := Option.map_eq_some_iff.mp h
      rfl
    | float | double => cases op <;> cases h <;> rfl
    | ref | void => cases h

theorem local_conversionOpcode {source target : Kind} {p : Plain}
    (h : conversionOpcode source target = .ok p) : p.isLocal = true := by
  unfold conversionOpcode at h
  split at h <;> cases h
  next h =>
    unfold conversionOpcode? at h
    split at h <;> cases h <;> rfl

theorem local_narrowing (n : Narrowing) : (narrowing n).all Plain.isLocal = true := by
  cases n <;> rfl

theorem local_comparison (c : Comparison) (a b : UInt32) :
    (comparison c a b).all Plain.isLocal = true := by
  cases c with
  | long => rfl
  | float nanGreater | double nanGreater => cases nanGreater <;> rfl

theorem local_condition (c : Condition) : (condition c).all Plain.isLocal = true := by
  cases c with
  | isNull | isNonNull => rfl
  | zero r | compare r => cases r <;> rfl

section

variable {ok : Plain → Prop} (hlocal : ∀ p, p.isLocal = true → ok p)

include hlocal

theorem adds_local {p : Plain} (hp : p.isLocal = true) : Moves (Adds ok) (emit (.plain p)) :=
  adds_emit fun _ hq => List.mem_singleton.mp hq ▸ hlocal p hp

theorem adds_emitAll {ps : List Plain} (hps : ps.all Plain.isLocal = true) :
    Moves (Adds ok) (emitAll ps) := by
  induction ps with
  | nil => exact moves_modify fun s => Std.Refl.refl s
  | cons p ps ih =>
    obtain ⟨hp, hps⟩ := Bool.and_eq_true_iff.mp (List.all_cons ▸ hps)
    exact (adds_local hlocal hp).bind fun _ => ih hps

theorem adds_unreachable : Moves (Adds ok) unreachable := by
  refine moves_get.bind fun s => ?_
  split
  · exact (adds_local hlocal rfl).bind fun _ => adds_setDead true
  · exact moves_pure ()

theorem adds_spill (ls : List UInt32) : Moves (Adds ok) (spill ls) :=
  adds_emitAll hlocal (List.all_eq_true.mpr fun p hp => by
    obtain ⟨l, -, rfl⟩ := List.mem_map.mp hp
    rfl)

theorem adds_reload (ls : List UInt32) : Moves (Adds ok) (reload ls) :=
  adds_emitAll hlocal (List.all_eq_true.mpr fun p hp => by
    obtain ⟨l, -, rfl⟩ := List.mem_map.mp hp
    rfl)

theorem adds_spillFresh (kinds : List Kind) : Moves (Adds ok) (spillFresh kinds) :=
  (adds_freshAll kinds).bind fun ls => (adds_spill hlocal ls).bind fun _ => moves_pure _

theorem adds_spillBelow (kinds : List Kind) : Moves (Adds ok) (spillBelow kinds) := by
  unfold spillBelow
  split
  · exact moves_pure []
  · exact (adds_temp .i32 0).bind fun _ => (adds_local hlocal rfl).bind fun _ =>
      (adds_spillFresh hlocal _).bind fun _ => (adds_local hlocal rfl).bind fun _ => moves_pure _

theorem adds_close (ctx : Context) (stop : Nat) {i : Instr} (hi : ∀ p ∈ i.plains, ok p) :
    Moves (Adds ok) (close ctx stop i) := by
  refine (adds_emit hi).bind fun _ => (adds_setDead false).bind fun _ => ?_
  split
  · exact adds_unreachable hlocal
  · exact moves_pure ()

/-- An instruction that is looked up. -/
theorem adds_lookup (fail : OpError → Error) {x : Except OpError Plain}
    (hx : ∀ p, x = .ok p → p.isLocal = true) :
    Moves (Adds ok) (found fail x >>= fun p => emit (.plain p)) := by
  cases x with
  | error e => exact moves_throw (fail e)
  | ok p => exact adds_local hlocal (hx p rfl)

theorem adds_arith (fail : OpError → Error) (k : Kind) (op : IntOp) :
    Moves (Adds ok) (arith fail k op) := by
  have hlookup := adds_lookup hlocal fail fun p (hp : arithOpcode k op = .ok p) =>
    local_arithOpcode hp
  unfold arith
  split
  · exact (adds_twoTemps _).bind fun _ => adds_emitAll hlocal (local_divide _ _ _)
  · next w _ =>
    refine adds_emitAll hlocal ?_
    cases w <;> rfl
  · dsimp only
    split
    · exact (adds_local hlocal rfl).bind fun _ => hlookup
    · exact hlookup

theorem adds_convert (fail : OpError → Error) (source target : Kind) :
    Moves (Adds ok) (convert fail source target) :=
  adds_lookup hlocal fail fun _ => local_conversionOpcode

theorem adds_rearrange (s : Shuffle) (stack : List Kind) : Moves (Adds ok) (rearrange s stack) := by
  unfold rearrange
  split
  · refine adds_emitAll hlocal (List.all_eq_true.mpr fun p hp => ?_)
    rw [List.eq_of_mem_replicate hp]
    rfl
  · exact (adds_tempsFor _ _).bind fun ls => (adds_spill hlocal ls).bind fun _ =>
      adds_reload hlocal _

theorem adds_jump (target : UInt32 × Label) : Moves (Adds ok) (jump target) :=
  (adds_spill hlocal _).bind fun _ => (adds_local hlocal rfl).bind fun _ => adds_setDead true

theorem adds_branchIf (c : Condition) (target : UInt32 × Label) :
    Moves (Adds ok) (branchIf c target) := by
  refine (adds_emitAll hlocal (local_condition c)).bind fun _ => ?_
  split
  · exact adds_local hlocal rfl
  · exact (adds_temp .i32 0).bind fun _ => (adds_local hlocal rfl).bind fun _ =>
      (adds_spill hlocal _).bind fun _ => (adds_emitAll hlocal rfl).bind fun _ =>
        adds_reload hlocal _

theorem adds_table (low : Int32) (ds : List UInt32) (d : UInt32) :
    Moves (Adds ok) (emitAll (rebase low ++ [.brTable ds d])) := by
  refine adds_emitAll hlocal ?_
  unfold rebase
  split <;> rfl

theorem adds_lookupSwitch (maxSpan : Int) (default : UInt32) (cases : List (Int32 × UInt32)) :
    Moves (Adds ok) (lookupSwitch maxSpan default cases) := by
  unfold lookupSwitch
  split
  · exact (adds_emitAll hlocal rfl).bind fun _ => adds_setDead true
  · dsimp only
    split
    · split
      · exact moves_throw _
      · exact (adds_table hlocal _ _ _).bind fun _ => adds_setDead true
    · refine (adds_temp .i32 0).bind fun key => Moves.bind (adds_emitAll hlocal ?_) fun _ =>
        adds_setDead true
      simp [comparisonChain, Plain.isLocal]

end

/-! ## Instructions that name members -/

/-- The instruction stands for a reference of an instruction that control reaches. -/
inductive Context.Names (ctx : Context) : Plain → Prop
  | get {k : Nat} {i : Instruction} {ref : MemberRef} {g : UInt32} : ctx.instrs[k]? = some i →
    (ctx.stack? k).isSome = true → i.op = .getStatic ref → ctx.resolver.global ref = some g →
    Names ctx (.globalGet g)
  | set {k : Nat} {i : Instruction} {ref : MemberRef} {g : UInt32} : ctx.instrs[k]? = some i →
    (ctx.stack? k).isSome = true → i.op = .putStatic ref → ctx.resolver.global ref = some g →
    Names ctx (.globalSet g)
  | call {k : Nat} {i : Instruction} {ref : MemberRef} {f : UInt32} : ctx.instrs[k]? = some i →
    (ctx.stack? k).isSome = true → i.op = .invokeStatic ref → ctx.resolver.function ref = some f →
    Names ctx (.call f)

section

variable {ok : Plain → Prop} (hlocal : ∀ p, p.isLocal = true → ok p) {ctx : Context}
  (hnames : ∀ p, ctx.Names p → ok p)

include hlocal hnames

omit hnames in
theorem adds_branching (labels : List Label) (k : Nat) (i : Instruction) :
    Moves (Adds ok) (branching ctx labels k i) := by
  unfold branching
  dsimp only
  split
  · exact (adds_found _ _).bind fun _ => adds_jump hlocal _
  · exact (adds_found _ _).bind fun _ => adds_branchIf hlocal _ _
  · exact (moves_mapM (fun _ => adds_found _ _) _).bind fun _ => (adds_found _ _).bind fun _ =>
      (adds_table hlocal _ _ _).bind fun _ => adds_setDead true
  · exact (adds_found _ _).bind fun _ => (moves_mapM (fun _ => adds_found _ _) _).bind fun _ =>
      adds_lookupSwitch hlocal _ _ _
  · exact moves_throw _

theorem adds_operation (labels : List Label) {k : Nat} {i : Instruction} {stack : List Kind}
    (hi : ctx.instrs[k]? = some i) (hk : ctx.stack? k = some stack) :
    Moves (Adds ok) (operation ctx labels k i stack) := by
  have hreached : (ctx.stack? k).isSome = true := by rw [hk]; rfl
  have hnamed {p : Plain} (hp : ctx.Names p) : Moves (Adds ok) (emit (.plain p)) :=
    adds_emit fun _ hq => List.mem_singleton.mp hq ▸ hnames p hp
  unfold operation
  dsimp only
  split
  case h_1 => exact moves_pure ()
  case h_2 => exact adds_local hlocal (local_constant _)
  case h_3 | h_4 => exact (adds_slot _ _).bind fun _ => adds_local hlocal rfl
  case h_5 => exact (adds_slot _ _).bind fun _ => adds_emitAll hlocal rfl
  case h_6 => exact adds_arith hlocal _ _ _
  case h_7 => exact adds_convert hlocal _ _ _
  case h_8 => exact adds_emitAll hlocal (local_narrowing _)
  case h_9 =>
    exact (adds_twoTemps _).bind fun _ => adds_emitAll hlocal (local_comparison _ _ _)
  case h_10 =>
    split
    · exact adds_rearrange hlocal _ _
    · exact moves_throw _
  case h_11 ref hop =>
    split
    · next g hg => exact hnamed (.get hi hreached hop hg)
    · exact moves_throw _
  case h_12 ref hop =>
    split
    · next g hg => exact hnamed (.set hi hreached hop hg)
    · exact moves_throw _
  case h_13 ref hop =>
    split
    · next f hf => exact hnamed (.call hi hreached hop hf)
    · exact moves_throw _
  case h_14 => exact (adds_local hlocal rfl).bind fun _ => adds_setDead true
  case h_15 => exact adds_branching hlocal labels k i

end

/-! ## Trees -/

mutual

theorem adds_node {ok : Plain → Prop} (hlocal : ∀ p, p.isLocal = true → ok p) {ctx : Context}
    (hnames : ∀ p, ctx.Names p → ok p) (labels : List Label) (n : Node) :
    Moves (Adds ok) (node ctx labels n) := by
  match n with
  | .op k =>
    unfold node
    split
    · next i stack hi hk => exact adds_operation hlocal hnames labels hi hk
    · exact adds_unreachable hlocal
  | .loop start stop body =>
    unfold node
    split
    · exact adds_unreachable hlocal
    · refine (adds_spillFresh hlocal _).bind fun ls => (adds_blockType _).bind fun _ => ?_
      refine Adds.nested ?_ fun inner hinner => adds_close hlocal _ _ hinner
      exact (adds_reload hlocal _).bind fun _ => adds_nodes hlocal hnames _ body
  | .block start stop .conditional body =>
    unfold node
    split
    · exact adds_unreachable hlocal
    · refine (adds_emitAll hlocal (local_condition _)).bind fun _ =>
        (adds_spillBelow hlocal _).bind fun ls => (adds_blockType _).bind fun _ => ?_
      refine Adds.nested ?_ fun inner hinner => ?_
      · exact (adds_reload hlocal _).bind fun _ => adds_nodes hlocal hnames _ body
      · split
        · exact adds_close hlocal _ _ hinner
        · refine Adds.nested (adds_reload hlocal _) fun other hother => adds_close hlocal _ _ ?_
          exact fun p hp => (List.mem_append.mp hp).elim (hinner p) (hother p)
  | .block start stop .plain body | .block start stop .wrapper body =>
    unfold node
    split
    · exact adds_unreachable hlocal
    · refine (adds_spillFresh hlocal _).bind fun ls => (adds_blockType _).bind fun _ => ?_
      refine Adds.nested ?_ fun inner hinner => adds_close hlocal _ _ hinner
      exact (adds_reload hlocal _).bind fun _ => adds_nodes hlocal hnames _ body

theorem adds_nodes {ok : Plain → Prop} (hlocal : ∀ p, p.isLocal = true → ok p) {ctx : Context}
    (hnames : ∀ p, ctx.Names p → ok p) (labels : List Label) (ns : List Node) :
    Moves (Adds ok) (nodes ctx labels ns) := by
  match ns with
  | [] =>
    unfold nodes
    exact moves_pure ()
  | n :: ns =>
    unfold nodes
    exact (adds_node hlocal hnames labels n).bind fun _ => adds_nodes hlocal hnames labels ns

end

/-! ## Whole methods -/

/-- What may come in while a context is lowered. -/
def Context.Allows (ctx : Context) (p : Plain) : Prop := p.isLocal = true ∨ ctx.Names p

theorem adds_body (ctx : Context) (tree : List Node) : Moves (Adds ctx.Allows) (body ctx tree) :=
  (adds_nodes (fun _ => .inl) (fun _ => .inr) [] tree).bind fun _ =>
    (adds_unreachable fun _ => .inl).bind fun _ => moves_get.bind fun _ => moves_pure _

/-- The code of a body is what has come in. -/
theorem body_eq_ok {ctx : Context} {tree : List Node} {s s' : State} {f : Function}
    (h : body ctx tree s = .ok f s') : f.body = s'.done.reverse := by
  obtain ⟨_, s₁, -, h⟩ := run_bind_eq_ok.mp h
  obtain ⟨_, s₂, -, h⟩ := run_bind_eq_ok.mp h
  cases h
  rfl

end Lowering

open Lowering

/-- Lowering only adds types. In the code, every instruction that names a function or global stands
for a reference of an instruction that control reaches. -/
theorem lower_adds (resolver : Lowering.Resolver) (maxSpan : Int) (m : Method)
    (instrs : Array Instruction) (tree : List Node) (types : Array Wasm.FuncType) :
    Wasm.Extended types (lower resolver maxSpan m instrs tree types).2 ∧
    ∀ f, (lower resolver maxSpan m instrs tree types).1 = .ok f → ∃ type typing,
      check m instrs = .ok (type, typing) ∧ ∀ p ∈ Wasm.Instr.plainsOf f.body,
        Context.Allows ⟨instrs, .ofInstructions instrs, typing, resolver,
          if maxSpan ≤ 0 then defaultMaxSpan else maxSpan⟩ p := by
  unfold lower
  cases hcheck : check m instrs with
  | error e => exact ⟨.refl types, nofun⟩
  | ok typed =>
    obtain ⟨type, typing⟩ := typed
    dsimp only
    have hbody := adds_body
      ⟨instrs, .ofInstructions instrs, typing, resolver,
        if maxSpan ≤ 0 then defaultMaxSpan else maxSpan⟩ tree
      ⟨Locals.ofParams (type.params.map FieldType.kind), types, [], false⟩
    split at hbody
    · next f s hrun =>
      rw [hrun]
      refine ⟨hbody.types, ?_⟩
      rintro _ ⟨⟩
      refine ⟨type, typing, rfl, fun p hp => ?_⟩
      rw [body_eq_ok hrun, Wasm.Instr.mem_plainsOf_reverse] at hp
      exact (hbody.done p hp).resolve_left List.not_mem_nil
    · next e s hrun =>
      rw [hrun]
      exact ⟨hbody.types, nofun⟩

theorem lower_extended (resolver : Lowering.Resolver) (maxSpan : Int) (m : Method)
    (instrs : Array Instruction) (tree : List Node) (types : Array Wasm.FuncType) :
    Wasm.Extended types (lower resolver maxSpan m instrs tree types).2 :=
  (lower_adds resolver maxSpan m instrs tree types).1

end ClassWasm
