/-
  A method and its code step by step. A point of the run of a method and a configuration of its code
  agree (`Pairing.Agrees`) where variables lie in the locals for their kinds and statics in their
  globals; the operand stack is on the stack, or in the locals of a loop that is branched to. The
  code of each instruction leads from one such pair to the next (`opCode_simulates`).
-/
import ClassWasm.Proofs.Lowering.BranchRuns

namespace ClassWasm

/-- Operations that neither compute with floating point numbers nor call a method. -/
def Operation.isIntegral : Operation → Bool
  | .arith (.float _) | .arith (.double _) | .invokeStatic _ => false
  | .convert c => c = .intToLong ∨ c = .longToInt
  | .compare c => c = .long
  | _ => true

/-- What the code at a point takes for granted: an increment finds an `int`, and a switch that
became a table with entries for the least to the greatest of its keys has one target for a key that
it lists twice. -/
structure Machine.Point.Regular (maxSpan : Int) (r : Machine.Routine) (p : Machine.Point) : Prop where
  increments : ∀ i slot delta v, r.instrs[p.pc]? = some i → i.op = .increment slot delta →
    p.frame.locals[slot.toNat]? = some v → v.kind = .int
  switches : ∀ i default cases key rest, r.instrs[p.pc]? = some i →
    i.op = .lookupSwitch default cases → p.frame.stack = .int key :: rest →
    Lowering.Dense maxSpan cases → cases.lookup key = cases.reverse.lookup key

namespace Lowering

open Machine (Setting Routine Program Point End Effect Store Statics staticKey)
open Wasm (Plain Instr Val Config FuncType Exec runPlain runPlain_cons)

/-- Two fields stand for one global exactly where they are one static. -/
def Resolver.Matches (r : Resolver) (p : Program) : Prop :=
  ∀ ref ref' g g' c c', r.global ref = some g → r.global ref' = some g' →
    p.fieldOwner ref = .ok c → p.fieldOwner ref' = .ok c' →
    (g = g' ↔ staticKey c ref = staticKey c' ref')

/-- Globals hold the statics that they stand for. -/
def Encodes (r : Resolver) (p : Program) (statics : Statics) (globals : List Val) : Prop :=
  ∀ ref g c, r.global ref = some g → p.fieldOwner ref = .ok c →
    globals[g.toNat]? = (statics.lookup (staticKey c ref)).map Value.toVal

/-- Variables lie in the locals for the kinds of what they hold. -/
def Variables (L : Locals) (vars : Array Value) (locals : List Val) : Prop :=
  ∀ (s : Nat) v, vars[s]? = some v → ∀ i, L.slots.lookup (s, v.kind) = some i →
    locals[i]? = some v.toVal

theorem Variables.set {L : Locals} (hL : L.Sound) {vars : Array Value} {locals : List Val}
    (h : Variables L vars locals) {slot l : Nat} {v : Value}
    (hl : L.slots.lookup (slot, v.kind) = some l) (hlt : l < locals.length) :
    Variables L (vars.setIfInBounds slot v) (locals.set l v.toVal) := by
  intro s u hu i hi
  by_cases hs : s = slot
  · subst hs
    rw [Array.getElem?_setIfInBounds_self] at hu
    split at hu
    · cases hu
      obtain rfl := Option.some.inj (hl.symm.trans hi)
      exact List.getElem?_set_self hlt
    · cases hu
  · have hne : l ≠ i := by
      rintro rfl
      exact hs (congrArg Prod.fst (hL.slots_apart _ _ _ hi hl))
    rw [Array.getElem?_setIfInBounds_ne (Ne.symm hs)] at hu
    rw [List.getElem?_set_ne hne]
    exact h s u hu i hi

theorem Encodes.set {r : Resolver} {p : Program} (hr : r.Matches p) {statics : Statics}
    {globals : List Val} (h : Encodes r p statics globals) {ref : MemberRef} {g : UInt32}
    {c : Machine.PreparedClass} (hg : r.global ref = some g) (hc : p.fieldOwner ref = .ok c)
    (v : Value) :
    Encodes r p (statics.set (staticKey c ref) v) (globals.set g.toNat v.toVal) := by
  intro ref' g' c' hg' hc'
  have hglobal := h ref' g' c' hg' hc'
  have hsame := hr ref' ref g' g c' c hg' hg hc' hc
  rw [Machine.lookup_set]
  by_cases hkey : staticKey c' ref' = staticKey c ref
  · obtain rfl := hsame.mpr hkey
    rw [if_pos hkey, List.getElem?_set_self', hglobal]
    cases statics.lookup (staticKey c' ref') <;> rfl
  · have hne : g.toNat ≠ g'.toNat := fun he => hkey (hsame.mp (UInt32.toNat_inj.mp he.symm))
    rw [if_neg hkey, List.getElem?_set_ne hne, hglobal]

/-- What a method that ends with a value leaves for its caller. -/
def returned (v : Value) : List Val := if v.kind = .void then [] else [v.toVal]

/-- The position that a branch to a construct leads to. -/
def Label.position : Label → Nat
  | loop start _ => start
  | block stop => stop

/-- A run of a method that comes to an end, and the code it is compared with. -/
structure Pairing where
  setting : Setting
  depth : Nat
  routine : Routine
  ending : End
  store : Store
  ctx : Context
  locals : Locals
  types : Array FuncType

namespace Pairing

/-- The code is that of the method. -/
structure Linked (x : Pairing) : Prop where
  instrs : x.routine.instrs = x.ctx.instrs
  offsets : x.routine.offsets = .ofInstructions x.ctx.instrs
  checked : x.ctx.Checked x.routine.result
  locals : x.locals.Sound
  integral : ∀ i ∈ x.ctx.instrs, i.op.isIntegral = true
  resolver : x.ctx.resolver.Matches x.setting.program

/-- The run goes on from a point in at most `n` steps. -/
def Ends (x : Pairing) (n : Nat) (p : Point) : Prop :=
  p.Ends x.setting x.depth x.routine n x.ending x.store

structure Agrees (x : Pairing) (p : Point) (c : Config) : Prop where
  kinds : x.ctx.stack? p.pc = some p.frame.kinds
  started : p.store.AllStarted x.setting.program
  fits : p.store.statics.Fit x.setting.program
  regular : ∀ q, p.Reaches x.setting x.routine q → q.Regular x.ctx.maxSpan x.routine
  vars : Variables x.locals p.frame.locals c.locals
  size : c.locals.length = x.locals.types.size
  globals : Encodes x.ctx.resolver x.setting.program p.store.statics c.globals

/-- The values of a loop can be kept in its locals. -/
def Ready (x : Pairing) : Label → Prop
  | .loop start ls => ∃ stack, x.ctx.stack? start = some stack ∧ Spilled x.locals ls stack.reverse
  | .block _ => True

/-- Code that stands inside the constructs `labels` and leads to position `b` has done its part of
the run, of which at most `n` steps were left. A branch has done at least one of them. -/
def Arrives (x : Pairing) (labels : List Label) (b n : Nat) : Wasm.Outcome × Config → Prop
  | (.next, c) => ∃ m ≤ n, ∃ q, x.Ends m q ∧ q.pc = b ∧ x.Agrees q c ∧
    c.stack = q.frame.stack.map Value.toVal
  | (.br d, c) => ∃ m < n, ∃ q l, x.Ends m q ∧ labels[d]? = some l ∧ l.position = q.pc ∧
    x.Agrees q c ∧ l.Carries q.frame.stack c
  | (.ret, c) => ∃ v rest, x.ending = .value v ∧ v.kind = x.routine.result ∧
    c.stack = returned v ++ rest ∧
    Encodes x.ctx.resolver x.setting.program x.store.statics c.globals
  | (.trap, _) => x.ending = .byZero

/-- Code inside the constructs `labels` does the part of the run from position `a` to `b`. -/
def Simulates (x : Pairing) (labels : List Label) (a b : Nat) (code : List Instr) : Prop :=
  ∀ n p c, p.pc = a → x.Ends n p → x.Agrees p c → c.stack = p.frame.stack.map Value.toVal →
    ∃ r, Exec x.types code c r ∧ x.Arrives labels b n r

/-- Where the instruction `i` comes next in the run and has the effect `eff`. -/
structure Faces (x : Pairing) (m : Nat) (p : Point) (c : Config) (i : Instruction) (eff : Effect) :
    Prop where
  agrees : x.Agrees p c
  stack : c.stack = p.frame.stack.map Value.toVal
  instr : x.ctx.instrs[p.pc]? = some i
  performs : Machine.perform x.setting (Machine.call x.setting m x.depth) x.routine p.pc p.frame i
    p.store = eff.result
  continues : eff.Then x.setting x.depth x.routine m x.ending x.store

/-- Straight code does the part of one instruction. -/
def Passes (x : Pairing) (labels : List Label) (m : Nat) (p : Point) (c : Config) (ps : List Plain) :
    Prop :=
  ∃ r, runPlain ps c = some r ∧ x.Arrives labels (p.pc + 1) (m + 1) r

theorem Agrees.keeps {x : Pairing} {p : Point} {c c' : Config} (h : x.Agrees p c)
    (hkeeps : Keeps x.locals c c') : x.Agrees p c' where
  kinds := h.kinds
  started := h.started
  fits := h.fits
  regular := h.regular
  vars s v hv i hi := by
    rw [hkeeps.slots _ i hi]
    exact h.vars s v hv i hi
  size := hkeeps.length.trans h.size
  globals := by
    rw [hkeeps.globals]
    exact h.globals

/-- A step of the run that changes nothing but the stack. -/
theorem Agrees.leads {x : Pairing} {p : Point} {c : Config} (h : x.Agrees p c) {k : Nat}
    {vs : List Value} (hq : p.Leads x.setting x.routine ⟨k, { p.frame with stack := vs }, p.store⟩)
    (hkinds : x.ctx.stack? k = some (vs.map Value.kind)) :
    x.Agrees ⟨k, { p.frame with stack := vs }, p.store⟩ c where
  kinds := hkinds
  started := h.started
  fits := h.fits
  regular q' hq' := h.regular q' (.head hq hq')
  vars := h.vars
  size := h.size
  globals := h.globals

section

variable {x : Pairing} (hx : x.Linked) {labels : List Label} {m : Nat} {p : Point} {c : Config}
  {i : Instruction} {eff : Effect} (h : x.Faces m p c i eff) {ps : List Plain} {out : List Kind}

include hx in
theorem Linked.leads {q : Point} (h : x.Faces m p c i (.goes q)) :
    p.Leads x.setting x.routine q :=
  ⟨i, m, x.depth, hx.instrs ▸ h.instr, h.performs⟩

include hx h

/-! ## Straight code -/

/-- An instruction that only changes the operand stack. -/
theorem Faces.straight {vs : List Value}
    (heff : eff = .goes ⟨p.pc + 1, { p.frame with stack := vs }, p.store⟩)
    (hnext : x.ctx.stack? (p.pc + 1) = some (vs.map Value.kind))
    (hps : Leaves x.locals ps c (vs.map Value.toVal)) : x.Passes labels m p c ps := by
  subst heff
  obtain ⟨c', hrun, hstack, hkeeps⟩ := hps
  have hagrees := (h.agrees.leads (hx.leads h) hnext).keeps hkeeps
  exact ⟨_, hrun, m, Nat.le_succ m, _, h.continues, rfl, hagrees, hstack⟩

omit hx in
theorem Faces.onFrame (hop : i.op.onFrame = true) : eff.OnFrame x.routine i p :=
  Machine.onFrame_of_perform hop h.performs

/-- An instruction that takes values off the stack and pushes one. -/
theorem Faces.pushes {v : Value} {vs : List Value} (hop : i.op.onFrame = true)
    (hs : Machine.step i.op p.frame = Machine.pushing v { p.frame with stack := vs })
    (hnext : x.ctx.stack? (p.pc + 1) = some (v.kind :: vs.map Value.kind))
    (hps : Leaves x.locals ps c (v.toVal :: vs.map Value.toVal)) : x.Passes labels m p c ps := by
  have heff : eff = .goes ⟨p.pc + 1, { p.frame with stack := v :: vs }, p.store⟩ :=
    (h.onFrame hop).pushing hs
  exact h.straight hx heff hnext hps

theorem Faces.arith {a : Arith} (hop : i.op = .arith a) (hint : i.op.isIntegral = true)
    (hps : ArithCode x.locals a ps)
    (hstep : StackTyping.step x.routine.result i.op p.frame.kinds = .ok out)
    (hnext : x.ctx.stack? (p.pc + 1) = some out) : x.Passes labels m p c ps := by
  rw [hop] at hstep hint
  obtain ⟨rest, hrest, rfl⟩ := map_eq_ok hstep
  obtain ⟨v, w, vs, htakes, rfl⟩ := Arith.takes_of_kinds (StackTyping.pop_eq_ok hrest)
  have hstack : c.stack = p.frame.stack.map Value.toVal ++ [] := by rw [h.stack, List.append_nil]
  have hcomputes : Computes x.locals ps c ((a.eval v w).map Value.toVal) (vs.map Value.toVal) := by
    rw [← List.append_nil (vs.map Value.toVal)]
    cases a with
    | int op => exact computes_int hx.locals hps htakes h.agrees.size hstack
    | long op => exact computes_long hx.locals hps htakes h.agrees.size hstack
    | float op | double op => cases hint
  have hs := Machine.step_arith htakes
  rw [← hop] at hs
  cases hv : a.eval v w with
  | none =>
    rw [hv] at hs hcomputes
    obtain ⟨-, rfl⟩ := (h.onFrame (by rw [hop]; rfl)).error hs
    obtain ⟨c', hrun⟩ := hcomputes
    exact ⟨_, hrun, h.continues.1⟩
  | some u =>
    rw [hv] at hs hcomputes
    have hvoid : a.kind ≠ .void := by cases a <;> exact nofun
    refine h.pushes hx (by rw [hop]; rfl) hs ?_ hcomputes
    rw [hnext, Arith.kind_eval hv, StackTyping.push, if_neg hvoid]

theorem Faces.constant {k : Constant} (hop : i.op = .const k)
    (hnext : x.ctx.stack? (p.pc + 1) = some (StackTyping.push k.kind p.frame.kinds)) :
    x.Passes labels m p c [constant k] := by
  have hs : Machine.step i.op p.frame = Machine.pushing (.ofConstant k) p.frame := by
    rw [hop]
    exact Machine.push_bind _ _
  have hvoid : k.kind ≠ .void := by cases k <;> exact nofun
  rw [StackTyping.push, if_neg hvoid] at hnext
  refine h.pushes hx (by rw [hop]; rfl) hs ?_ (.of_run ?_)
  · rw [hnext, Value.kind_ofConstant]
    rfl
  · rw [← h.stack]
    exact runPlain_cons (Value.toVal_ofConstant k c)

theorem Faces.load {kind : Kind} {slot : UInt16} (hop : i.op = .load kind slot) {l : UInt32}
    (hl : x.locals.slots.lookup (slot.toNat, kind) = some l.toNat)
    (hnext : x.ctx.stack? (p.pc + 1) = some (kind :: p.frame.kinds)) :
    x.Passes labels m p c [.localGet l] := by
  have hon := h.onFrame (by rw [hop]; rfl)
  have hs := Machine.step_load kind slot p.frame
  rw [← hop] at hs
  cases hv : p.frame.locals[slot.toNat]? with
  | none =>
    rw [hv] at hs
    cases (hon.error hs).1
  | some v =>
    rw [hv] at hs
    dsimp only at hs
    split at hs
    · next hk =>
      subst hk
      have hget := run_localGet (h.agrees.vars _ _ hv _ hl)
      rw [h.stack] at hget
      exact h.pushes hx (by rw [hop]; rfl) hs hnext (.of_run (runPlain_cons hget))
    · cases (hon.error hs).1

theorem Faces.convert {k : Conversion} (hop : i.op = .convert k) (hint : i.op.isIntegral = true)
    (hstep : StackTyping.step x.routine.result i.op p.frame.kinds = .ok out)
    (hnext : x.ctx.stack? (p.pc + 1) = some out) : x.Passes labels m p c (conversionCode k) := by
  rw [hop] at hstep hint
  obtain ⟨rest, hrest, rfl⟩ := map_eq_ok hstep
  obtain ⟨v, vs, hf, hv, rfl⟩ := List.map_eq_cons_iff.mp (StackTyping.pop_eq_ok hrest)
  have hs := Machine.step_convert hf hv
  rw [← hop] at hs
  have hcases : k = .intToLong ∨ k = .longToInt := by simpa [Operation.isIntegral] using hint
  have hstack : c.stack = v.toVal :: vs.map Value.toVal := by rw [h.stack, hf, List.map_cons]
  have hkind : (k.eval v).kind = k.target := by
    rcases hcases with rfl | rfl
    · obtain ⟨a, rfl⟩ := Value.int_of_kind hv
      rfl
    · obtain ⟨a, rfl⟩ := Value.long_of_kind hv
      rfl
  have hvoid : k.target ≠ .void := by cases k <;> decide
  refine h.pushes hx (by rw [hop]; rfl) hs ?_ (leaves_convert hcases hv hstack)
  rw [hnext, hkind, StackTyping.push, if_neg hvoid]

theorem Faces.narrow {k : Narrowing} (hop : i.op = .narrow k)
    (hstep : StackTyping.step x.routine.result i.op p.frame.kinds = .ok out)
    (hnext : x.ctx.stack? (p.pc + 1) = some out) : x.Passes labels m p c (narrowing k) := by
  rw [hop] at hstep
  obtain ⟨rest, hrest, rfl⟩ := map_eq_ok hstep
  obtain ⟨v, vs, hf, hv, rfl⟩ := List.map_eq_cons_iff.mp (StackTyping.pop_eq_ok hrest)
  obtain ⟨a, rfl⟩ := Value.int_of_kind hv
  have hs := Machine.step_narrow (n := k) hf
  rw [← hop] at hs
  have hstack : c.stack = .i32 a.toBitVec :: vs.map Value.toVal := by
    rw [h.stack, hf, List.map_cons, Value.toVal_int]
  refine h.pushes hx (by rw [hop]; rfl) hs hnext ?_
  rw [Value.toVal_int]
  exact leaves_narrow k a hstack

theorem Faces.compare {k : Comparison} (hop : i.op = .compare k) (hint : i.op.isIntegral = true)
    {a b : UInt32} (hab : TwoTemps x.locals (.ofKind k.kind) a b)
    (hstep : StackTyping.step x.routine.result i.op p.frame.kinds = .ok out)
    (hnext : x.ctx.stack? (p.pc + 1) = some out) : x.Passes labels m p c (comparison k a b) := by
  rw [hop] at hstep hint
  obtain rfl : k = .long := by simpa [Operation.isIntegral] using hint
  obtain ⟨rest, hrest, rfl⟩ := map_eq_ok hstep
  obtain ⟨w, vs, hf, hw, hvs⟩ := List.map_eq_cons_iff.mp (StackTyping.pop_eq_ok hrest)
  obtain ⟨v, vs, rfl, hv, rfl⟩ := List.map_eq_cons_iff.mp hvs
  have hs := Machine.step_compare hf hv hw
  rw [← hop] at hs
  obtain ⟨y, rfl⟩ := Value.long_of_kind hw
  obtain ⟨z, rfl⟩ := Value.long_of_kind hv
  have hstack : c.stack = .i64 y.toBitVec :: .i64 z.toBitVec :: vs.map Value.toVal := by
    rw [h.stack, hf]
    rfl
  refine h.pushes hx (by rw [hop]; rfl) hs hnext ?_
  rw [Value.toVal_int]
  exact leaves_compare hx.locals hab z y h.agrees.size hstack

theorem Faces.rearrange {op : StackOp} (hop : i.op = .stack op) {s : Shuffle}
    (hshuffle : Shuffle.of? op p.frame.kinds = some s) (hps : ShuffleCode x.locals s p.frame.kinds ps)
    (hnext : x.ctx.stack? (p.pc + 1) = some (s.apply p.frame.kinds)) :
    x.Passes labels m p c ps := by
  have hon := h.onFrame (by rw [hop]; rfl)
  rcases Machine.step_stack hshuffle with hs | ⟨f', hs⟩
  · rw [← hop] at hs
    refine h.straight hx (hon.next hs) ?_
      (leaves_shuffle hshuffle hps rfl h.agrees.size h.stack)
    rw [hnext, Shuffle.map_apply]
    rfl
  · rw [← hop] at hs
    cases (hon.error hs).1

theorem Faces.getStatic {ref : MemberRef} (hop : i.op = .getStatic ref) {g : UInt32}
    (hg : x.ctx.resolver.global ref = some g)
    (hstep : StackTyping.step x.routine.result i.op p.frame.kinds = .ok out)
    (hnext : x.ctx.stack? (p.pc + 1) = some out) : x.Passes labels m p c [.globalGet g] := by
  obtain ⟨owner, t, v, howner, ht, hv, hkind, heff⟩ :=
    Machine.getStatic_effect h.agrees.started h.agrees.fits h.performs hop
  rw [hop] at hstep
  obtain ⟨kind, hfield, rfl⟩ := map_eq_ok hstep
  obtain ⟨t', ht', rfl⟩ := StackTyping.fieldKind_eq_ok hfield
  obtain rfl := Except.ok.inj (ht.symm.trans ht')
  have hglobal := h.agrees.globals ref g owner hg howner
  rw [hv, Option.map_some] at hglobal
  refine h.straight hx heff ?_ (.of_run ?_)
  · rw [hnext, StackTyping.push, if_neg t.kind_ne_void, List.map_cons, hkind]
    rfl
  · simp [runPlain, hglobal, Config.next, h.stack]

/-! ## Variables and statics -/

/-- An instruction that gives a value to a variable. -/
theorem Faces.assigns {slot : Nat} {v : Value} {vs : List Value} {l : UInt32}
    (heff : eff = .goes ⟨p.pc + 1, { p.frame with
      stack := vs, locals := p.frame.locals.setIfInBounds slot v }, p.store⟩)
    (hnext : x.ctx.stack? (p.pc + 1) = some (vs.map Value.kind))
    (hl : x.locals.slots.lookup (slot, v.kind) = some l.toNat)
    (hrun : runPlain ps c = some (.next,
      { c with stack := vs.map Value.toVal, locals := c.locals.set l.toNat v.toVal })) :
    x.Passes labels m p c ps := by
  subst heff
  have hlt : l.toNat < c.locals.length := by
    rw [h.agrees.size]
    exact Locals.lt_size_of_type (hx.locals.slots _ _ hl)
  refine ⟨_, hrun, m, Nat.le_succ m, _, h.continues, rfl, ?_, rfl⟩
  exact
    { kinds := hnext
      started := h.agrees.started
      fits := h.agrees.fits
      regular := fun q hq => h.agrees.regular q (.head (hx.leads h) hq)
      vars := h.agrees.vars.set hx.locals hl hlt
      size := (List.length_set ..).trans h.agrees.size
      globals := h.agrees.globals }

theorem Faces.store {kind : Kind} {slot : UInt16} (hop : i.op = .store kind slot) {l : UInt32}
    (hl : x.locals.slots.lookup (slot.toNat, kind) = some l.toNat)
    (hstep : StackTyping.step x.routine.result i.op p.frame.kinds = .ok out)
    (hnext : x.ctx.stack? (p.pc + 1) = some out) : x.Passes labels m p c [.localSet l] := by
  rw [hop] at hstep
  obtain ⟨v, vs, hf, rfl, rfl⟩ := List.map_eq_cons_iff.mp (StackTyping.pop_eq_ok hstep)
  have hon := h.onFrame (by rw [hop]; rfl)
  have hs : Machine.step (.store v.kind slot) p.frame = _ := Machine.step_store hf rfl
  rw [← hop] at hs
  split at hs
  · cases (hon.error hs).1
  · have hstack : c.stack = v.toVal :: vs.map Value.toVal := by rw [h.stack, hf, List.map_cons]
    have hlt : l.toNat < c.locals.length := by
      rw [h.agrees.size]
      exact Locals.lt_size_of_type (hx.locals.slots _ _ hl)
    exact h.assigns hx (hon.next hs) hnext hl (runPlain_cons (run_localSet hstack hlt))

theorem Faces.increment {slot : UInt16} {delta : Int16} (hop : i.op = .increment slot delta)
    {l : UInt32} (hl : x.locals.slots.lookup (slot.toNat, .int) = some l.toNat)
    (hnext : x.ctx.stack? (p.pc + 1) = some p.frame.kinds) : x.Passes labels m p c
      [.localGet l, .i32Const delta.toInt32, .intBinary .w32 .add, .localSet l] := by
  have hon := h.onFrame (by rw [hop]; rfl)
  have hs := Machine.step_increment slot delta p.frame
  rw [← hop] at hs
  cases hv : p.frame.locals[slot.toNat]? with
  | none =>
    rw [hv] at hs
    cases (hon.error hs).1
  | some v =>
    rw [hv] at hs
    have hint := (h.agrees.regular p .refl).increments i slot delta v (hx.instrs ▸ h.instr) hop hv
    obtain ⟨a, rfl⟩ := Value.int_of_kind hint
    have hlocal := h.agrees.vars _ _ hv _ hl
    refine h.assigns hx (hon.next hs) hnext hl ?_
    rw [run_increment hlocal delta, h.stack]
    rfl

theorem Faces.putStatic {ref : MemberRef} (hop : i.op = .putStatic ref) {g : UInt32}
    (hg : x.ctx.resolver.global ref = some g)
    (hstep : StackTyping.step x.routine.result i.op p.frame.kinds = .ok out)
    (hnext : x.ctx.stack? (p.pc + 1) = some out) : x.Passes labels m p c [.globalSet g] := by
  rw [hop] at hstep
  obtain ⟨kind, hfield, hpop⟩ := bind_eq_ok.mp hstep
  obtain ⟨t, ht, rfl⟩ := StackTyping.fieldKind_eq_ok hfield
  obtain ⟨v, vs, hf, hv, rfl⟩ := List.map_eq_cons_iff.mp (StackTyping.pop_eq_ok hpop)
  obtain ⟨owner, howner, rfl⟩ :=
    Machine.putStatic_effect h.agrees.started h.agrees.fits h.performs hop ht hf hv
  obtain ⟨hmem, hstatic⟩ := Machine.fieldOwner_eq_ok howner
  obtain ⟨t', old, ht', hold, hkind⟩ := h.agrees.fits owner hmem ref hstatic
  obtain rfl := Except.ok.inj (ht.symm.trans ht')
  have hglobal := h.agrees.globals ref g owner hg howner
  rw [hold, Option.map_some] at hglobal
  have hlt : g.toNat < c.globals.length := (List.getElem?_eq_some_iff.mp hglobal).1
  have hrun : runPlain [.globalSet g] c = some (.next,
      { c with stack := vs.map Value.toVal, globals := c.globals.set g.toNat v.toVal }) := by
    have hstack : c.stack = v.toVal :: vs.map Value.toVal := by rw [h.stack, hf, List.map_cons]
    exact runPlain_cons (run_globalSet hstack hlt)
  refine ⟨_, hrun, m, Nat.le_succ m, _, h.continues, rfl, ?_, rfl⟩
  exact
    { kinds := hnext
      started := h.agrees.started
      fits := h.agrees.fits.set hold (hv.trans hkind.symm)
      regular := fun q hq => h.agrees.regular q (.head (hx.leads h) hq)
      vars := h.agrees.vars
      size := h.agrees.size
      globals := h.agrees.globals.set hx.resolver hg howner v }

/-! ## Control -/

omit hx in
theorem Faces.ret {kind : Kind} (hop : i.op = .ret kind)
    (hstep : StackTyping.step x.routine.result i.op p.frame.kinds = .ok out) :
    x.Passes labels m p c [.ret] := by
  have hon := h.onFrame (by rw [hop]; rfl)
  have hreturns {v : Value} {f : Frame} (rest : List Val)
      (hs : Machine.step i.op p.frame = .ok (.ret v) f) (hrest : c.stack = returned v ++ rest) :
      x.Passes labels m p c [.ret] := by
    obtain rfl := hon.ret hs
    obtain ⟨hend, hkind, hstore⟩ := h.continues
    exact ⟨_, rfl, v, rest, hend, hkind, hrest, hstore ▸ h.agrees.globals⟩
  by_cases hvoid : kind = .void
  · subst hvoid
    have hs : Machine.step i.op p.frame = .ok (.ret .void) p.frame := by
      rw [hop]
      rfl
    exact hreturns c.stack hs rfl
  · rw [hop] at hstep
    simp only [StackTyping.step, if_neg hvoid] at hstep
    split at hstep
    · cases hstep
    · obtain ⟨v, vs, hf, rfl, -⟩ := List.map_eq_cons_iff.mp (StackTyping.pop_eq_ok hstep)
      have hs := Machine.step_ret hf rfl hvoid
      rw [← hop] at hs
      refine hreturns (vs.map Value.toVal) hs ?_
      rw [h.stack, hf, returned, if_neg hvoid]
      rfl

omit h in
/-- A branch finds a construct that can take what it takes along. -/
theorem Linked.aims (hready : ∀ l ∈ labels, x.Ready l) {k t : Nat} {delta : Int32} {d : UInt32}
    {l : Label} (haims : Aims x.ctx labels k i delta d l)
    (hfind : x.routine.offsets.find? (i.absolute delta) = some t)
    (hout : x.ctx.stack? t = some out) :
    labels[d.toNat]? = some l ∧ l.position = t ∧ l.Accepts x.locals out ∧
      (k < t → ∃ stop, l = .block stop) := by
  rw [hx.offsets, OffsetTable.find?_ofInstructions hx.checked.ascending] at hfind
  obtain ⟨hl, hserves⟩ := haims t hfind
  have hl' := hready l (List.mem_of_getElem? hl)
  cases l with
  | loop start ls =>
    simp only [Label.serves, Bool.and_eq_true, decide_eq_true_eq] at hserves
    obtain ⟨hback, rfl⟩ := hserves
    obtain ⟨stack, hstack, hls⟩ := hl'
    obtain rfl := Option.some.inj (hstack.symm.trans hout)
    exact ⟨hl, rfl, hls, fun hlt => absurd hback (by omega)⟩
  | block stop =>
    simp only [Label.serves, Bool.and_eq_true, decide_eq_true_eq] at hserves
    exact ⟨hl, hserves.2, trivial, fun _ => ⟨stop, rfl⟩⟩

/-- The branches of the instruction lead to where control arrives with the stack `out`. -/
def Lands (x : Pairing) (k : Nat) (i : Instruction) (out : List Kind) : Prop :=
  ∀ delta ∈ i.op.branches, ∃ t, x.routine.offsets.find? (i.absolute delta) = some t ∧
    x.ctx.stack? t = some out ∧ (i.op.isSwitch = true → k < t)

theorem Faces.jumps {t : Nat} {vs : List Value}
    (heff : eff = .goes ⟨t, { p.frame with stack := vs }, p.store⟩)
    (hout : x.ctx.stack? t = some (vs.map Value.kind)) {d : UInt32} {l : Label}
    (hl : labels[d.toNat]? = some l) (ht : l.position = t) {c' : Config}
    (hrun : runPlain ps c = some (.br d.toNat, c')) (hkeeps : Keeps x.locals c c')
    (hcarries : l.Carries vs c') : x.Passes labels m p c ps := by
  subst heff
  have hagrees := (h.agrees.leads (hx.leads h) hout).keeps hkeeps
  exact ⟨_, hrun, m, Nat.lt_succ_self m, _, l, h.continues, hl, ht, hagrees, hcarries⟩

theorem Faces.goto (hready : ∀ l ∈ labels, x.Ready l) {delta : Int32} (hop : i.op = .goto delta)
    {d : UInt32} {l : Label} (haims : Aims x.ctx labels p.pc i delta d l)
    (hlands : x.Lands p.pc i p.frame.kinds) :
    x.Passes labels m p c (spillCode l.spilled ++ [.br d]) := by
  obtain ⟨t, hfind, hout, -⟩ := hlands delta (by rw [hop]; exact List.mem_cons_self)
  obtain ⟨hl, ht, haccepts, -⟩ := hx.aims hready haims hfind hout
  obtain ⟨c', hrun, hcarries, hkeeps⟩ := run_jump haccepts d h.agrees.size h.stack
  have hs : Machine.step i.op p.frame = .ok (.jump delta) p.frame := by
    rw [hop]
    rfl
  obtain ⟨t', hfind', heff⟩ := (h.onFrame (by rw [hop]; rfl)).jump hs
  obtain rfl := Option.some.inj (hfind.symm.trans hfind')
  exact h.jumps hx heff hout hl ht hrun hkeeps hcarries

theorem Faces.branch (hready : ∀ l ∈ labels, x.Ready l) {cond : Condition} {delta : Int32}
    (hop : i.op = .branch cond delta) {d : UInt32} {l : Label}
    (haims : Aims x.ctx labels p.pc i delta d l) (hps : BranchCode x.locals cond d l ps)
    (hstep : StackTyping.step x.routine.result i.op p.frame.kinds = .ok out)
    (hlands : x.Lands p.pc i out) (hnext : x.ctx.stack? (p.pc + 1) = some out) :
    x.Passes labels m p c ps := by
  obtain ⟨t, hfind, hout, -⟩ := hlands delta (by rw [hop]; exact List.mem_cons_self)
  obtain ⟨hl, ht, haccepts, -⟩ := hx.aims hready haims hfind hout
  rw [hop] at hstep
  have hkinds := StackTyping.pop_eq_ok hstep
  have hrest : (p.frame.stack.drop (StackTyping.conditionOperands cond).length).map Value.kind =
      out := by
    rw [List.map_drop]
    exact (congrArg _ hkinds).trans List.drop_left
  obtain ⟨c', hkeeps, hrun⟩ := run_branchIf hx.locals hps hkinds haccepts h.agrees.size h.stack rfl
  have hs := Machine.step_branch (t := delta) hkinds
  rw [← hop] at hs
  have hon := h.onFrame (by rw [hop]; rfl)
  rw [← hrest] at hout hnext
  split at hrun
  · next htest =>
    rw [if_pos htest] at hs
    obtain ⟨t', hfind', heff⟩ := hon.jump hs
    obtain rfl := Option.some.inj (hfind.symm.trans hfind')
    exact h.jumps hx heff hout hl ht hrun.1 hkeeps hrun.2
  · next htest =>
    rw [if_neg htest] at hs
    exact h.straight hx (hon.next hs) hnext ⟨c', hrun.1, hrun.2, hkeeps⟩

/-- A switch goes to a block behind it. -/
theorem Faces.selects (hready : ∀ l ∈ labels, x.Ready l) (hop : i.op.isSwitch = true)
    {delta : Int32} (hdelta : delta ∈ i.op.branches) {vs : List Value}
    (hs : Machine.step i.op p.frame = .ok (.jump delta) { p.frame with stack := vs })
    (hlands : x.Lands p.pc i (vs.map Value.kind)) {d : UInt32} {l : Label}
    (haims : Aims x.ctx labels p.pc i delta d l) {c' : Config}
    (hrun : runPlain ps c = some (.br d.toNat, c')) (hstack : c'.stack = vs.map Value.toVal)
    (hkeeps : Keeps x.locals c c') : x.Passes labels m p c ps := by
  obtain ⟨t, hfind, hout, hforward⟩ := hlands delta hdelta
  obtain ⟨hl, ht, -, hblock⟩ := hx.aims hready haims hfind hout
  obtain ⟨stop, rfl⟩ := hblock (hforward hop)
  have honFrame : i.op.onFrame = true := by
    generalize i.op = op at hop
    cases op with
    | tableSwitch | lookupSwitch => rfl
    | _ => cases hop
  obtain ⟨t', hfind', heff⟩ := (h.onFrame honFrame).jump hs
  obtain rfl := Option.some.inj (hfind.symm.trans hfind')
  exact h.jumps hx heff hout hl ht hrun hkeeps hstack

theorem Faces.tableSwitch (hready : ∀ l ∈ labels, x.Ready l) {default low : Int32}
    {ts : List Int32} (hop : i.op = .tableSwitch default low ts) {ds : List UInt32} {d : UInt32}
    {l : Label} (hds : List.Forall₂ (fun t d => ∃ l, Aims x.ctx labels p.pc i t d l) ts ds)
    (haims : Aims x.ctx labels p.pc i default d l)
    (hstep : StackTyping.step x.routine.result i.op p.frame.kinds = .ok out)
    (hlands : x.Lands p.pc i out) : x.Passes labels m p c (rebase low ++ [.brTable ds d]) := by
  have hwf := hx.checked.wellFormed i (Array.mem_of_getElem? h.instr)
  rw [hop] at hstep hwf
  obtain ⟨v, vs, hf, hv, rfl⟩ := List.map_eq_cons_iff.mp (StackTyping.pop_eq_ok hstep)
  obtain ⟨key, rfl⟩ := Value.int_of_kind hv
  have hs : Machine.step (.tableSwitch default low ts) p.frame = _ := Machine.step_tableSwitch hf
  rw [← hop] at hs
  have hstack : c.stack = .i32 key.toBitVec :: vs.map Value.toVal := by
    rw [h.stack, hf, List.map_cons, Value.toVal_int]
  obtain ⟨l', haims'⟩ := tableTarget_rel hwf hds ⟨l, haims⟩ key
  refine h.selects hx hready (by rw [hop]; rfl) ?_ hs hlands haims' (run_table low key ds d hstack)
    rfl (.refl c _)
  rw [hop]
  exact Machine.tableTarget_mem default low ts key

theorem Faces.lookupSwitch (hready : ∀ l ∈ labels, x.Ready l) {default : Int32}
    {cases : List (Int32 × Int32)} (hop : i.op = .lookupSwitch default cases) {ds : List UInt32}
    {d : UInt32} {l : Label}
    (hds : List.Forall₂ (fun c d => ∃ l, Aims x.ctx labels p.pc i c.2 d l) cases ds)
    (haims : Aims x.ctx labels p.pc i default d l)
    (hps : LookupCode x.locals x.ctx.maxSpan d ((cases.map Prod.fst).zip ds) ps)
    (hstep : StackTyping.step x.routine.result i.op p.frame.kinds = .ok out)
    (hlands : x.Lands p.pc i out) : x.Passes labels m p c ps := by
  rw [hop] at hstep
  obtain ⟨v, vs, hf, hv, rfl⟩ := List.map_eq_cons_iff.mp (StackTyping.pop_eq_ok hstep)
  obtain ⟨key, rfl⟩ := Value.int_of_kind hv
  have hs : Machine.step (.lookupSwitch default cases) p.frame = _ := Machine.step_lookupSwitch hf
  rw [← hop] at hs
  have hstack : c.stack = .i32 key.toBitVec :: vs.map Value.toVal := by
    rw [h.stack, hf, List.map_cons, Value.toVal_int]
  have honce := (h.agrees.regular p .refl).switches i default cases key vs (hx.instrs ▸ h.instr) hop hf
  obtain ⟨d', c', hrun, ⟨l', haims'⟩, hstack', hkeeps⟩ := run_spanTarget hx.locals
    (R := fun t d => ∃ l, Aims x.ctx labels p.pc i t d l) hps hds ⟨l, haims⟩ h.agrees.size hstack
  rw [spanTarget_eq honce] at haims'
  refine h.selects hx hready (by rw [hop]; rfl) ?_ hs hlands haims' hrun hstack' hkeeps
  rw [hop]
  exact Machine.lookupTarget_mem default cases key

end

end Pairing

/-- The code of an instruction does what the instruction does. -/
theorem opCode_simulates {x : Pairing} (hx : x.Linked) {labels : List Label}
    (hready : ∀ l ∈ labels, x.Ready l) {k : Nat} {i : Instruction} {stack : List Kind}
    {ps : List Plain} (hi : x.ctx.instrs[k]? = some i) (hk : x.ctx.stack? k = some stack)
    (hcode : OpCode x.ctx x.locals labels k i stack ps) :
    x.Simulates labels k (k + 1) (ps.map .plain) := by
  intro n p c hpc hends hagrees hstack
  subst hpc
  obtain ⟨m, i', eff, rfl, hi', hperforms, hcontinues⟩ := hends.cases
  rw [hx.instrs, hi] at hi'
  cases hi'
  have h : x.Faces m p c i eff := ⟨hagrees, hstack, hi, hperforms, hcontinues⟩
  obtain rfl := Option.some.inj (hk.symm.trans hagrees.kinds)
  obtain ⟨out, hstep, htargets, hnext⟩ := hx.checked.follows hi hk
  have hlands : x.Lands p.pc i out := by
    intro delta hdelta
    obtain ⟨t, hstart, hout, hforward⟩ := htargets delta hdelta
    rw [hx.offsets]
    exact ⟨t, (OffsetTable.find?_ofInstructions hx.checked.ascending).mpr hstart, hout, hforward⟩
  have hmem := Array.mem_of_getElem? hi
  have hint := hx.integral i hmem
  have hwf := hx.checked.wellFormed i hmem
  suffices hpasses : x.Passes labels m p c ps by
    obtain ⟨r, hrun, harrives⟩ := hpasses
    exact ⟨r, .plain hrun, harrives⟩
  unfold OpCode at hcode
  cases hop : i.op with
  | nop =>
    rw [hop] at hcode hstep hnext
    cases hstep
    obtain rfl := hcode
    have hs : Machine.step i.op p.frame = .ok .next p.frame := by
      rw [hop]
      rfl
    have heff := (h.onFrame (by rw [hop]; rfl)).next hs
    exact h.straight hx heff (hnext rfl) ⟨c, rfl, hstack, .refl c c.stack⟩
  | const v =>
    rw [hop] at hcode hstep hnext
    cases hstep
    obtain rfl := hcode
    exact h.constant hx hop (hnext rfl)
  | load kind s =>
    rw [hop] at hcode hstep hnext hwf
    cases hstep
    obtain ⟨l, hl, rfl⟩ := hcode
    have hnext := hnext rfl
    rw [StackTyping.push, if_neg hwf] at hnext
    exact h.load hx hop hl hnext
  | store kind s =>
    rw [hop] at hcode hnext
    obtain ⟨l, hl, rfl⟩ := hcode
    exact h.store hx hop hl hstep (hnext rfl)
  | increment s delta =>
    rw [hop] at hcode hstep hnext
    cases hstep
    obtain ⟨l, hl, rfl⟩ := hcode
    exact h.increment hx hop hl (hnext rfl)
  | arith a =>
    rw [hop] at hcode hnext
    exact h.arith hx hop hint hcode hstep (hnext rfl)
  | convert v =>
    rw [hop] at hcode hnext
    obtain rfl := hcode
    exact h.convert hx hop hint hstep (hnext rfl)
  | narrow v =>
    rw [hop] at hcode hnext
    obtain rfl := hcode
    exact h.narrow hx hop hstep (hnext rfl)
  | compare v =>
    rw [hop] at hcode hnext
    obtain ⟨a, b, hab, rfl⟩ := hcode
    exact h.compare hx hop hint hab hstep (hnext rfl)
  | stack op =>
    rw [hop] at hcode hstep hnext
    obtain ⟨s, hshuffle, hps⟩ := hcode
    simp only [StackTyping.step, hshuffle] at hstep
    cases hstep
    exact h.rearrange hx hop hshuffle hps (hnext rfl)
  | getStatic ref =>
    rw [hop] at hcode hnext
    obtain ⟨g, hg, rfl⟩ := hcode
    exact h.getStatic hx hop hg hstep (hnext rfl)
  | putStatic ref =>
    rw [hop] at hcode hnext
    obtain ⟨g, hg, rfl⟩ := hcode
    exact h.putStatic hx hop hg hstep (hnext rfl)
  | invokeStatic ref =>
    rw [hop] at hint
    cases hint
  | ret kind =>
    rw [hop] at hcode
    obtain rfl := hcode
    exact h.ret hop hstep
  | goto delta =>
    rw [hop] at hcode hstep
    cases hstep
    obtain ⟨d, l, haims, rfl⟩ := hcode
    exact h.goto hx hready hop haims hlands
  | branch cond delta =>
    rw [hop] at hcode hnext
    obtain ⟨d, l, haims, hps⟩ := hcode
    exact h.branch hx hready hop haims hps hstep hlands (hnext rfl)
  | tableSwitch default low ts =>
    rw [hop] at hcode
    obtain ⟨ds, d, l, hds, haims, rfl⟩ := hcode
    exact h.tableSwitch hx hready hop hds haims hstep hlands
  | lookupSwitch default cases =>
    rw [hop] at hcode
    obtain ⟨ds, d, l, hds, haims, hps⟩ := hcode
    exact h.lookupSwitch hx hready hop hds haims hps hstep hlands

end Lowering

end ClassWasm
