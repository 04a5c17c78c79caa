/-
  Code of single operations on integers, and of comparisons. From operands of the right kinds it
  leaves what the operation leaves, with everything below as it was; it traps exactly where the
  operation divides by zero; and it sets no locals but scratch ones and the one of a variable that
  is incremented (`operation_exact`). Nothing is assumed of how floating point numbers compare.
-/
import ClassWasm.Proofs.Lowering.Progress
import ClassWasm.Proofs.Lowering.StraightRuns
import ClassWasm.Proofs.Wasm.FloatOrder

namespace ClassWasm

/-- What operations on integers and comparisons take off the stack, the topmost first. -/
def Operation.operands? : Operation → Option (List Kind)
  | arith (.int op) => some (StackTyping.arithOperands (.int op))
  | arith (.long op) => some (StackTyping.arithOperands (.long op))
  | convert .intToLong => some [.int]
  | convert .longToInt => some [.long]
  | narrow _ => some [.int]
  | compare c => some [c.kind, c.kind]
  | increment .. => some []
  | _ => none

theorem Operation.branches_of_operands {op : Operation} {ks : List Kind}
    (h : op.operands? = some ks) : op.branches = [] := by
  cases op <;> first | rfl | cases h

theorem Value.float_of_kind {v : Value} (h : v.kind = .float) : ∃ bits, v = .float bits := by
  cases v with
  | float bits => exact ⟨bits, rfl⟩
  | _ => cases h

theorem Value.double_of_kind {v : Value} (h : v.kind = .double) : ∃ bits, v = .double bits := by
  cases v with
  | double bits => exact ⟨bits, rfl⟩
  | _ => cases h

/-! ## Division by zero -/

theorem IntOp.eval32_eq_none {op : IntOp} {a b : Int32} (h : op.eval32 a b = none) : b = 0 := by
  cases op with
  | div | rem => simpa [eval32] using h
  | _ => cases h

theorem IntOp.eval64_eq_none {op : IntOp} {a b : Int64} (h : op.eval64 a b = none) : b = 0 := by
  cases op with
  | div | rem => simpa [eval64] using h
  | _ => cases h

theorem Arith.Takes.append {op : Arith} {stack rest : List Value} {v w : Value}
    (h : op.Takes stack v w rest) (vs : List Value) : op.Takes (stack ++ vs) v w (rest ++ vs) := by
  unfold Takes at h ⊢
  split at h
  · next hunary =>
    obtain ⟨rfl, hvw, hk⟩ := h
    rw [if_pos hunary]
    exact ⟨rfl, hvw, hk⟩
  · next hunary =>
    obtain ⟨rfl, hv, hw⟩ := h
    rw [if_neg hunary]
    exact ⟨rfl, hv, hw⟩

theorem Arith.Takes.head {op : Arith} {stack rest : List Value} {v w : Value}
    (h : op.Takes stack v w rest) : stack.head? = some w := by
  unfold Takes at h
  split at h <;> rw [h.1] <;> rfl

/-- Arithmetic on operands of the right kinds fails only for a divisor of zero. -/
theorem Arith.eval_eq_none {op : Arith} {stack rest : List Value} {v w : Value}
    (h : op.Takes stack v w rest) (hv : op.eval v w = none) : w = .zero op.kind := by
  unfold eval at hv
  split at hv
  · exact congrArg Value.int (IntOp.eval32_eq_none (Option.map_eq_none_iff.mp hv))
  · exact congrArg Value.long (IntOp.eval64_eq_none (Option.map_eq_none_iff.mp hv))
  · next op a n =>
    -- Only shifts have such operands.
    unfold Takes at h
    split at h
    · cases h.2.1
    · obtain ⟨-, -, hkind⟩ := h
      cases op with
      | shl | shr | ushr => cases hv
      | _ => cases hkind
  · cases hv
  · cases hv
  · cases hv

theorem Machine.stepIn_compare {order : FloatOrder} {c : Comparison} {f : Frame} {v w : Value}
    {rest : List Value} (hf : f.stack = w :: v :: rest) (hv : v.kind = c.kind)
    (hw : w.kind = c.kind) : stepIn order (.compare c) f =
      pushing (.int (c.evalIn order v w)) { f with stack := rest } := by
  simp only [stepIn]
  rw [popTwo_bind hf hv hw, push_bind]

namespace Lowering

open Wasm (Plain Val ValType Width Config Answer FloatCompare runPlain runPlainIn runPlainIn_append
  runPlainIn_of_run locals_of_runPlainIn targets)

variable {order : FloatOrder} {L : Locals} {c : Config} {rest : List Val} {ps : List Plain}

/-! ## Runs under an order -/

/-- Straight code computes a value under an order, or traps where there is none. -/
def ComputesIn (order : FloatOrder) (L : Locals) (ps : List Plain) (c : Config) (v : Option Val)
    (rest : List Val) : Prop :=
  match v with
  | some v => ∃ c', runPlainIn order ps c = some (.next, c') ∧ c'.stack = v :: rest ∧ Keeps L c c'
  | none => ∃ c', runPlainIn order ps c = some (.trap, c')

theorem Computes.under {v : Option Val} (h : Computes L ps c v rest) (order : FloatOrder) :
    ComputesIn order L ps c v rest := by
  cases v with
  | none =>
    obtain ⟨c', hrun⟩ := h
    exact ⟨c', runPlainIn_of_run hrun⟩
  | some v =>
    obtain ⟨c', hrun, hstack, hkeeps⟩ := h
    exact ⟨c', runPlainIn_of_run hrun, hstack, hkeeps⟩

/-- The tests of a floating point comparison, once its operands lie in locals. -/
theorem run_floatTests {w : Wasm.Width} {nanGreater : Bool} {a b : UInt32} {x y : Val}
    {after globals : List Val} {o : Option Ordering} {k : Comparison}
    (hk : k.unordered = if nanGreater then 1 else -1)
    (ha : after[a.toNat]? = some x) (hb : after[b.toNat]? = some y)
    (htest : ∀ test stack, (Plain.floatCompare w test).runIn? order ⟨y :: x :: stack, after, globals⟩ =
      some (.next, ⟨.ofBool (test.holds o) :: stack, after, globals⟩)) :
    runPlainIn order ((if nanGreater then
        relate (.floatCompare w .le) a b ++ [Plain.i32Eqz] ++ relate (.floatCompare w .lt) a b
      else relate (.floatCompare w .gt) a b ++ relate (.floatCompare w .ge) a b ++ [Plain.i32Eqz]) ++
        [Plain.intBinary .w32 .sub]) ⟨rest, after, globals⟩ =
      some (.next, ⟨.i32 (k.ofOrdering o).toBitVec :: rest, after, globals⟩) := by
  have hrelate (test : FloatCompare) (stack : List Val) :
      runPlainIn order (relate (.floatCompare w test) a b) ⟨stack, after, globals⟩ =
        some (.next, ⟨.ofBool (test.holds o) :: stack, after, globals⟩) := by
    have hget : (Plain.localGet a).runIn? order ⟨stack, after, globals⟩ =
        some (.next, ⟨x :: stack, after, globals⟩) := Plain.runIn?_of_run (run_localGet ha)
    have hget' : (Plain.localGet b).runIn? order ⟨x :: stack, after, globals⟩ =
        some (.next, ⟨y :: x :: stack, after, globals⟩) := Plain.runIn?_of_run (run_localGet hb)
    simp only [relate, runPlainIn, hget, hget', htest]
  cases nanGreater with
  | true =>
    simp only [if_true, List.append_assoc]
    rw [runPlainIn_append (hrelate _ _)]
    have heqz : runPlainIn order [.i32Eqz] ⟨.ofBool (FloatCompare.le.holds o) :: rest, after, globals⟩ =
        some (.next, ⟨.ofBool (!FloatCompare.le.holds o) :: rest, after, globals⟩) := by
      cases FloatCompare.le.holds o <;> rfl
    rw [runPlainIn_append heqz, runPlainIn_append (hrelate _ _)]
    cases o with
    | none =>
      rw [Comparison.ofOrdering, hk]
      rfl
    | some o => cases o <;> rfl
  | false =>
    simp only [Bool.false_eq_true, if_false, List.append_assoc]
    rw [runPlainIn_append (hrelate _ _), runPlainIn_append (hrelate _ _)]
    cases o with
    | none =>
      rw [Comparison.ofOrdering, hk]
      rfl
    | some o => cases o <;> rfl

/-- Tests of two operands, which scratch locals take first. -/
theorem computesIn_tests (hL : L.Sound) {t : ValType} {a b : UInt32} (h : TwoTemps L t a b)
    {x y : Val} {v : BitVec 32} (hsize : c.locals.length = L.types.size)
    (hc : c.stack = y :: x :: rest)
    (hrun : ∀ after, after[a.toNat]? = some x → after[b.toNat]? = some y →
      runPlainIn order ps ⟨rest, after, c.globals⟩ =
        some (.next, ⟨.i32 v :: rest, after, c.globals⟩)) :
    ComputesIn order L ([Plain.localSet b, Plain.localSet a] ++ ps) c (some (.i32 v)) rest := by
  obtain ⟨stack, locals, globals⟩ := c
  obtain rfl := hc
  obtain ⟨after, hset, ha, hb, hkeeps⟩ := run_twoTemps hL h x y hsize
  refine ⟨⟨_, after, globals⟩, ?_, rfl, hkeeps _⟩
  rw [runPlainIn_append (runPlainIn_of_run hset)]
  exact hrun after ha hb

theorem computesIn_compare (hL : L.Sound) {k : Comparison} {a b : UInt32}
    (h : TwoTemps L (.ofKind k.kind) a b) {v w : Value} (hv : v.kind = k.kind)
    (hw : w.kind = k.kind) (hsize : c.locals.length = L.types.size)
    (hc : c.stack = w.toVal :: v.toVal :: rest) (order : FloatOrder) :
    ComputesIn order L (comparison k a b) c (some (Value.int (k.evalIn order v w)).toVal) rest := by
  rw [Value.toVal_int]
  cases k with
  | long =>
    obtain ⟨x, rfl⟩ := Value.long_of_kind hv
    obtain ⟨y, rfl⟩ := Value.long_of_kind hw
    exact Computes.under (v := some _) (leaves_compare hL h x y hsize hc) order
  | float nanGreater =>
    obtain ⟨x, rfl⟩ := Value.float_of_kind hv
    obtain ⟨y, rfl⟩ := Value.float_of_kind hw
    rw [Value.toVal_float, Value.toVal_float] at hc
    rw [comparison, List.append_assoc]
    exact computesIn_tests hL h hsize hc fun after ha hb =>
      run_floatTests rfl ha hb fun test stack => rfl
  | double nanGreater =>
    obtain ⟨x, rfl⟩ := Value.double_of_kind hv
    obtain ⟨y, rfl⟩ := Value.double_of_kind hw
    rw [comparison, List.append_assoc]
    exact computesIn_tests hL h hsize hc fun after ha hb =>
      run_floatTests rfl ha hb fun test stack => rfl

/-! ## Locals that are set -/

/-- The locals that the code of an operation may set: scratch locals, and the one of a variable that
is incremented. -/
def Sets (L : Locals) (op : Operation) (j : Nat) : Prop :=
  (∃ t n, L.IsTemp t n j) ∨
    ∃ slot delta, op = .increment slot delta ∧ L.slots.lookup (slot.toNat, .int) = some j

theorem targets_intCode (w : Width) (op : IntOp) (a b : UInt32) :
    targets (intCode w op a b) = if op = .div then [b.toNat, a.toNat] else [] := by
  cases w <;> cases op <;> rfl

theorem targets_comparison (k : Comparison) (a b : UInt32) :
    targets (comparison k a b) = [b.toNat, a.toNat] := by
  cases k with
  | long => rfl
  | float nanGreater | double nanGreater => cases nanGreater <;> rfl

theorem TwoTemps.sets {t : ValType} {a b : UInt32} (h : TwoTemps L t a b) (op : Operation)
    {j : Nat} (hj : j ∈ [b.toNat, a.toNat]) : Sets L op j := by
  rw [List.mem_pair] at hj
  rcases hj with rfl | rfl
  · exact .inl ⟨t, 1, h.2⟩
  · exact .inl ⟨t, 0, h.1⟩

theorem OpCode.sets {ctx : Context} {labels : List Label} {k : Nat} {i : Instruction}
    {stack ks : List Kind} (hop : i.op.operands? = some ks) (h : OpCode ctx L labels k i stack ps)
    {j : Nat} (hj : j ∈ targets ps) : Sets L i.op j := by
  unfold OpCode at h
  revert hop h
  generalize i.op = op
  intro hop h
  cases op with
  | arith a =>
    have hdivide {w : Width} {t : ValType} {op : IntOp} {x y : UInt32}
        (hxy : op = .div → TwoTemps L t x y) (hj : j ∈ targets (intCode w op x y)) :
        Sets L (.arith a) j := by
      rw [targets_intCode] at hj
      split at hj
      · next hdiv => exact (hxy hdiv).sets _ hj
      · cases hj
    cases a with
    | int op =>
      obtain ⟨x, y, hxy, rfl⟩ := arithCode_int h
      exact hdivide hxy hj
    | long op =>
      obtain ⟨x, y, hxy, rfl⟩ := arithCode_long h
      exact hdivide hxy hj
    | float | double => cases hop
  | convert k =>
    subst h
    cases k <;> cases hj
  | narrow n =>
    subst h
    cases n <;> cases hj
  | compare k =>
    obtain ⟨a, b, hab, rfl⟩ := h
    rw [targets_comparison] at hj
    exact hab.sets _ hj
  | increment slot delta =>
    obtain ⟨l, hl, rfl⟩ := h
    obtain rfl : j = l.toNat := List.mem_singleton.mp hj
    exact .inr ⟨slot, delta, rfl, hl⟩
  | _ => cases hop

/-! ## Operations and their code -/

/-- The variable that the operation increments has its low word in its local for an `int`. -/
def Incremented (L : Locals) (op : Operation) (f : Frame) (c : Config) : Prop :=
  ∀ slot delta, op = .increment slot delta → ∃ v l, f.locals[slot.toNat]? = some v ∧
    L.slots.lookup (slot.toNat, .int) = some l ∧ c.locals[l]? = some (Value.int v.lowInt).toVal

/-- What an operation does with operands above `vs`, and its code from `c` with what stands for them
above `rest`. Both leave the same in their place, or the operation divides by zero and the code
traps. -/
def Mirrors (L : Locals) (op : Operation) (operands vs : List Value) (c : Config)
    (rest : List Val) : EStateM.Result Machine.Stop Frame Machine.Control → Answer → Prop
  | .ok .next f, some (.next, c') => c'.globals = c.globals ∧ Incremented L op f c' ∧
    ∃ results, f.stack = results ++ vs ∧ c'.stack = results.map Value.toVal ++ rest
  | .error e _, some (.trap, _) =>
    e = .error Machine.divisionByZero ∧ ∃ k, operands.head? = some (.zero k)
  | _, _ => False

section

variable {op : Operation} {f : Frame} {operands vs : List Value}

/-- An operation that pushes a value, where there is one. -/
theorem mirrors_pushes (hop : ∀ slot delta, op ≠ .increment slot delta) {v : Option Value}
    (hstep : Machine.stepIn order op f = match v with
      | some u => Machine.pushing u { f with stack := vs }
      | none => .error (.error Machine.divisionByZero) { f with stack := vs })
    (hroom : vs.length < f.maxStack) (hcode : ComputesIn order L ps c (v.map Value.toVal) rest)
    (hzero : v = none → ∃ k, operands.head? = some (.zero k)) :
    Mirrors L op operands vs c rest (Machine.stepIn order op f) (runPlainIn order ps c) := by
  rw [hstep]
  cases v with
  | none =>
    obtain ⟨c', hrun⟩ := hcode
    rw [hrun]
    exact ⟨rfl, hzero rfl⟩
  | some u =>
    obtain ⟨c', hrun, hstack, hkeeps⟩ := hcode
    dsimp only
    rw [hrun, Machine.pushing, if_neg (Nat.not_le.mpr hroom)]
    exact ⟨hkeeps.globals, fun slot delta h => absurd h (hop slot delta), [u], rfl, hstack⟩

variable (hL : L.Sound) (hf : f.stack = operands ++ vs)
  (hroom : operands ≠ [] → vs.length < f.maxStack) (hsize : c.locals.length = L.types.size)
  (hc : c.stack = operands.map Value.toVal ++ rest)

include hf hc

theorem mirrors_increment {slot : UInt16} {delta : Int16} {l : UInt32}
    (hl : L.slots.lookup (slot.toNat, .int) = some l.toNat) (hks : operands.map Value.kind = [])
    (hvar : Incremented L (.increment slot delta) f c) :
    Mirrors L (.increment slot delta) operands vs c rest
      (Machine.stepIn order (.increment slot delta) f) (runPlainIn order
        [.localGet l, .i32Const delta.toInt32, .intBinary .w32 .add, .localSet l] c) := by
  obtain rfl := List.map_eq_nil_iff.mp hks
  obtain ⟨v, l', hv, hl', hlocal⟩ := hvar slot delta rfl
  obtain rfl := Option.some.inj (hl.symm.trans hl')
  obtain ⟨hslot, -⟩ := Array.getElem?_eq_some_iff.mp hv
  have hlt : l.toNat < c.locals.length := (List.getElem?_eq_some_iff.mp hlocal).1
  have hstep : Machine.stepIn order (.increment slot delta) f = _ :=
    Machine.step_increment slot delta f
  rw [hstep, hv, runPlainIn_of_run (run_increment hlocal delta)]
  refine ⟨rfl, ?_, [], hf, hc⟩
  rintro _ _ ⟨⟩
  refine ⟨.int (v.lowInt + delta.toInt32), l.toNat, ?_, hl, List.getElem?_set_self hlt⟩
  exact Array.getElem?_setIfInBounds_self_of_lt hslot

include hroom

theorem mirrors_convert {k : Conversion} (hk : k = .intToLong ∨ k = .longToInt)
    (hks : operands.map Value.kind = [k.source]) :
    Mirrors L (.convert k) operands vs c rest (Machine.stepIn order (.convert k) f)
      (runPlainIn order (conversionCode k) c) := by
  obtain ⟨v, rfl, hv⟩ := List.map_eq_singleton_iff.mp hks
  have hcode : Computes L (conversionCode k) c (some (k.eval v).toVal) rest := leaves_convert hk hv hc
  exact mirrors_pushes (v := some (k.eval v)) nofun (Machine.step_convert hf hv)
    (hroom (List.cons_ne_nil _ _)) (hcode.under order) nofun

theorem mirrors_narrow (n : Narrowing) (hks : operands.map Value.kind = [.int]) :
    Mirrors L (.narrow n) operands vs c rest (Machine.stepIn order (.narrow n) f)
      (runPlainIn order (narrowing n) c) := by
  obtain ⟨v, rfl, hv⟩ := List.map_eq_singleton_iff.mp hks
  obtain ⟨a, rfl⟩ := Value.int_of_kind hv
  have hcode : Computes L (narrowing n) c (some (Value.int (n.eval a)).toVal) rest := by
    rw [Value.toVal_int]
    exact leaves_narrow n a (by rw [hc, List.map_singleton, Value.toVal_int]; rfl)
  exact mirrors_pushes (v := some (.int (n.eval a))) nofun (Machine.step_narrow hf)
    (hroom (List.cons_ne_nil _ _)) (hcode.under order) nofun

include hL hsize

theorem mirrors_compare {k : Comparison} {a b : UInt32} (hab : TwoTemps L (.ofKind k.kind) a b)
    (hks : operands.map Value.kind = [k.kind, k.kind]) :
    Mirrors L (.compare k) operands vs c rest (Machine.stepIn order (.compare k) f)
      (runPlainIn order (comparison k a b) c) := by
  obtain ⟨w, vs', rfl, hw, hrest⟩ := List.map_eq_cons_iff.mp hks
  obtain ⟨v, rfl, hv⟩ := List.map_eq_singleton_iff.mp hrest
  exact mirrors_pushes (v := some (.int (k.evalIn order v w))) nofun
    (Machine.stepIn_compare hf hv hw) (hroom (List.cons_ne_nil _ _))
    (computesIn_compare hL hab hv hw hsize hc order) nofun

theorem mirrors_arith {a : Arith}
    (ha : (Operation.arith a).operands? = some (StackTyping.arithOperands a))
    (hps : ArithCode L a ps) (hks : operands.map Value.kind = StackTyping.arithOperands a) :
    Mirrors L (.arith a) operands vs c rest (Machine.stepIn order (.arith a) f)
      (runPlainIn order ps c) := by
  have hkinds : operands.map Value.kind = StackTyping.arithOperands a ++ [] := by
    rw [hks, List.append_nil]
  obtain ⟨v, w, rest', htakes, hrest⟩ := Arith.takes_of_kinds hkinds
  obtain rfl := List.map_eq_nil_iff.mp hrest
  have hcode : Computes L ps c ((a.eval v w).map Value.toVal) rest := by
    cases a with
    | int op => exact computes_int hL hps htakes hsize hc
    | long op => exact computes_long hL hps htakes hsize hc
    | float | double => cases ha
  have hne : operands ≠ [] := by
    rintro rfl
    cases htakes.head
  refine mirrors_pushes nofun (Machine.step_arith (hf ▸ htakes.append vs)) (hroom hne)
    (hcode.under order) fun hnone => ?_
  exact ⟨a.kind, Arith.eval_eq_none htakes hnone ▸ htakes.head⟩

theorem OpCode.mirrors {ctx : Context} {labels : List Label} {k : Nat} {i : Instruction}
    {stack ks : List Kind} (hop : i.op.operands? = some ks) (h : OpCode ctx L labels k i stack ps)
    (hks : operands.map Value.kind = ks) (hvar : Incremented L i.op f c) :
    Mirrors L i.op operands vs c rest (Machine.stepIn order i.op f) (runPlainIn order ps c) := by
  unfold OpCode at h
  revert hop h hvar
  generalize i.op = op
  intro hop h hvar
  cases op with
  | arith a =>
    obtain rfl : StackTyping.arithOperands a = ks := by
      cases a with
      | int | long => exact Option.some.inj hop
      | float | double => cases hop
    exact mirrors_arith hL hf hroom hsize hc hop h hks
  | convert k =>
    subst h
    cases k with
    | intToLong =>
      cases hop
      exact mirrors_convert hf hroom hc (.inl rfl) hks
    | longToInt =>
      cases hop
      exact mirrors_convert hf hroom hc (.inr rfl) hks
    | _ => cases hop
  | narrow n =>
    cases hop
    subst h
    exact mirrors_narrow hf hroom hc n hks
  | compare k =>
    cases hop
    obtain ⟨a, b, hab, rfl⟩ := h
    exact mirrors_compare hL hf hroom hsize hc hab hks
  | increment slot delta =>
    cases hop
    obtain ⟨l, hl, rfl⟩ := h
    exact mirrors_increment hf hc hl hks hvar
  | _ => cases hop

end

/-- Lowering an operation on integers or a comparison succeeds. Its code takes the same operands off
the stack as the operation and leaves what stands for the values that the operation pushes, or traps
where that divides by zero, and only there. It sets no locals but scratch ones and the one of a
variable that is incremented. All this holds under any order of floating point numbers; under their
own, `Machine.stepIn` is what the machine does (`Machine.stepIn_ieee`). -/
theorem operation_exact {i : Instruction} {ks : List Kind} (hop : i.op.operands? = some ks)
    (ctx : Context) (labels : List Label) (k : Nat) (stack : List Kind) {s : State}
    (hs : s.locals.Sound) :
    Lowers ctx labels k i stack s fun L _ code => ∃ ps : List Plain, code = ps.map .plain ∧
      ∀ (order : FloatOrder) (f : Frame) (c : Config) (operands vs : List Value) (rest : List Val),
        operands.map Value.kind = ks → f.stack = operands ++ vs → f.stack.length ≤ f.maxStack →
        c.stack = operands.map Value.toVal ++ rest → c.locals.length = L.types.size →
        Incremented L i.op f c →
        Mirrors L i.op operands vs c rest (Machine.stepIn order i.op f) (runPlainIn order ps c) ∧
          ∀ r, runPlainIn order ps c = some r → ∀ j, r.2.locals[j]? ≠ c.locals[j]? → Sets L i.op j := by
  have hsucceeds : Succeeds (operation ctx labels k i stack) := by
    unfold operation
    cases hi : i.op with
    | arith a => exact succeeds_arith _ a
    | convert c => exact succeeds_convert _ c
    | increment | narrow | compare => exact fun s => ⟨_, _, rfl⟩
    | _ =>
      rw [hi] at hop
      cases hop
  refine (hsucceeds.lowers (emits_branchless ctx labels k
    (Operation.branches_of_operands hop) stack) rfl hs).mono ?_
  rintro L T code ⟨hL, ps, rfl, hps⟩
  refine ⟨ps, rfl, fun order f c operands vs rest hks hf hroom hc hsize hvar => ⟨?_, ?_⟩⟩
  · have hlt : operands ≠ [] → vs.length < f.maxStack := by
      intro hne
      have := List.length_pos_iff.mpr hne
      rw [hf, List.length_append] at hroom
      omega
    exact hps.mirrors hL hf hlt hsize hc hop hks hvar
  · intro r hrun j hj
    by_contra hnot
    exact hj (locals_of_runPlainIn hrun fun hmem => hnot (hps.sets hop hmem))

def divisionInstruction : Instruction := ⟨0, 1, 0x6c, false, .arith (.int .div)⟩

/-- The context of code that refers to no members. -/
def blankContext : Context := .of ⟨fun _ => none, fun _ => none⟩ 0 #[] #[]

/-- The state in which a method without parameters begins. -/
def blankState : State := ⟨.ofParams [], #[], [], false⟩

/-- The state after a division, which has taken two scratch locals. -/
def dividedState : State where
  locals := ((blankState.locals.temp .i32 0).2.temp .i32 1).2
  types := #[]
  done := ((divide .w32 0 1).map .plain).reverse
  dead := false

/-- The least number divided by -1 is the least number, and its code does not trap. -/
theorem operation_exact_minimum :
    operation blankContext [] 0 divisionInstruction [.int, .int] blankState =
        .ok () dividedState ∧
      Machine.step divisionInstruction.op ⟨#[], [.int (-1), .int (-2147483648)], 2⟩ =
        .ok .next ⟨#[], [.int (-2147483648)], 2⟩ ∧
      ∃ c', runPlainIn .ieee (divide .w32 0 1) ⟨[.i32 (-1), .i32 (-2147483648)], [.i32 0, .i32 0], []⟩ =
        some (.next, c') ∧ c'.stack = [.i32 (-2147483648)] := by
  have hlowered : operation blankContext [] 0 divisionInstruction [.int, .int] blankState =
      .ok () dividedState := rfl
  have hstep : Machine.step divisionInstruction.op ⟨#[], [.int (-1), .int (-2147483648)], 2⟩ =
      .ok .next ⟨#[], [.int (-2147483648)], 2⟩ := rfl
  have hsound : blankState.locals.Sound := (Locals.ofParams_spec []).1
  obtain ⟨s', code, hrun, hdone, hcode⟩ := operation_exact (i := divisionInstruction) rfl
    blankContext [] 0 [.int, .int] hsound
  cases hlowered.symm.trans hrun
  obtain rfl : code = (divide .w32 0 1).map .plain := by
    rw [← List.reverse_inj, ← List.append_nil code.reverse]
    exact hdone.symm
  obtain ⟨hfirst, -⟩ := Locals.temp_spec hsound .i32 0
  obtain ⟨hsecond, -⟩ := Locals.temp_spec hfirst .i32 1
  obtain ⟨ps, hps, hexact⟩ := hcode _ #[] ⟨hsecond, .refl _, fun _ _ h => h, by decide, by decide⟩
  obtain rfl := List.map_injective_iff.mpr (fun _ _ => Wasm.Instr.plain.inj) hps
  obtain ⟨hmirrors, -⟩ := hexact .ieee ⟨#[], [.int (-1), .int (-2147483648)], 2⟩
    ⟨[.i32 (-1), .i32 (-2147483648)], [.i32 0, .i32 0], []⟩ [.int (-1), .int (-2147483648)] [] []
    rfl rfl (by decide) rfl rfl nofun
  rw [Machine.stepIn_ieee, hstep] at hmirrors
  refine ⟨hlowered, hstep, ?_⟩
  unfold Mirrors at hmirrors
  split at hmirrors
  · next f c' hframe hrun =>
    cases hframe
    obtain ⟨-, -, results, hresults, hstack⟩ := hmirrors
    rw [List.append_nil] at hresults hstack
    exact ⟨c', hrun, by rw [hstack, ← hresults]; rfl⟩
  · next hframe _ => cases hframe
  · cases hmirrors

end Lowering

end ClassWasm
