/-
  Runs of the code of single operations. What an operation computes from values, its code computes
  from the values that stand for them; scratch locals are all it may change besides (`Keeps`).
-/
import ClassWasm.Proofs.Lowering.StraightTypes
import ClassWasm.Proofs.Machine.Runs
import ClassWasm.Proofs.Wasm.Execution

namespace ClassWasm

open Wasm (Plain Val Config Width IntBinary IntCompare runPlain runPlain_append runPlain_cons)

/-! ## Values -/

namespace Value

/-- What stands for a value: its word, as the type of its kind holds it. -/
def toVal (v : Value) : Val := .ofWord (.ofKind v.kind) v.raw

@[simp] theorem toVal_int (a : Int32) : (int a).toVal = .i32 a.toBitVec := by
  change Val.i32 ((a.toBitVec.setWidth 64).setWidth 32) = _
  rw [BitVec.setWidth_setWidth_of_le _ (by decide), BitVec.setWidth_eq]

@[simp] theorem toVal_long (a : Int64) : (long a).toVal = .i64 a.toBitVec := rfl

@[simp] theorem toVal_float (bits : UInt32) : (float bits).toVal = .f32 bits.toBitVec := by
  change Val.f32 ((bits.toBitVec.setWidth 64).setWidth 32) = _
  rw [BitVec.setWidth_setWidth_of_le _ (by decide), BitVec.setWidth_eq]

@[simp] theorem toVal_double (bits : UInt64) : (double bits).toVal = .f64 bits.toBitVec := rfl

@[simp] theorem toVal_null : null.toVal = .ref none := rfl

theorem toVal_ofConstant (c : Constant) (k : Config) :
    (Lowering.constant c).run? k = k.next ((ofConstant c).toVal :: k.stack) := by
  cases c with
  | int v => rw [ofConstant, toVal_int]; rfl
  | float bits => rw [ofConstant, toVal_float]; rfl
  | long v | double bits | null => rfl

end Value

/-! ## Integers -/

theorem toNat_smod_32 (x : BitVec 32) : (x.smod 32#32).toNat = x.toNat % 32 := by
  have hmod : (x.smod 32#32).toInt = x.toInt % 32 := by
    rw [BitVec.toInt_smod, Int.fmod_eq_emod_of_nonneg _ (by decide)]
    rfl
  rw [BitVec.toInt_eq_toNat_cond, BitVec.toInt_eq_toNat_cond] at hmod
  have hlt := (x.smod 32#32).isLt
  have hlt' := x.isLt
  split at hmod <;> split at hmod <;> omega

theorem toNat_smod_64 (x : BitVec 64) : (x.smod 64#64).toNat = x.toNat % 64 := by
  have hmod : (x.smod 64#64).toInt = x.toInt % 64 := by
    rw [BitVec.toInt_smod, Int.fmod_eq_emod_of_nonneg _ (by decide)]
    rfl
  rw [BitVec.toInt_eq_toNat_cond, BitVec.toInt_eq_toNat_cond] at hmod
  have hlt := (x.smod 64#64).isLt
  have hlt' := x.isLt
  split at hmod <;> split at hmod <;> omega

/-- The low bits of a distance are the same with and without its sign. -/
theorem toNat_distance (n : Int32) :
    n.toInt64.toBitVec.toNat % 64 = (n.toBitVec.setWidth 64).toNat % 64 := by
  rw [Int32.toBitVec_toInt64, BitVec.toNat_signExtend, BitVec.toNat_setWidth]
  have := n.toBitVec.isLt
  split <;> omega

namespace IntOp

/-- The instruction that does the work of an operation, where there is a single one. -/
def binary? : IntOp → Option IntBinary
  | add => some .add
  | sub => some .sub
  | mul => some .mul
  | rem => some .remS
  | shl => some .shl
  | shr => some .shrS
  | ushr => some .shrU
  | and => some .and
  | or => some .or
  | xor => some .xor
  | div | neg => none

/-- What an operation computes from patterns of bits; `none` for a division by zero. -/
def bits {n : Nat} (op : IntOp) (x y : BitVec n) : Option (BitVec n) :=
  match op.binary? with
  | some b => b.eval x y
  | none => if op = neg then some (-y) else if y = 0 then none else some (x.sdiv y)

theorem eval32_bits (op : IntOp) (x y : Int32) :
    (op.eval32 x y).map Int32.toBitVec = op.bits x.toBitVec y.toBitVec := by
  have hzero : y.toBitVec = 0 ↔ y = 0 := ⟨fun h => Int32.toBitVec_inj.mp h, fun h => h ▸ rfl⟩
  cases op with
  | div | rem =>
    simp only [bits, binary?, IntBinary.eval, eval32, hzero, reduceCtorEq, if_false]
    split <;> rfl
  | shl =>
    simp only [bits, binary?, IntBinary.eval, eval32, Option.map_some, Int32.toBitVec_shiftLeft,
      ← toNat_smod_32]
    rfl
  | shr =>
    simp only [bits, binary?, IntBinary.eval, eval32, Option.map_some, Int32.toBitVec_shiftRight,
      ← toNat_smod_32]
    rfl
  | ushr => exact congrArg some (UInt32.toBitVec_shiftRight x.toUInt32 y.toUInt32)
  | _ => rfl

theorem eval64_bits (op : IntOp) (x y : Int64) :
    (op.eval64 x y).map Int64.toBitVec = op.bits x.toBitVec y.toBitVec := by
  have hzero : y.toBitVec = 0 ↔ y = 0 := ⟨fun h => Int64.toBitVec_inj.mp h, fun h => h ▸ rfl⟩
  cases op with
  | div | rem =>
    simp only [bits, binary?, IntBinary.eval, eval64, hzero, reduceCtorEq, if_false]
    split <;> rfl
  | shl =>
    simp only [bits, binary?, IntBinary.eval, eval64, Option.map_some, Int64.toBitVec_shiftLeft,
      ← toNat_smod_64]
    rfl
  | shr =>
    simp only [bits, binary?, IntBinary.eval, eval64, Option.map_some, Int64.toBitVec_shiftRight,
      ← toNat_smod_64]
    rfl
  | ushr => exact congrArg some (UInt64.toBitVec_shiftRight x.toUInt64 y.toUInt64)
  | _ => rfl

/-- A shift by an `int` does not depend on how the distance is extended. -/
theorem bits_distance {op : IntOp} (h : op = .shl ∨ op = .shr ∨ op = .ushr) (x : BitVec 64)
    (n : Int32) : op.bits x n.toInt64.toBitVec = op.bits x (n.toBitVec.setWidth 64) := by
  have hmod := toNat_distance n
  rcases h with rfl | rfl | rfl <;> simp only [bits, binary?, IntBinary.eval, hmod]

end IntOp

namespace Wasm

/-- How many bits a number of a width has. -/
abbrev Width.bits : Width → Nat
  | w32 => 32
  | w64 => 64

/-- A number of a width. -/
def Val.int (w : Width) (v : BitVec w.bits) : Val :=
  match w with
  | .w32 => .i32 v
  | .w64 => .i64 v

section

variable {w : Width} {rest locals globals : List Val}

theorem run_intBinary (op : IntBinary) (a b : BitVec w.bits) :
    (Plain.intBinary w op).run? ⟨.int w b :: .int w a :: rest, locals, globals⟩ =
      Config.nextOrTrap ⟨.int w b :: .int w a :: rest, locals, globals⟩
        ((op.eval a b).map (.int w)) rest := by
  cases w <;> rfl

theorem run_intCompare (op : IntCompare) (a b : BitVec w.bits) :
    (Plain.intCompare w op).run? ⟨.int w b :: .int w a :: rest, locals, globals⟩ =
      some (.next, ⟨.ofBool (op.eval a b) :: rest, locals, globals⟩) := by
  cases w <;> rfl

theorem run_intConstant (v : Int) (stack : List Val) :
    (Lowering.intConstant w v).run? ⟨stack, locals, globals⟩ =
      some (.next, ⟨.int w (BitVec.ofInt _ v) :: stack, locals, globals⟩) := by
  cases w <;> rfl

theorem run_select (b : Bool) (x y : BitVec w.bits) :
    Plain.select.run? ⟨.ofBool b :: .int w y :: .int w x :: rest, locals, globals⟩ =
      some (.next, ⟨.int w (if b then x else y) :: rest, locals, globals⟩) := by
  cases b <;> rfl

end

end Wasm

namespace Lowering

open Wasm (run_intBinary run_intCompare run_intConstant run_select)

/-! ## Locals -/

/-- Globals and variables are the same before and after. -/
structure Keeps (L : Locals) (c c' : Config) : Prop where
  globals : c'.globals = c.globals
  length : c'.locals.length = c.locals.length
  slots : ∀ key i, L.slots.lookup key = some i → c'.locals[i]? = c.locals[i]?

variable {L : Locals} {c c' : Config} {stack rest : List Val}

theorem Keeps.refl (c : Config) (stack : List Val) : Keeps L c { c with stack } :=
  ⟨rfl, rfl, fun _ _ _ => rfl⟩

theorem Keeps.trans {a b c : Config} (hab : Keeps L a b) (hbc : Keeps L b c) : Keeps L a c :=
  ⟨hbc.globals.trans hab.globals, hbc.length.trans hab.length,
    fun key i h => (hbc.slots key i h).trans (hab.slots key i h)⟩

theorem Keeps.set {l : Nat} (hl : ∀ key, L.slots.lookup key ≠ some l) (stack : List Val) (v : Val) :
    Keeps L c { c with stack, locals := c.locals.set l v } := by
  refine ⟨rfl, by simp, fun key i hi => ?_⟩
  have hne : l ≠ i := by
    rintro rfl
    exact hl key hi
  exact List.getElem?_set_ne hne

theorem Locals.IsTemp.slots {L : Locals} (hL : L.Sound) {t : Wasm.ValType}
    {n i : Nat} (h : L.IsTemp t n i) (key : Nat × Kind) : L.slots.lookup key ≠ some i :=
  fun hkey => hL.slots_scratch key i hkey _ h.mem rfl

theorem run_localGet {i : UInt32} {v : Val} (h : c.locals[i.toNat]? = some v) :
    (Plain.localGet i).run? c = some (.next, { c with stack := v :: c.stack }) := by
  simp [h, Config.next]

theorem run_localSet {i : UInt32} {v : Val} (hc : c.stack = v :: rest)
    (h : i.toNat < c.locals.length) : (Plain.localSet i).run? c =
      some (.next, { c with stack := rest, locals := c.locals.set i.toNat v }) := by
  obtain ⟨stack, locals, globals⟩ := c
  obtain rfl := hc
  rw [Plain.run?_localSet, if_pos h]

theorem run_globalSet {i : UInt32} {v : Val} (hc : c.stack = v :: rest)
    (h : i.toNat < c.globals.length) : (Plain.globalSet i).run? c =
      some (.next, { c with stack := rest, globals := c.globals.set i.toNat v }) := by
  obtain ⟨stack, locals, globals⟩ := c
  obtain rfl := hc
  rw [Plain.run?_globalSet, if_pos h]

theorem run_convert {k : Wasm.Convert} {v w : Val} (hc : c.stack = v :: rest)
    (h : k.eval? v = some w) :
    (Plain.convert k).run? c = some (.next, { c with stack := w :: rest }) := by
  obtain ⟨stack, locals, globals⟩ := c
  obtain rfl := hc
  rw [Plain.run?_convert, h]
  rfl

/-- Straight code leaves these operands, and no other trace that matters. -/
def Leaves (L : Locals) (ps : List Plain) (c : Config) (stack : List Val) : Prop :=
  ∃ c', runPlain ps c = some (.next, c') ∧ c'.stack = stack ∧ Keeps L c c'

/-- Code that has nothing to do with locals. -/
theorem Leaves.of_run {ps : List Plain} (h : runPlain ps c = some (.next, { c with stack })) :
    Leaves L ps c stack := ⟨_, h, rfl, .refl c stack⟩

/-- Values, lowest first, lie in locals. -/
def Stored (locals : List Val) (ls : List UInt32) (vs : List Value) : Prop :=
  List.Forall₂ (fun l v => locals[l.toNat]? = some v.toVal) ls vs

/-- Locals take values off the stack, the first of them from the top. -/
theorem run_sets {ls : List UInt32} (hnodup : ls.Nodup) (hlt : ∀ l ∈ ls, l.toNat < c.locals.length)
    {vs : List Value} (hlen : ls.length = vs.length) (hc : c.stack = vs.map Value.toVal ++ rest) :
    ∃ locals, runPlain (ls.map .localSet) c = some (.next, { c with stack := rest, locals }) ∧
      locals.length = c.locals.length ∧ Stored locals ls vs ∧
      ∀ i, (∀ l ∈ ls, l.toNat ≠ i) → locals[i]? = c.locals[i]? := by
  induction ls generalizing c vs with
  | nil =>
    obtain rfl : vs = [] := List.eq_nil_of_length_eq_zero hlen.symm
    obtain ⟨stack, locals, globals⟩ := c
    obtain rfl : stack = rest := hc
    exact ⟨locals, rfl, rfl, .nil, fun _ _ => rfl⟩
  | cons l ls ih =>
    cases vs with
    | nil => cases hlen
    | cons v vs =>
      have hl := hlt l List.mem_cons_self
      obtain ⟨hnot, hnodup⟩ := List.nodup_cons.mp hnodup
      obtain ⟨locals, hrun, hlength, hstored, hothers⟩ := ih hnodup
        (c := { c with stack := vs.map Value.toVal ++ rest, locals := c.locals.set l.toNat v.toVal })
        (fun j hj => by simpa using hlt j (List.mem_cons_of_mem _ hj)) (Nat.succ.inj hlen) rfl
      have hkept : ∀ j ∈ ls, j.toNat ≠ l.toNat := fun j hj he => hnot (UInt32.toNat_inj.mp he ▸ hj)
      refine ⟨locals, ?_, ?_, .cons ?_ hstored, fun i hi => ?_⟩
      · rw [List.map_cons, runPlain_cons (run_localSet hc hl)]
        exact hrun
      · rw [hlength, List.length_set]
      · rw [hothers _ hkept, List.getElem?_set_self hl]
      · rw [hothers i fun j hj => hi j (List.mem_cons_of_mem _ hj),
          List.getElem?_set_ne (hi l List.mem_cons_self)]

theorem run_spill {ls : List UInt32} {ks : List Kind} (hls : Holds L ls ks)
    (hsize : c.locals.length = L.types.size) {vs : List Value} (hlen : ls.length = vs.length)
    (hc : c.stack = vs.map Value.toVal ++ rest) :
    ∃ c', runPlain (spillCode ls) c = some (.next, c') ∧ c'.stack = rest ∧ Keeps L c c' ∧
      Stored c'.locals ls vs.reverse ∧
      ∀ i, (∀ l ∈ ls, l.toNat ≠ i) → c'.locals[i]? = c.locals[i]? := by
  have hlt : ∀ l ∈ ls.reverse, l.toNat < c.locals.length := by
    intro l hl
    obtain ⟨k, -, hk⟩ := mem_right_of_forall₂ hls.each (List.mem_reverse.mp hl)
    rw [hsize]
    exact Locals.lt_size_of_type hk
  obtain ⟨locals, hrun, hlength, hstored, hothers⟩ := run_sets (List.nodup_reverse.mpr hls.nodup)
    hlt (by rw [List.length_reverse, hlen]) hc
  have hothers' : ∀ i, (∀ l ∈ ls, l.toNat ≠ i) → locals[i]? = c.locals[i]? :=
    fun i hi => hothers i fun l hl => hi l (List.mem_reverse.mp hl)
  refine ⟨_, hrun, rfl, ⟨rfl, hlength, fun key i hi => ?_⟩, ?_, hothers'⟩
  · exact hothers' i fun l hl he => hls.slots l hl key (he ▸ hi)
  · have := List.forall₂_reverse_iff.mpr hstored
    rwa [List.reverse_reverse] at this

theorem run_reload {ls : List UInt32} {vs : List Value} (h : Stored c.locals ls vs) :
    runPlain (reloadCode ls) c =
      some (.next, { c with stack := vs.reverse.map Value.toVal ++ c.stack }) := by
  unfold reloadCode
  obtain ⟨stack, locals, globals⟩ := c
  dsimp only at h ⊢
  induction h generalizing stack with
  | nil => rfl
  | @cons l v ls vs hl _ ih =>
    rw [List.map_cons, runPlain_cons (run_localGet (c := ⟨stack, locals, globals⟩) hl), ih]
    simp

/-! ## Arithmetic -/

/-- Straight code computes a value, or traps where there is none. -/
def Computes (L : Locals) (ps : List Plain) (c : Config) (v : Option Val) (rest : List Val) : Prop :=
  match v with
  | some v => Leaves L ps c (v :: rest)
  | none => ∃ c', runPlain ps c = some (.trap, c')

theorem computes_binary (w : Width) (b : IntBinary) (x y : BitVec w.bits)
    (locals globals : List Val) :
    Computes L [.intBinary w b] ⟨.int w y :: .int w x :: rest, locals, globals⟩
      ((b.eval x y).map (.int w)) rest := by
  have hrun : (Plain.intBinary w b).run? ⟨.int w y :: .int w x :: rest, locals, globals⟩ = _ :=
    run_intBinary b x y
  cases hv : b.eval x y with
  | none =>
    rw [hv] at hrun
    exact ⟨_, by rw [runPlain, hrun]; rfl⟩
  | some v =>
    rw [hv] at hrun
    exact .of_run (runPlain_cons hrun)

theorem Computes.after {ps qs : List Plain} {v : Option Val} {stack' : List Val}
    (h : Computes L qs { c with stack := stack' } v rest)
    (hrun : runPlain ps c = some (.next, { c with stack := stack' })) :
    Computes L (ps ++ qs) c v rest := by
  cases v with
  | none =>
    obtain ⟨c', hc'⟩ := h
    exact ⟨c', (runPlain_append hrun).trans hc'⟩
  | some v =>
    obtain ⟨c', hc', hstack, hkeeps⟩ := h
    exact ⟨c', (runPlain_append hrun).trans hc', hstack, (Keeps.refl c stack').trans hkeeps⟩

theorem sdiv_neg_one (w : Width) (x : BitVec w.bits) :
    x.sdiv (BitVec.ofInt _ (-1)) = BitVec.ofInt _ 0 - x := by
  have hone : BitVec.ofInt w.bits (-1) = -1#w.bits := by cases w <;> rfl
  have hmin : 1#w.bits ≠ BitVec.intMin w.bits := by cases w <;> decide
  rw [hone, BitVec.sdiv_neg hmin, BitVec.sdiv_one, show BitVec.ofInt w.bits 0 = 0#w.bits from rfl,
    BitVec.zero_sub]

/-- Two operands go into scratch locals. -/
theorem run_twoTemps (hL : L.Sound) {t : Wasm.ValType} {a b : UInt32} (h : TwoTemps L t a b)
    (x y : Val) {locals globals : List Val} (hsize : locals.length = L.types.size) :
    ∃ after, runPlain [.localSet b, .localSet a] ⟨y :: x :: rest, locals, globals⟩ =
        some (.next, ⟨rest, after, globals⟩) ∧
      after[a.toNat]? = some x ∧ after[b.toNat]? = some y ∧
      ∀ stack, Keeps L ⟨y :: x :: rest, locals, globals⟩ ⟨stack, after, globals⟩ := by
  obtain ⟨ha, hb⟩ := h
  have hne : a.toNat ≠ b.toNat := fun he => by
    rw [he] at ha
    exact absurd (ha.number_eq hL hb) (by decide)
  have ha' : a.toNat < locals.length := by rw [hsize]; exact Locals.lt_size_of_type (ha.type hL)
  have hb' : b.toNat < locals.length := by rw [hsize]; exact Locals.lt_size_of_type (hb.type hL)
  have hset : (Plain.localSet b).run? ⟨y :: x :: rest, locals, globals⟩ = _ := run_localSet rfl hb'
  have hset' : (Plain.localSet a).run? ⟨x :: rest, locals.set b.toNat y, globals⟩ = _ :=
    run_localSet rfl (by simpa using ha')
  refine ⟨(locals.set b.toNat y).set a.toNat x, ?_, ?_, ?_, fun stack => ?_⟩
  · rw [runPlain_cons hset, runPlain_cons hset']
    rfl
  · rw [List.getElem?_set_self (by simpa using ha')]
  · rw [List.getElem?_set_ne hne, List.getElem?_set_self hb']
  · exact (Keeps.set (hb.slots hL) [] _).trans (.set (ha.slots hL) _ _)

/-- A division by zero traps, and no other does. -/
theorem computes_divide (hL : L.Sound) {t : Wasm.ValType} {a b : UInt32} (h : TwoTemps L t a b)
    {w : Width} (x y : BitVec w.bits) {locals globals : List Val}
    (hsize : locals.length = L.types.size) :
    Computes L (divide w a b) ⟨.int w y :: .int w x :: rest, locals, globals⟩
      ((if y = 0 then none else some (x.sdiv y)).map (.int w)) rest := by
  obtain ⟨after, hset, ha, hb, hkeeps⟩ := run_twoTemps hL h (.int w x) (.int w y) hsize
  have hget (stack : List Val) : (Plain.localGet a).run? ⟨stack, after, globals⟩ =
      some (.next, ⟨.int w x :: stack, after, globals⟩) := run_localGet ha
  have hget' (stack : List Val) : (Plain.localGet b).run? ⟨stack, after, globals⟩ =
      some (.next, ⟨.int w y :: stack, after, globals⟩) := run_localGet hb
  -- The divisor is never -1, so only zero traps.
  have hdivisor : ∀ d, d = (if y = BitVec.ofInt _ (-1) then BitVec.ofInt _ 1 else y) →
      runPlain (divide w a b) ⟨.int w y :: .int w x :: rest, locals, globals⟩ =
        if d = 0 then
          some (.trap, ⟨.int w d :: .int w x :: .int w (BitVec.ofInt _ 0 - x) :: rest, after, globals⟩)
        else some (.next, ⟨.int w (if y = BitVec.ofInt _ (-1) then BitVec.ofInt _ 0 - x else x.sdiv d)
          :: rest, after, globals⟩) := by
    intro d hd
    have hminus : d ≠ -1 := by
      have hdiffer : BitVec.ofInt w.bits 1 ≠ -1 := by cases w <;> decide
      have hneg : (-1 : BitVec w.bits) = BitVec.ofInt _ (-1) := by cases w <;> rfl
      rw [hd]
      split
      · exact hdiffer
      · rwa [hneg]
    have htake : (if y = BitVec.ofInt _ (-1) then BitVec.ofInt _ 1 else y) = d := hd.symm
    have hstart (qs : List Plain) : runPlain (.localSet b :: .localSet a :: qs)
        ⟨.int w y :: .int w x :: rest, locals, globals⟩ = runPlain qs ⟨rest, after, globals⟩ :=
      runPlain_append hset
    rw [divide, hstart]
    simp only [runPlain, hget, hget', run_intConstant, run_intBinary, run_intCompare, run_select,
      Config.nextOrTrap, Config.next, IntBinary.eval, IntCompare.eval, Option.map_some,
      decide_eq_true_eq, ite_not, htake, hminus, and_false, or_false]
    by_cases hzero : d = 0
    · simp only [if_pos hzero, Option.map_none]
    · simp only [if_neg hzero, Option.map_some, hget', run_intConstant, run_intCompare, run_select,
        IntCompare.eval, decide_eq_true_eq]
  have hrun := hdivisor _ rfl
  by_cases hy : y = BitVec.ofInt _ (-1)
  · have hzero : y ≠ 0 := by
      rw [hy]
      cases w <;> decide
    have hone : BitVec.ofInt w.bits 1 ≠ 0 := by cases w <;> decide
    rw [if_neg hzero]
    simp only [if_pos hy, if_neg hone] at hrun
    refine ⟨_, hrun, ?_, hkeeps _⟩
    rw [hy, sdiv_neg_one]
  · simp only [if_neg hy] at hrun
    by_cases hzero : y = 0
    · rw [if_pos hzero] at hrun ⊢
      exact ⟨_, hrun⟩
    · rw [if_neg hzero] at hrun ⊢
      exact ⟨_, hrun, rfl, hkeeps _⟩

/-- The operands of an operation on a stack. -/
def operands (w : Width) (op : IntOp) (x y : BitVec w.bits) : List Val :=
  if op = .neg then [.int w y] else [.int w y, .int w x]

theorem computes_intCode (hL : L.Sound) (w : Width) {op : IntOp} {t : Wasm.ValType} {a b : UInt32}
    (hab : op = .div → TwoTemps L t a b) (hshift : w = .w64 → op ≠ .shl ∧ op ≠ .shr ∧ op ≠ .ushr)
    (x y : BitVec w.bits) {locals globals : List Val} (hsize : locals.length = L.types.size) :
    Computes L (intCode w op a b) ⟨operands w op x y ++ rest, locals, globals⟩
      ((op.bits x y).map (.int w)) rest := by
  have hsh {b' : IntBinary} (h : op = .shl ∨ op = .shr ∨ op = .ushr) :
      shiftCode w b' = [.intBinary w b'] := by
    cases w with
    | w32 => rfl
    | w64 =>
      obtain ⟨h₁, h₂, h₃⟩ := hshift rfl
      simp [h₁, h₂, h₃] at h
  cases op with
  | div =>
    exact computes_divide hL (hab rfl) x y hsize
  | neg =>
    have hneg : y * BitVec.ofInt _ (-1) = -y := by
      rw [show BitVec.ofInt w.bits (-1) = -1#w.bits by cases w <;> rfl, BitVec.mul_neg, BitVec.mul_one]
    have hrun : runPlain (intCode w .neg a b) ⟨.int w y :: rest, locals, globals⟩ =
        some (.next, ⟨.int w (-y) :: rest, locals, globals⟩) := by
      simp only [intCode, runPlain, run_intConstant, run_intBinary, IntBinary.eval, hneg,
        Config.nextOrTrap, Config.next, Option.map_some]
    exact .of_run hrun
  | shl | shr | ushr =>
    simp only [intCode, hsh, true_or, or_true]
    exact computes_binary w _ x y locals globals
  | _ => exact computes_binary w _ x y locals globals

/-- A division has scratch locals, and nothing else needs any. -/
theorem arithCode_int {op : IntOp} {ps : List Plain} (h : ArithCode L (.int op) ps) :
    ∃ a b, (op = .div → TwoTemps L .i32 a b) ∧ ps = intCode .w32 op a b := by
  cases op with
  | div =>
    obtain ⟨a, b, hab, rfl⟩ := h
    exact ⟨a, b, fun _ => hab, rfl⟩
  | _ => exact ⟨0, 0, nofun, h⟩

theorem arithCode_long {op : IntOp} {ps : List Plain} (h : ArithCode L (.long op) ps) :
    ∃ a b, (op = .div → TwoTemps L .i64 a b) ∧ ps = intCode .w64 op a b := by
  cases op with
  | div =>
    obtain ⟨a, b, hab, rfl⟩ := h
    exact ⟨a, b, fun _ => hab, rfl⟩
  | _ => exact ⟨0, 0, nofun, h⟩

theorem operands_of_takes_int {op : IntOp} {vs vs' : List Value} {v w : Value}
    (h : (Arith.int op).Takes vs v w vs') : ∃ x y, v = .int x ∧ w = .int y ∧
      vs.map Value.toVal = operands .w32 op x.toBitVec y.toBitVec ++ vs'.map Value.toVal := by
  unfold Arith.Takes at h
  split at h
  · next hneg =>
    obtain ⟨rfl, rfl, hk⟩ := h
    obtain ⟨y, rfl⟩ := Value.int_of_kind hk
    obtain rfl : op = .neg := by simpa [Arith.isUnary] using hneg
    exact ⟨y, y, rfl, rfl, by rw [List.map_cons, Value.toVal_int]; rfl⟩
  · next hneg =>
    obtain ⟨rfl, hv, hw⟩ := h
    obtain ⟨x, rfl⟩ := Value.int_of_kind hv
    obtain ⟨y, rfl⟩ := Value.int_of_kind (hw.trans (ite_id _))
    have hneg : op ≠ .neg := by simpa [Arith.isUnary] using hneg
    refine ⟨x, y, rfl, rfl, ?_⟩
    rw [List.map_cons, List.map_cons, Value.toVal_int, Value.toVal_int, operands, if_neg hneg]
    rfl

theorem operands_of_takes_long {op : IntOp} (hshift : ¬ (op = .shl ∨ op = .shr ∨ op = .ushr))
    {vs vs' : List Value} {v w : Value} (h : (Arith.long op).Takes vs v w vs') :
    ∃ x y, v = .long x ∧ w = .long y ∧
      vs.map Value.toVal = operands .w64 op x.toBitVec y.toBitVec ++ vs'.map Value.toVal := by
  unfold Arith.Takes at h
  split at h
  · next hneg =>
    obtain ⟨rfl, rfl, hk⟩ := h
    obtain ⟨y, rfl⟩ := Value.long_of_kind hk
    obtain rfl : op = .neg := by simpa [Arith.isUnary] using hneg
    exact ⟨y, y, rfl, rfl, rfl⟩
  · next hneg =>
    obtain ⟨rfl, hv, hw⟩ := h
    rw [if_neg (by simpa [Arith.isShift] using hshift)] at hw
    obtain ⟨x, rfl⟩ := Value.long_of_kind hv
    obtain ⟨y, rfl⟩ := Value.long_of_kind hw
    have hneg : op ≠ .neg := by simpa [Arith.isUnary] using hneg
    refine ⟨x, y, rfl, rfl, ?_⟩
    rw [operands, if_neg hneg]
    rfl

theorem computes_int (hL : L.Sound) {op : IntOp} {ps : List Plain} (h : ArithCode L (.int op) ps)
    {vs vs' : List Value} {v w : Value} (htakes : (Arith.int op).Takes vs v w vs')
    (hsize : c.locals.length = L.types.size) (hc : c.stack = vs.map Value.toVal ++ rest) :
    Computes L ps c (((Arith.int op).eval v w).map Value.toVal) (vs'.map Value.toVal ++ rest) := by
  obtain ⟨a, b, hab, rfl⟩ := arithCode_int h
  obtain ⟨x, y, rfl, rfl, hstack⟩ := operands_of_takes_int htakes
  have heval : ((Arith.int op).eval (.int x) (.int y)).map Value.toVal =
      (op.bits x.toBitVec y.toBitVec).map (.int .w32) := by
    rw [← op.eval32_bits, Arith.eval]
    cases op.eval32 x y with
    | none => rfl
    | some v => exact congrArg some (Value.toVal_int v)
  obtain ⟨stack, locals, globals⟩ := c
  obtain rfl : stack = vs.map Value.toVal ++ rest := hc
  rw [heval, hstack, List.append_assoc]
  exact computes_intCode hL .w32 hab nofun _ _ hsize

/-- The distance of a shift is an int, which is extended first. -/
theorem computes_longShift {op : IntOp} (hshift : op = .shl ∨ op = .shr ∨ op = .ushr) (a b : UInt32)
    {vs vs' : List Value} {v w : Value} (htakes : (Arith.long op).Takes vs v w vs')
    (locals globals : List Val) :
    Computes L (intCode .w64 op a b) ⟨vs.map Value.toVal ++ rest, locals, globals⟩
      (((Arith.long op).eval v w).map Value.toVal) (vs'.map Value.toVal ++ rest) := by
  have hunary : (Arith.long op).isUnary = false := by rcases hshift with rfl | rfl | rfl <;> rfl
  have hisShift : (Arith.long op).isShift = true := by rcases hshift with rfl | rfl | rfl <;> rfl
  simp only [Arith.Takes, hunary, hisShift, if_true, Bool.false_eq_true, if_false] at htakes
  obtain ⟨rfl, hv, hw⟩ := htakes
  obtain ⟨x, rfl⟩ := Value.long_of_kind hv
  obtain ⟨n, rfl⟩ := Value.int_of_kind hw
  obtain ⟨i, hi, hcode⟩ : ∃ i, op.binary? = some i ∧
      intCode .w64 op a b = [.convert .extendU] ++ [.intBinary .w64 i] := by
    rcases hshift with rfl | rfl | rfl <;> exact ⟨_, rfl, rfl⟩
  have heval : ((Arith.long op).eval (.long x) (.int n)).map Value.toVal =
      (i.eval x.toBitVec (n.toBitVec.setWidth 64)).map .i64 := by
    have hbits := op.eval64_bits x n.toInt64
    rw [IntOp.bits_distance hshift] at hbits
    simp only [IntOp.bits, hi] at hbits
    rw [← hbits, Arith.eval]
    cases op.eval64 x n.toInt64 <;> rfl
  have hextend : runPlain [.convert .extendU]
      ⟨(.int n :: .long x :: vs').map Value.toVal ++ rest, locals, globals⟩ = some (.next,
        ⟨.i64 (n.toBitVec.setWidth 64) :: .i64 x.toBitVec :: (vs'.map Value.toVal ++ rest), locals,
          globals⟩) := by
    simp [runPlain, Wasm.Convert.eval?]
  rw [hcode, heval]
  exact (computes_binary .w64 i x.toBitVec _ locals globals).after hextend

theorem computes_long (hL : L.Sound) {op : IntOp} {ps : List Plain} (h : ArithCode L (.long op) ps)
    {vs vs' : List Value} {v w : Value} (htakes : (Arith.long op).Takes vs v w vs')
    (hsize : c.locals.length = L.types.size) (hc : c.stack = vs.map Value.toVal ++ rest) :
    Computes L ps c (((Arith.long op).eval v w).map Value.toVal) (vs'.map Value.toVal ++ rest) := by
  obtain ⟨a, b, hab, rfl⟩ := arithCode_long h
  obtain ⟨stack, locals, globals⟩ := c
  obtain rfl : stack = vs.map Value.toVal ++ rest := hc
  by_cases hshift : op = .shl ∨ op = .shr ∨ op = .ushr
  · exact computes_longShift hshift a b htakes locals globals
  · obtain ⟨x, y, rfl, rfl, hstack⟩ := operands_of_takes_long hshift htakes
    have heval : ((Arith.long op).eval (.long x) (.long y)).map Value.toVal =
        (op.bits x.toBitVec y.toBitVec).map (.int .w64) := by
      rw [← op.eval64_bits, Arith.eval]
      cases op.eval64 x y <;> rfl
    simp only [not_or] at hshift
    rw [heval, hstack, List.append_assoc]
    exact computes_intCode hL .w64 hab (fun _ => hshift) _ _ hsize

theorem orderingInt_compare (x y : Int64) : (orderingInt (compare x.toInt y.toInt)).toBitVec =
    (if y.toBitVec.slt x.toBitVec then 1 else 0) - if x.toBitVec.slt y.toBitVec then 1 else 0 := by
  have hlt (x y : Int64) : x.toBitVec.slt y.toBitVec = true ↔ x.toInt < y.toInt :=
    BitVec.slt_iff_toInt_lt
  simp only [hlt]
  rcases Int.lt_trichotomy x.toInt y.toInt with h | h | h
  · rw [compare_lt_iff_lt.mpr h, if_neg (by omega), if_pos h]
    rfl
  · rw [h, compare_eq_iff_eq.mpr rfl, if_neg (by omega)]
    rfl
  · rw [compare_gt_iff_gt.mpr h, if_pos h, if_neg (by omega)]
    rfl

theorem leaves_compare (hL : L.Sound) {a b : UInt32} (h : TwoTemps L .i64 a b) (x y : Int64)
    (hsize : c.locals.length = L.types.size)
    (hc : c.stack = .i64 y.toBitVec :: .i64 x.toBitVec :: rest) :
    Leaves L (comparison .long a b) c
      (.i32 (Comparison.long.eval (.long x) (.long y)).toBitVec :: rest) := by
  obtain ⟨stack, locals, globals⟩ := c
  obtain rfl := hc
  obtain ⟨after, hset, ha, hb, hkeeps⟩ :=
    run_twoTemps hL h (.i64 x.toBitVec) (.i64 y.toBitVec) hsize
  refine ⟨⟨_, after, globals⟩, ?_, rfl, hkeeps _⟩
  rw [comparison, List.append_assoc, runPlain_append hset]
  simp only [relate, List.cons_append, List.nil_append, runPlain, Plain.run?_localGet, ha, hb,
    Plain.run?_intCompare64, Plain.run?_intBinary32, Option.bind_some, Config.next,
    Config.nextOrTrap, IntCompare.eval, IntBinary.eval, Val.ofBool, Comparison.eval,
    orderingInt_compare, Option.map_some]
  rfl

theorem leaves_convert {k : Conversion} (hk : k = .intToLong ∨ k = .longToInt) {v : Value}
    (hv : v.kind = k.source) (hc : c.stack = v.toVal :: rest) :
    Leaves L (conversionCode k) c ((k.eval v).toVal :: rest) := by
  refine .of_run ?_
  rcases hk with rfl | rfl
  · obtain ⟨a, rfl⟩ := Value.int_of_kind hv
    refine runPlain_cons (run_convert hc ?_)
    simp [Wasm.Convert.eval?, Conversion.eval, Int32.toBitVec_toInt64]
  · obtain ⟨a, rfl⟩ := Value.long_of_kind hv
    have hlow := BitVec.signExtend_eq_setWidth_of_le a.toBitVec (by decide : 32 ≤ 64)
    refine runPlain_cons (run_convert hc ?_)
    simp [Wasm.Convert.eval?, Conversion.eval, Int64.toBitVec_toInt32, hlow]

theorem leaves_narrow (n : Narrowing) (v : Int32) (hc : c.stack = .i32 v.toBitVec :: rest) :
    Leaves L (narrowing n) c (.i32 (n.eval v).toBitVec :: rest) := by
  refine .of_run ?_
  cases n with
  | byte =>
    have hbits : (v.toBitVec.setWidth 8).signExtend 32 = (Narrowing.byte.eval v).toBitVec := by
      change _ = (v.toBitVec.signExtend 8).signExtend 32
      rw [BitVec.signExtend_eq_setWidth_of_le v.toBitVec (by decide)]
    rw [← hbits]
    exact runPlain_cons (run_convert hc rfl)
  | short =>
    have hbits : (v.toBitVec.setWidth 16).signExtend 32 = (Narrowing.short.eval v).toBitVec := by
      change _ = (v.toBitVec.signExtend 16).signExtend 32
      rw [BitVec.signExtend_eq_setWidth_of_le v.toBitVec (by decide)]
    rw [← hbits]
    exact runPlain_cons (run_convert hc rfl)
  | char =>
    have hbits : v.toBitVec &&& 65535#32 = (Narrowing.char.eval v).toBitVec := by
      change _ = (v.toBitVec.setWidth 16).setWidth 32
      have hand : (v.toBitVec &&& 65535#32).toNat = v.toBitVec.toNat % 2 ^ 16 := by
        rw [BitVec.toNat_and]
        exact Nat.and_two_pow_sub_one_eq_mod _ 16
      apply BitVec.eq_of_toNat_eq
      rw [hand, BitVec.toNat_setWidth, BitVec.toNat_setWidth]
      omega
    obtain ⟨stack, locals, globals⟩ := c
    obtain rfl := hc
    simp [narrowing, runPlain, Config.next, Config.nextOrTrap, IntBinary.eval, hbits]

theorem run_increment {l : UInt32} {a : Int32} (h : c.locals[l.toNat]? = some (Value.int a).toVal)
    (delta : Int16) :
    runPlain [.localGet l, .i32Const delta.toInt32, .intBinary .w32 .add, .localSet l] c =
      some (.next, { c with
        locals := c.locals.set l.toNat (Value.int (a + delta.toInt32)).toVal }) := by
  have hlt : l.toNat < c.locals.length := (List.getElem?_eq_some_iff.mp h).1
  rw [Value.toVal_int] at h ⊢
  rw [runPlain_cons (run_localGet h)]
  simp [runPlain, Config.next, Config.nextOrTrap, Wasm.IntBinary.eval, hlt]

/-! ## Conditions -/

theorem run_relation (r : Relation) (x y : Int32) {locals globals : List Val} :
    (relation r).run? ⟨.i32 y.toBitVec :: .i32 x.toBitVec :: rest, locals, globals⟩ =
      some (.next, ⟨.ofBool (r.holds x y) :: rest, locals, globals⟩) := by
  have heq : x.toBitVec = y.toBitVec ↔ x = y := Int32.toBitVec_inj
  have hbool (b : Bool) {P : Prop} [Decidable P] (h : P ↔ b = true) : b = decide P := by
    simp [h]
  cases r with
  | eq | ne =>
    simp only [relation, Plain.run?_intCompare32, IntCompare.eval, Relation.holds, ne_eq, heq]
  | lt => exact congrArg (fun b => some (_, Config.mk (.ofBool b :: _) _ _)) (hbool _ Iff.rfl)
  | ge => exact congrArg (fun b => some (_, Config.mk (.ofBool b :: _) _ _)) (hbool _ Iff.rfl)
  | gt => exact congrArg (fun b => some (_, Config.mk (.ofBool b :: _) _ _)) (hbool _ Iff.rfl)
  | le => exact congrArg (fun b => some (_, Config.mk (.ofBool b :: _) _ _)) (hbool _ Iff.rfl)

theorem leaves_test {cond : Condition} {vs : List Value} {ks : List Kind}
    (hks : vs.map Value.kind = StackTyping.conditionOperands cond ++ ks)
    (hc : c.stack = vs.map Value.toVal) :
    ∃ v, Leaves L (condition cond) c (.i32 v ::
      (vs.drop (StackTyping.conditionOperands cond).length).map Value.toVal) ∧
        (v = 0 ↔ cond.test vs = false) := by
  have hint {vs : List Value} {js : List Kind} (h : vs.map Value.kind = .int :: js) :
      ∃ a rest, vs = .int a :: rest ∧ rest.map Value.kind = js := by
    obtain ⟨v, rest, rfl, hv, hrest⟩ := List.map_eq_cons_iff.mp h
    obtain ⟨a, rfl⟩ := Value.int_of_kind hv
    exact ⟨a, rest, rfl, hrest⟩
  obtain ⟨stack, locals, globals⟩ := c
  obtain rfl : stack = vs.map Value.toVal := hc
  have htest {stack rest : List Val} (ps : List Plain) (answer : Bool)
      (hrun : runPlain ps ⟨stack, locals, globals⟩ =
        some (.next, ⟨.ofBool answer :: rest, locals, globals⟩)) :
      ∃ v, Leaves L ps ⟨stack, locals, globals⟩ (.i32 v :: rest) ∧ (v = 0 ↔ answer = false) :=
    ⟨if answer then 1 else 0, .of_run hrun, by cases answer <;> simp⟩
  cases cond with
  | isNull =>
    obtain ⟨v, rest, rfl, hv, -⟩ := List.map_eq_cons_iff.mp hks
    obtain rfl := Value.null_of_kind hv
    exact ⟨1, .of_run rfl, by simp [Condition.test]⟩
  | isNonNull =>
    obtain ⟨v, rest, rfl, hv, -⟩ := List.map_eq_cons_iff.mp hks
    obtain rfl := Value.null_of_kind hv
    exact ⟨0, .of_run rfl, by simp [Condition.test]⟩
  | zero r =>
    obtain ⟨a, rest, rfl, -⟩ := hint hks
    rw [List.map_cons, Value.toVal_int]
    have hzero : a.toBitVec = 0 ↔ a = 0 := ⟨fun h => Int32.toBitVec_inj.mp h, fun h => h ▸ rfl⟩
    have hrelation {r : Relation} (hcode : condition (.zero r) = [.i32Const 0, relation r]) :
        runPlain (condition (.zero r)) ⟨.i32 a.toBitVec :: rest.map Value.toVal, locals, globals⟩ =
          some (.next, ⟨.ofBool (r.holds a 0) :: rest.map Value.toVal, locals, globals⟩) := by
      rw [hcode]
      exact runPlain_cons (run_relation r a 0)
    cases r with
    | eq => exact htest [.i32Eqz] (decide (a = 0)) (by rw [← decide_eq_decide.mpr hzero]; rfl)
    | ne =>
      have hne : decide (a ≠ 0) = false ↔ a = 0 := decide_eq_false_iff_not.trans not_not
      exact ⟨a.toBitVec, .of_run rfl, hzero.trans hne.symm⟩
    | lt | ge | gt | le => exact htest _ _ (hrelation rfl)
  | compare r =>
    obtain ⟨b, rest, rfl, hrest⟩ := hint hks
    obtain ⟨a, rest, rfl, -⟩ := hint hrest
    rw [List.map_cons, List.map_cons, Value.toVal_int, Value.toVal_int]
    exact htest [relation r] (r.holds a b) (runPlain_cons (run_relation r a b))

/-! ## Rearranging -/

theorem run_drops {n : Nat} (h : n ≤ c.stack.length) :
    runPlain (List.replicate n .drop) c = some (.next, { c with stack := c.stack.drop n }) := by
  induction n generalizing c with
  | zero => rfl
  | succ n ih =>
    obtain ⟨stack, locals, globals⟩ := c
    cases stack with
    | nil => simp at h
    | cons v stack =>
      have hdrop : Plain.drop.run? ⟨v :: stack, locals, globals⟩ =
          some (.next, ⟨stack, locals, globals⟩) := rfl
      rw [List.replicate_succ, runPlain_cons hdrop]
      exact ih (c := ⟨stack, locals, globals⟩) (by simpa using h)

/-- What lies below the values that are rearranged stays where it is. -/
theorem leaves_shuffle_over {op : StackOp} {ks : List Kind} {s : Shuffle} {vs : List Value}
    (hs : Shuffle.of? op ks = some s) {ps : List Plain} (h : ShuffleCode L s ks ps)
    (hks : vs.map Value.kind = ks) (hsize : c.locals.length = L.types.size)
    (hc : c.stack = vs.map Value.toVal ++ rest) :
    Leaves L ps c ((s.apply vs).map Value.toVal ++ rest) := by
  obtain ⟨htaken, -, -⟩ := StackTyping.shuffle_bounds hs
  rw [← hks, List.length_map] at htaken
  have hsplit : c.stack =
      (vs.take s.taken).map Value.toVal ++ ((vs.drop s.taken).map Value.toVal ++ rest) := by
    rw [hc, ← List.append_assoc, ← List.map_append, List.take_append_drop]
  have hlength : ((vs.take s.taken).map Value.toVal).length = s.taken := by
    rw [List.length_map, List.length_take_of_le htaken]
  unfold ShuffleCode at h
  split at h
  · next hempty =>
    obtain rfl := h
    have horder : s.order = [] := by simpa using hempty
    have hrun := run_drops (c := c) (n := s.taken) (by rw [hsplit, List.length_append]; omega)
    refine .of_run (hrun.trans ?_)
    rw [hsplit, List.drop_left' hlength, Shuffle.apply, Shuffle.pushed, horder]
    rfl
  · obtain ⟨ls, hls, rfl⟩ := h
    have hlen : ls.length = (vs.take s.taken).length := by
      rw [hls.each.length_eq, Shuffle.takenFrom, List.length_reverse, ← hks, ← List.map_take,
        List.length_map]
    obtain ⟨c', hrun, hstack, hkeeps, hstored, -⟩ := run_spill hls hsize hlen hsplit
    have hreload : Stored c'.locals (s.order.filterMap fun p => ls[p]?) (s.pushed vs) :=
      forall₂_filterMap hstored s.order
    refine ⟨_, (runPlain_append hrun).trans (run_reload hreload), ?_, hkeeps.trans (.refl c' _)⟩
    rw [hstack, ← List.append_assoc, ← List.map_append]
    rfl

theorem leaves_shuffle {op : StackOp} {ks : List Kind} {s : Shuffle} {vs : List Value}
    (hs : Shuffle.of? op ks = some s) {ps : List Plain} (h : ShuffleCode L s ks ps)
    (hks : vs.map Value.kind = ks) (hsize : c.locals.length = L.types.size)
    (hc : c.stack = vs.map Value.toVal) : Leaves L ps c ((s.apply vs).map Value.toVal) := by
  rw [← List.append_nil (List.map _ _)] at hc ⊢
  exact leaves_shuffle_over hs h hks hsize hc

end Lowering

end ClassWasm
