/-
  Execution of WebAssembly code. A construct runs its body on an operand stack of its own; a branch
  travels outward until it meets the construct it names, which a block leaves and a loop starts
  again. `exec` runs code in a bounded number of steps, and `Exec` says that some number of them is
  enough. Calls and floating point arithmetic are not given a meaning here, so no code that comes
  to one of them has an execution.
-/
import ClassWasm.Wasm.Module

namespace ClassWasm.Wasm

/-- Values. Numbers are patterns of bits; a reference is null or something of the host. -/
inductive Val where
  | i32 (v : BitVec 32)
  | i64 (v : BitVec 64)
  | f32 (bits : BitVec 32)
  | f64 (bits : BitVec 64)
  | ref (host : Option Nat)
deriving DecidableEq, Inhabited

namespace Val

/-- What a local that is no parameter holds at first. -/
def zero : ValType → Val
  | .i32 => i32 0
  | .i64 => i64 0
  | .f32 => f32 0
  | .f64 => f64 0
  | .funcref | .externref => ref none

/-- The value of a type that a word of 64 bits stands for. -/
def ofWord (t : ValType) (word : UInt64) : Val :=
  match t with
  | .i32 => i32 (word.toBitVec.setWidth 32)
  | .i64 => i64 word.toBitVec
  | .f32 => f32 (word.toBitVec.setWidth 32)
  | .f64 => f64 word.toBitVec
  | .funcref | .externref => ref none

/-- The answer of a test. -/
def ofBool (b : Bool) : Val := i32 (if b then 1 else 0)

end Val

/-- `none` for a trap. A shift takes its distance modulo the number of bits. -/
def IntBinary.eval {n : Nat} (op : IntBinary) (a b : BitVec n) : Option (BitVec n) :=
  match op with
  | add => some (a + b)
  | sub => some (a - b)
  | mul => some (a * b)
  | divS => if b = 0 ∨ a = BitVec.intMin n ∧ b = -1 then none else some (a.sdiv b)
  | remS => if b = 0 then none else some (a.srem b)
  | and => some (a &&& b)
  | or => some (a ||| b)
  | xor => some (a ^^^ b)
  | shl => some (a <<< (b.toNat % n))
  | shrS => some (a.sshiftRight (b.toNat % n))
  | shrU => some (a >>> (b.toNat % n))

def IntCompare.eval {n : Nat} (op : IntCompare) (a b : BitVec n) : Bool :=
  match op with
  | eq => a = b
  | ne => a ≠ b
  | ltS => a.slt b
  | gtS => b.slt a
  | leS => a.sle b
  | geS => b.sle a

/-- Conversions between integers. -/
def Convert.eval? : Convert → Val → Option Val
  | wrap, .i64 v => some (.i32 (v.setWidth 32))
  | extendS, .i32 v => some (.i64 (v.signExtend 64))
  | extendU, .i32 v => some (.i64 (v.setWidth 64))
  | extend8S, .i32 v => some (.i32 ((v.setWidth 8).signExtend 32))
  | extend16S, .i32 v => some (.i32 ((v.setWidth 16).signExtend 32))
  | _, _ => none

/-- The operands of the innermost construct, top first, and what the whole function can reach. -/
structure Config where
  stack : List Val
  locals : List Val
  globals : List Val
deriving DecidableEq, Inhabited

/-- How code ends: it is done, it branches to the construct that lies `depth` further out, it
returns or it traps. -/
inductive Outcome where
  | next
  | br (depth : Nat)
  | ret
  | trap
deriving DecidableEq, Inhabited

abbrev Answer := Option (Outcome × Config)

namespace Config

/-- Goes on with another operand stack. -/
def next (c : Config) (stack : List Val) : Answer := some (.next, { c with stack })

/-- Goes on with a result, or traps where there is none. -/
def nextOrTrap (c : Config) (v : Option Val) (rest : List Val) : Answer :=
  match v with
  | some v => c.next (v :: rest)
  | none => some (.trap, c)

end Config

/-- Runs an instruction that holds no others; `none` where it does not fit its operands. -/
def Plain.run? (p : Plain) (c : Config) : Answer :=
  match p, c.stack with
  | unreachable, _ => some (.trap, c)
  | br d, _ => some (.br d.toNat, c)
  | brIf d, .i32 v :: rest => some (if v = 0 then .next else .br d.toNat, { c with stack := rest })
  | brTable ds d, .i32 v :: rest =>
    some (.br ((ds[v.toNat]?).getD d).toNat, { c with stack := rest })
  | ret, _ => some (.ret, c)
  | drop, _ :: rest => c.next rest
  | select, .i32 v :: b :: a :: rest => c.next ((if v = 0 then b else a) :: rest)
  | localGet i, stack => (c.locals[i.toNat]?).bind fun v => c.next (v :: stack)
  | localSet i, v :: rest =>
    if i.toNat < c.locals.length then
      some (.next, { c with stack := rest, locals := c.locals.set i.toNat v })
    else none
  | localTee i, v :: rest =>
    if i.toNat < c.locals.length then
      some (.next, { c with stack := v :: rest, locals := c.locals.set i.toNat v })
    else none
  | globalGet i, stack => (c.globals[i.toNat]?).bind fun v => c.next (v :: stack)
  | globalSet i, v :: rest =>
    if i.toNat < c.globals.length then
      some (.next, { c with stack := rest, globals := c.globals.set i.toNat v })
    else none
  | i32Const v, stack => c.next (.i32 v.toBitVec :: stack)
  | i64Const v, stack => c.next (.i64 v.toBitVec :: stack)
  | f32Const bits, stack => c.next (.f32 bits.toBitVec :: stack)
  | f64Const bits, stack => c.next (.f64 bits.toBitVec :: stack)
  | i32Eqz, .i32 v :: rest => c.next (.ofBool (v = 0) :: rest)
  | intBinary .w32 op, .i32 b :: .i32 a :: rest => c.nextOrTrap ((op.eval a b).map .i32) rest
  | intBinary .w64 op, .i64 b :: .i64 a :: rest => c.nextOrTrap ((op.eval a b).map .i64) rest
  | intCompare .w32 op, .i32 b :: .i32 a :: rest => c.next (.ofBool (op.eval a b) :: rest)
  | intCompare .w64 op, .i64 b :: .i64 a :: rest => c.next (.ofBool (op.eval a b) :: rest)
  | convert conv, v :: rest => (conv.eval? v).bind fun v => c.next (v :: rest)
  | refNull _, stack => c.next (.ref none :: stack)
  | refIsNull, .ref host :: rest => c.next (.ofBool host.isNone :: rest)
  | _, _ => none

section

variable {v : Val} {a b : BitVec 32} {x y : BitVec 64} {rest locals globals : List Val}

@[simp] theorem Plain.run?_brIf (d : UInt32) : (brIf d).run? ⟨.i32 a :: rest, locals, globals⟩ =
    some (if a = 0 then .next else .br d.toNat, ⟨rest, locals, globals⟩) := rfl

@[simp] theorem Plain.run?_localGet (i : UInt32) (c : Config) :
    (localGet i).run? c = (c.locals[i.toNat]?).bind fun v => c.next (v :: c.stack) := rfl

@[simp] theorem Plain.run?_localSet (i : UInt32) : (localSet i).run? ⟨v :: rest, locals, globals⟩ =
    if i.toNat < locals.length then some (.next, ⟨rest, locals.set i.toNat v, globals⟩)
    else none := rfl

@[simp] theorem Plain.run?_globalGet (i : UInt32) (c : Config) :
    (globalGet i).run? c = (c.globals[i.toNat]?).bind fun v => c.next (v :: c.stack) := rfl

@[simp] theorem Plain.run?_globalSet (i : UInt32) :
    (globalSet i).run? ⟨v :: rest, locals, globals⟩ =
      if i.toNat < globals.length then some (.next, ⟨rest, locals, globals.set i.toNat v⟩)
      else none := rfl

@[simp] theorem Plain.run?_i32Const (n : Int32) (c : Config) :
    (i32Const n).run? c = c.next (.i32 n.toBitVec :: c.stack) := rfl

@[simp] theorem Plain.run?_intBinary32 (op : IntBinary) :
    (intBinary .w32 op).run? ⟨.i32 b :: .i32 a :: rest, locals, globals⟩ =
      Config.nextOrTrap ⟨.i32 b :: .i32 a :: rest, locals, globals⟩ ((op.eval a b).map .i32)
        rest := rfl

@[simp] theorem Plain.run?_intCompare32 (op : IntCompare) :
    (intCompare .w32 op).run? ⟨.i32 b :: .i32 a :: rest, locals, globals⟩ =
      some (.next, ⟨.ofBool (op.eval a b) :: rest, locals, globals⟩) := rfl

@[simp] theorem Plain.run?_intCompare64 (op : IntCompare) :
    (intCompare .w64 op).run? ⟨.i64 y :: .i64 x :: rest, locals, globals⟩ =
      some (.next, ⟨.ofBool (op.eval x y) :: rest, locals, globals⟩) := rfl

@[simp] theorem Plain.run?_convert (k : Convert) :
    (convert k).run? ⟨v :: rest, locals, globals⟩ =
      (k.eval? v).bind fun w => some (.next, ⟨w :: rest, locals, globals⟩) := rfl

end

/-- How many values a construct takes and gives. -/
def BlockType.arity? (T : Array FuncType) : BlockType → Option (Nat × Nat)
  | empty => some (0, 0)
  | value _ => some (0, 1)
  | func i => (T[i.toNat]?).map fun f => (f.params.length, f.results.length)

/-- What a construct that gives `n` values makes of the end of its body, where `rest` lies below its
operands. -/
def leave (n : Nat) (rest : List Val) : Outcome × Config → Outcome × Config
  | (.next, c) => (.next, { c with stack := c.stack.take n ++ rest })
  | (.br 0, c) => (.next, { c with stack := c.stack.take n ++ rest })
  | (.br (d + 1), c) => (.br d, c)
  | r => r

/-- Runs one instruction, where `run` runs code inside it. An arm of a conditional is a block. -/
def Instr.run? (T : Array FuncType) (run : List Instr → Config → Answer) (i : Instr) (c : Config) :
    Answer :=
  match i with
  | plain p => p.run? c
  | block t body => do
    let (m, n) ← t.arity? T
    let r ← run body { c with stack := c.stack.take m }
    some (leave n (c.stack.drop m) r)
  | loop t body => do
    let (m, n) ← t.arity? T
    match ← run body { c with stack := c.stack.take m } with
    | (.br 0, c') => run [loop t body] { c' with stack := c'.stack.take m ++ c.stack.drop m }
    | r => some (leave n (c.stack.drop m) r)
  | ifThen t body =>
    match c.stack with
    | .i32 v :: rest => run [block t (if v = 0 then [] else body)] { c with stack := rest }
    | _ => none
  | ifElse t body other =>
    match c.stack with
    | .i32 v :: rest => run [block t (if v = 0 then other else body)] { c with stack := rest }
    | _ => none

/-- Runs code in at most `fuel` steps. -/
def exec (T : Array FuncType) : (fuel : Nat) → List Instr → Config → Answer
  | 0, _, _ => none
  | _ + 1, [], c => some (.next, c)
  | fuel + 1, i :: is, c =>
    match i.run? T (exec T fuel) c with
    | some (.next, c) => exec T fuel is c
    | r => r

/-- The code ends this way. -/
def Exec (T : Array FuncType) (code : List Instr) (c : Config) (r : Outcome × Config) : Prop :=
  ∃ fuel, exec T fuel code c = some r

/-- How a function ends. -/
inductive Finish where
  | returned (results globals : List Val)
  | trapped
deriving DecidableEq, Inhabited

/-- What a function that gives `n` values makes of the end of its body. Its body is a construct of
its own, which a branch can leave. -/
def finish? (n : Nat) : Outcome × Config → Option Finish
  | (.next, c) | (.br 0, c) | (.ret, c) => some (.returned (c.stack.take n).reverse c.globals)
  | (.br (_ + 1), _) => none
  | (.trap, _) => some .trapped

/-- A function of a type, with the locals and the body it has, ends this way on arguments. -/
def Invokes (T : Array FuncType) (type : FuncType) (declared : List ValType) (body : List Instr)
    (args globals : List Val) (f : Finish) : Prop :=
  ∃ r, Exec T body ⟨[], args ++ declared.map Val.zero, globals⟩ r ∧
    finish? type.results.length r = some f

/-! ## More steps change nothing -/

theorem Instr.run?_mono {T : Array FuncType} {run run' : List Instr → Config → Answer}
    (hrun : ∀ code c r, run code c = some r → run' code c = some r) {i : Instr} {c : Config}
    {r : Outcome × Config} (h : i.run? T run c = some r) : i.run? T run' c = some r := by
  cases i with
  | plain p => exact h
  | block t body =>
    obtain ⟨⟨m, n⟩, harity, h⟩ := Option.bind_eq_some_iff.mp h
    obtain ⟨r₁, hbody, h⟩ := Option.bind_eq_some_iff.mp h
    simp only [Instr.run?, harity, hrun _ _ _ hbody, Option.bind_some, Option.bind_eq_bind]
    exact h
  | loop t body =>
    obtain ⟨⟨m, n⟩, harity, h⟩ := Option.bind_eq_some_iff.mp h
    obtain ⟨r₁, hbody, h⟩ := Option.bind_eq_some_iff.mp h
    simp only [Instr.run?, harity, hrun _ _ _ hbody, Option.bind_some, Option.bind_eq_bind]
    split
    · exact hrun _ _ _ h
    · next hne =>
      split at h
      · exact absurd rfl (hne _)
      · exact h
  | ifThen t body =>
    simp only [Instr.run?] at h ⊢
    split at h
    · exact hrun _ _ _ h
    · cases h
  | ifElse t body other =>
    simp only [Instr.run?] at h ⊢
    split at h
    · exact hrun _ _ _ h
    · cases h

theorem exec_succ {T : Array FuncType} {fuel : Nat} {code : List Instr} {c : Config}
    {r : Outcome × Config} (h : exec T fuel code c = some r) : exec T (fuel + 1) code c = some r := by
  induction fuel generalizing code c r with
  | zero => cases h
  | succ fuel ih =>
    cases code with
    | nil => exact h
    | cons i is =>
      rw [exec] at h ⊢
      have hmono (r : Outcome × Config) (hi : i.run? T (exec T fuel) c = some r) :
          i.run? T (exec T (fuel + 1)) c = some r := Instr.run?_mono (fun _ _ _ => ih) hi
      cases hi : i.run? T (exec T fuel) c with
      | none =>
        rw [hi] at h
        cases h
      | some r₁ =>
        rw [hi] at h
        rw [hmono r₁ hi]
        split at h
        · next c₁ he =>
          cases he
          exact ih h
        · exact h

theorem exec_mono {T : Array FuncType} {m n : Nat} {code : List Instr} {c : Config}
    {r : Outcome × Config} (h : exec T m code c = some r) (hmn : m ≤ n) :
    exec T n code c = some r := by
  induction hmn with
  | refl => exact h
  | step _ ih => exact exec_succ ih

/-- Code ends in one way at most. -/
theorem Exec.unique {T : Array FuncType} {code : List Instr} {c : Config} {r r' : Outcome × Config}
    (h : Exec T code c r) (h' : Exec T code c r') : r = r' := by
  obtain ⟨m, hm⟩ := h
  obtain ⟨n, hn⟩ := h'
  have hm := exec_mono hm (Nat.le_max_left m n)
  have hn := exec_mono hn (Nat.le_max_right m n)
  exact Option.some.inj (hm.symm.trans hn)

theorem Invokes.unique {T : Array FuncType} {type : FuncType} {declared : List ValType}
    {body : List Instr} {args globals : List Val} {f f' : Finish}
    (h : Invokes T type declared body args globals f)
    (h' : Invokes T type declared body args globals f') : f = f' := by
  obtain ⟨r, hr, hf⟩ := h
  obtain ⟨r', hr', hf'⟩ := h'
  obtain rfl := hr.unique hr'
  exact Option.some.inj (hf.symm.trans hf')

/-! ## Rules -/

/-- One instruction ends this way. -/
def Instr.Runs (T : Array FuncType) (i : Instr) (c : Config) (r : Outcome × Config) : Prop :=
  ∃ fuel, i.run? T (exec T fuel) c = some r

section

-- The rules open both again and again, so their equations are made once, here.
attribute [local simp] exec Instr.run?

variable {T : Array FuncType} {code code' body : List Instr} {c c₁ : Config}
  {r r₁ : Outcome × Config}

theorem Exec.nil (c : Config) : Exec T [] c (.next, c) := ⟨1, rfl⟩

theorem Exec.cons {i : Instr} (hi : i.Runs T c (.next, c₁)) (h : Exec T code c₁ r) :
    Exec T (i :: code) c r := by
  obtain ⟨m, hm⟩ := hi
  obtain ⟨n, hn⟩ := h
  refine ⟨max m n + 1, ?_⟩
  rw [exec, Instr.run?_mono (fun _ _ _ h => exec_mono h (Nat.le_max_left m n)) hm]
  exact exec_mono hn (Nat.le_max_right m n)

/-- An instruction that does not go on ends the code it stands in. -/
theorem Exec.stop {i : Instr} (hi : i.Runs T c r) (hr : r.1 ≠ .next) (code : List Instr) :
    Exec T (i :: code) c r := by
  obtain ⟨m, hm⟩ := hi
  refine ⟨m + 1, ?_⟩
  rw [exec, hm]
  split
  · next c₁ he =>
    cases he
    exact absurd rfl hr
  · rfl

theorem Exec.single {i : Instr} (hi : i.Runs T c r) : Exec T [i] c r := by
  by_cases hr : r.1 = .next
  · obtain ⟨o, c₁⟩ := r
    obtain rfl : o = .next := hr
    exact .cons hi (.nil c₁)
  · exact .stop hi hr []

theorem exec_append {m n : Nat} (h : exec T m code c = some (.next, c₁))
    (h' : exec T n code' c₁ = some r) : exec T (m + n) (code ++ code') c = some r := by
  induction m generalizing code c with
  | zero => cases h
  | succ m ih =>
    cases code with
    | nil =>
      cases h
      exact exec_mono h' (by omega)
    | cons i is =>
      rw [exec] at h
      split at h
      · next c₂ hi =>
        have hrest := ih h
        rw [Nat.add_right_comm, List.cons_append, exec,
          Instr.run?_mono (fun _ _ _ h => exec_mono h (Nat.le_add_right m n)) hi]
        exact hrest
      · next hne => exact absurd h (hne c₁)

theorem Exec.append (h : Exec T code c (.next, c₁)) (h' : Exec T code' c₁ r) :
    Exec T (code ++ code') c r := by
  obtain ⟨m, hm⟩ := h
  obtain ⟨n, hn⟩ := h'
  exact ⟨m + n, exec_append hm hn⟩

theorem Exec.append_stop (h : Exec T code c r) (hr : r.1 ≠ .next) (code' : List Instr) :
    Exec T (code ++ code') c r := by
  obtain ⟨m, hm⟩ := h
  refine ⟨m, ?_⟩
  induction m generalizing code c with
  | zero => cases hm
  | succ m ih =>
    cases code with
    | nil =>
      cases hm
      exact absurd rfl hr
    | cons i is =>
      rw [exec] at hm
      rw [List.cons_append, exec]
      split at hm
      · exact ih hm
      · exact hm

theorem Exec.block {t : BlockType} {m n : Nat} (ht : t.arity? T = some (m, n))
    (h : Exec T body { c with stack := c.stack.take m } r) :
    (Instr.block t body).Runs T c (leave n (c.stack.drop m) r) := by
  obtain ⟨fuel, hfuel⟩ := h
  refine ⟨fuel, ?_⟩
  simp only [Instr.run?, ht, hfuel, Option.bind_some, Option.bind_eq_bind]

theorem Exec.loop {t : BlockType} {m n : Nat} (ht : t.arity? T = some (m, n))
    (h : Exec T body { c with stack := c.stack.take m } r) (hr : r.1 ≠ .br 0) :
    (Instr.loop t body).Runs T c (leave n (c.stack.drop m) r) := by
  obtain ⟨fuel, hfuel⟩ := h
  refine ⟨fuel, ?_⟩
  simp only [Instr.run?, ht, hfuel, Option.bind_some, Option.bind_eq_bind]
  split
  · exact absurd rfl hr
  · rfl

/-- A branch to a loop starts it again. -/
theorem Exec.again {t : BlockType} {m n : Nat} (ht : t.arity? T = some (m, n))
    (h : Exec T body { c with stack := c.stack.take m } (.br 0, c₁))
    (hagain : (Instr.loop t body).Runs T { c₁ with stack := c₁.stack.take m ++ c.stack.drop m } r) :
    (Instr.loop t body).Runs T c r := by
  obtain ⟨k, hk⟩ := h
  obtain ⟨l, hl⟩ := Exec.single hagain
  refine ⟨max k l, ?_⟩
  simp only [Instr.run?, ht, exec_mono hk (Nat.le_max_left k l), Option.bind_some,
    Option.bind_eq_bind]
  exact exec_mono hl (Nat.le_max_right k l)

theorem Exec.ifThen {t : BlockType} {v : BitVec 32} {rest : List Val} (hc : c.stack = .i32 v :: rest)
    (h : (Instr.block t (if v = 0 then [] else body)).Runs T { c with stack := rest } r) :
    (Instr.ifThen t body).Runs T c r := by
  obtain ⟨fuel, hfuel⟩ := Exec.single h
  refine ⟨fuel, ?_⟩
  simp only [Instr.run?, hc, hfuel]

theorem Exec.ifElse {t : BlockType} {other : List Instr} {v : BitVec 32} {rest : List Val}
    (hc : c.stack = .i32 v :: rest)
    (h : (Instr.block t (if v = 0 then other else body)).Runs T { c with stack := rest } r) :
    (Instr.ifElse t body other).Runs T c r := by
  obtain ⟨fuel, hfuel⟩ := Exec.single h
  refine ⟨fuel, ?_⟩
  simp only [Instr.run?, hc, hfuel]

end

/-! ## Straight code -/

/-- Runs instructions that hold no others. -/
def runPlain : List Plain → Config → Answer
  | [], c => some (.next, c)
  | p :: ps, c =>
    match p.run? c with
    | some (.next, c) => runPlain ps c
    | r => r

theorem runPlain_cons {p : Plain} {ps : List Plain} {c c₁ : Config}
    (h : p.run? c = some (.next, c₁)) : runPlain (p :: ps) c = runPlain ps c₁ := by
  rw [runPlain, h]

theorem runPlain_append {ps qs : List Plain} {c c₁ : Config}
    (h : runPlain ps c = some (.next, c₁)) : runPlain (ps ++ qs) c = runPlain qs c₁ := by
  induction ps generalizing c with
  | nil =>
    cases h
    rfl
  | cons p ps ih =>
    rw [runPlain] at h
    rw [List.cons_append, runPlain]
    split at h
    · exact ih h
    · next hne => exact absurd h (hne c₁)

theorem Exec.plain {T : Array FuncType} {ps : List Plain} {c : Config} {r : Outcome × Config}
    (h : runPlain ps c = some r) : Exec T (ps.map .plain) c r := by
  induction ps generalizing c with
  | nil =>
    cases h
    exact .nil c
  | cons p ps ih =>
    rw [runPlain] at h
    split at h
    · next c₁ hp => exact .cons ⟨0, hp⟩ (ih h)
    · next hne =>
      have hp : (Instr.plain p).Runs T c r := ⟨0, h⟩
      refine .stop hp (fun hr => ?_) _
      obtain ⟨o, c₁⟩ := r
      obtain rfl : o = .next := hr
      exact hne c₁ h

end ClassWasm.Wasm
