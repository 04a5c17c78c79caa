/-
  Comparisons of floating point numbers under any order of their patterns. Execution of straight
  code and of single operations is extended to such an order: the tests of WebAssembly read it, and
  a three-way comparison gives what it says. Straight code that has a run keeps it
  (`runPlainIn_of_run`), and with the order of the numbers themselves operations do what they do in
  the machine (`stepIn_ieee`).
-/
import ClassWasm.Machine.Step
import ClassWasm.Proofs.Wasm.Execution

namespace ClassWasm

/-- How two patterns compare; `none` where they are unordered. -/
structure FloatOrder where
  single : BitVec 32 → BitVec 32 → Option Ordering
  double : BitVec 64 → BitVec 64 → Option Ordering

/-- The order of the numbers that patterns stand for. -/
def FloatOrder.ieee : FloatOrder where
  single a b := Ieee.compare? Ieee.single a.toNat b.toNat
  double a b := Ieee.compare? Ieee.double a.toNat b.toNat

/-! ## Operations -/

/-- The outcome of a three-way comparison. -/
def Comparison.ofOrdering (c : Comparison) : Option Ordering → Int32
  | some o => orderingInt o
  | none => c.unordered

def Comparison.evalIn (order : FloatOrder) (c : Comparison) (a b : Value) : Int32 :=
  match a, b with
  | .long a, .long b => orderingInt (Ord.compare a.toInt b.toInt)
  | .float a, .float b => c.ofOrdering (order.single a.toBitVec b.toBitVec)
  | .double a, .double b => c.ofOrdering (order.double a.toBitVec b.toBitVec)
  | _, _ => c.unordered

theorem Comparison.evalIn_ieee (c : Comparison) (a b : Value) : c.evalIn .ieee a b = c.eval a b := by
  have hordering (o : Option Ordering) : c.ofOrdering o = match o with
      | some o => orderingInt o
      | none => c.unordered := by
    cases o <;> rfl
  cases a with
  | float a =>
    cases b with
    | float b => exact hordering _
    | _ => rfl
  | double a =>
    cases b with
    | double b => exact hordering _
    | _ => rfl
  | _ => cases b <;> rfl

namespace Machine

/-- Runs an operation like `step`, with comparisons under the order. -/
def stepIn (order : FloatOrder) : Operation → Step Control
  | .compare c => do
    let (a, b) ← popTwo c.kind c.kind
    Frame.push (.int (c.evalIn order a b))
    pure .next
  | op => step op

theorem stepIn_ieee (op : Operation) : stepIn .ieee op = step op := by
  cases op with
  | compare c => simp only [stepIn, step, Comparison.evalIn_ieee]
  | _ => rfl

end Machine

/-! ## Code -/

namespace Wasm

/-- Whether a test holds of patterns that compare like this. No test holds of unordered ones. -/
def FloatCompare.holds : FloatCompare → Option Ordering → Bool
  | _, none => false
  | lt, some o => o = .lt
  | gt, some o => o = .gt
  | le, some o => o ≠ .gt
  | ge, some o => o ≠ .lt

/-- Runs an instruction like `Plain.run?`, with tests under the order. -/
def Plain.runIn? (order : FloatOrder) (p : Plain) (c : Config) : Answer :=
  match p, c.stack with
  | floatCompare .w32 op, .f32 b :: .f32 a :: rest =>
    c.next (.ofBool (op.holds (order.single a b)) :: rest)
  | floatCompare .w64 op, .f64 b :: .f64 a :: rest =>
    c.next (.ofBool (op.holds (order.double a b)) :: rest)
  | p, _ => p.run? c

def runPlainIn (order : FloatOrder) : List Plain → Config → Answer
  | [], c => some (.next, c)
  | p :: ps, c =>
    match p.runIn? order c with
    | some (.next, c) => runPlainIn order ps c
    | r => r

variable {order : FloatOrder} {p : Plain} {ps qs : List Plain} {c c₁ : Config}
  {r : Outcome × Config}

/-- Only tests of floating point numbers depend on the order, and they have no run without one. -/
theorem Plain.runIn?_of_run (h : p.run? c = some r) : p.runIn? order c = some r := by
  obtain ⟨stack, locals, globals⟩ := c
  unfold runIn?
  split
  · cases h
  · cases h
  · exact h

theorem runPlainIn_of_run (h : runPlain ps c = some r) : runPlainIn order ps c = some r := by
  induction ps generalizing c with
  | nil => exact h
  | cons p ps ih =>
    rw [runPlain] at h
    split at h
    · next c₁ hp =>
      rw [runPlainIn, Plain.runIn?_of_run hp]
      exact ih h
    · next hne =>
      rw [runPlainIn, Plain.runIn?_of_run h]
      obtain ⟨o, c₁⟩ := r
      cases o with
      | next => exact absurd h (hne c₁)
      | _ => rfl

theorem runPlainIn_append (h : runPlainIn order ps c = some (.next, c₁)) :
    runPlainIn order (ps ++ qs) c = runPlainIn order qs c₁ := by
  induction ps generalizing c with
  | nil =>
    cases h
    rfl
  | cons p ps ih =>
    rw [runPlainIn] at h
    rw [List.cons_append, runPlainIn]
    split at h
    · exact ih h
    · next hne => exact absurd h (hne c₁)

/-! ## Locals that stay as they are -/

/-- The local that an instruction sets. -/
def Plain.target? : Plain → Option Nat
  | localSet i | localTee i => some i.toNat
  | _ => none

def targets (ps : List Plain) : List Nat := ps.filterMap Plain.target?

theorem Config.locals_of_nextOrTrap {v : Option Val} {rest : List Val}
    (h : c.nextOrTrap v rest = some r) : r.2.locals = c.locals := by
  cases v <;> cases h <;> rfl

theorem Plain.locals_of_run? (h : p.run? c = some r) {j : Nat} (hj : p.target? ≠ some j) :
    r.2.locals[j]? = c.locals[j]? := by
  obtain ⟨stack, locals, globals⟩ := c
  cases p with
  | unreachable | br | ret | i32Const | i64Const | f32Const | f64Const | refNull =>
    cases h
    rfl
  | floatCompare | floatBinary | floatNeg | call => cases h
  | localGet | globalGet =>
    obtain ⟨v, -, ⟨⟩⟩ := Option.bind_eq_some_iff.mp h
    rfl
  | localSet i | localTee i =>
    cases stack with
    | nil => cases h
    | cons v rest =>
      dsimp only [run?] at h
      split at h
      · cases h
        exact List.getElem?_set_ne fun he => hj (congrArg some he)
      · cases h
  | globalSet i =>
    cases stack with
    | nil => cases h
    | cons v rest =>
      rw [run?_globalSet] at h
      split at h <;> cases h
      rfl
  | brIf | brTable | drop | i32Eqz | refIsNull =>
    cases stack with
    | nil => cases h
    | cons v rest => cases v <;> cases h <;> rfl
  | select =>
    rcases stack with _ | ⟨v, _ | ⟨b, _ | ⟨a, rest⟩⟩⟩
    · cases h
    · cases v <;> cases h
    · cases v <;> cases h
    · cases v with
      | i32 v =>
        cases h
        rfl
      | _ => cases h
  | convert k =>
    cases stack with
    | nil => cases h
    | cons v rest =>
      obtain ⟨v, -, ⟨⟩⟩ := Option.bind_eq_some_iff.mp h
      rfl
  | intBinary w op =>
    rcases stack with _ | ⟨b, _ | ⟨a, rest⟩⟩
    · cases w <;> cases h
    · cases w <;> cases b <;> cases h
    · cases w <;> cases b <;> cases a <;> first | cases h | rw [Config.locals_of_nextOrTrap h]
  | intCompare w op =>
    rcases stack with _ | ⟨b, _ | ⟨a, rest⟩⟩
    · cases w <;> cases h
    · cases w <;> cases b <;> cases h
    · cases w <;> cases b <;> cases a <;> cases h <;> rfl

theorem Plain.locals_of_runIn? (h : p.runIn? order c = some r) {j : Nat} (hj : p.target? ≠ some j) :
    r.2.locals[j]? = c.locals[j]? := by
  obtain ⟨stack, locals, globals⟩ := c
  unfold runIn? at h
  split at h
  · cases h
    rfl
  · cases h
    rfl
  · exact Plain.locals_of_run? h hj

/-- Straight code leaves alone every local that none of its instructions sets. -/
theorem locals_of_runPlainIn (h : runPlainIn order ps c = some r) {j : Nat}
    (hj : j ∉ targets ps) : r.2.locals[j]? = c.locals[j]? := by
  induction ps generalizing c with
  | nil =>
    cases h
    rfl
  | cons p ps ih =>
    obtain ⟨hp, hps⟩ : p.target? ≠ some j ∧ j ∉ targets ps := by
      simpa only [targets, List.mem_filterMap, List.mem_cons, exists_eq_or_imp, not_or] using hj
    rw [runPlainIn] at h
    split at h
    · next c₁ hrun => exact (ih h hps).trans (Plain.locals_of_runIn? hrun hp)
    · exact Plain.locals_of_runIn? h hp

end Wasm

end ClassWasm
