/-
  Validation of code. `Instr.Valid env i ts us` says that the instruction `i` takes operands of the
  types `ts` and gives results of the types `us`, lowest first, by the validation rules of
  WebAssembly: each construct is checked on its own part of the stack, and what follows a branch, a
  return or a trap may assume any stack. Straight code can also be checked by running over it with a
  stack of types (`Plain.after?`), and what passes that check is valid (`runTypes_valid`).
-/
import ClassWasm.Proofs.Wasm.Binary

namespace ClassWasm.Wasm

/-- What all functions of a module can refer to. -/
structure Scope where
  types : Array FuncType
  functions : List FuncType
  globals : List GlobalType

/-- What an instruction can refer to. Labels are those of the constructs around it, innermost first,
with the types that a branch to them takes along. -/
structure Env extends Scope where
  locals : List ValType
  labels : List (List ValType)
  results : List ValType

namespace ValType

def isRef : ValType → Bool
  | funcref | externref => true
  | _ => false

end ValType

namespace Width

def intType : Width → ValType
  | w32 => .i32
  | w64 => .i64

def floatType : Width → ValType
  | w32 => .f32
  | w64 => .f64

end Width

/-- The types that a conversion goes from and to. -/
def Convert.type : Convert → FuncType
  | wrap => ⟨[.i64], [.i32]⟩
  | extendS | extendU => ⟨[.i32], [.i64]⟩
  | toFloatS source target => ⟨[source.intType], [target.floatType]⟩
  | truncSatS source target => ⟨[source.floatType], [target.intType]⟩
  | promote => ⟨[.f32], [.f64]⟩
  | demote => ⟨[.f64], [.f32]⟩
  | extend8S | extend16S => ⟨[.i32], [.i32]⟩

/-- The type of an instruction that has a single one. -/
def Plain.type? (env : Env) : Plain → Option FuncType
  | brIf d => (env.labels[d.toNat]?).map fun ts => ⟨ts ++ [.i32], ts⟩
  | call f => env.functions[f.toNat]?
  | localGet i => (env.locals[i.toNat]?).map fun t => ⟨[], [t]⟩
  | localSet i => (env.locals[i.toNat]?).map fun t => ⟨[t], []⟩
  | localTee i => (env.locals[i.toNat]?).map fun t => ⟨[t], [t]⟩
  | globalGet i => (env.globals[i.toNat]?).map fun g => ⟨[], [g.type]⟩
  | globalSet i =>
    match env.globals[i.toNat]? with
    | some ⟨t, true⟩ => some ⟨[t], []⟩
    | _ => none
  | i32Const _ => some ⟨[], [.i32]⟩
  | i64Const _ => some ⟨[], [.i64]⟩
  | f32Const _ => some ⟨[], [.f32]⟩
  | f64Const _ => some ⟨[], [.f64]⟩
  | i32Eqz => some ⟨[.i32], [.i32]⟩
  | intBinary w _ => some ⟨[w.intType, w.intType], [w.intType]⟩
  | intCompare w _ => some ⟨[w.intType, w.intType], [.i32]⟩
  | floatNeg w => some ⟨[w.floatType], [w.floatType]⟩
  | floatBinary w _ => some ⟨[w.floatType, w.floatType], [w.floatType]⟩
  | floatCompare w _ => some ⟨[w.floatType, w.floatType], [.i32]⟩
  | convert c => some c.type
  | refNull t => if t.isRef then some ⟨[], [t]⟩ else none
  | unreachable | br _ | brTable .. | ret | drop | select | refIsNull => none

/-- What takes operands `ts` and gives results `us`. Instructions that control does not go past give
whatever is asked for, and a branch or return leaves the values `base` below what it takes along. -/
inductive Plain.Valid (env : Env) : Plain → (ts us : List ValType) → Prop
  | typed {p : Plain} {ts us : List ValType} : p.type? env = some ⟨ts, us⟩ → Valid env p ts us
  | drop (t : ValType) : Valid env .drop [t] []
  | select {t : ValType} : t.isRef = false → Valid env .select [t, t, .i32] [t]
  | refIsNull {t : ValType} : t.isRef = true → Valid env .refIsNull [t] [.i32]
  | unreachable (ts us : List ValType) : Valid env .unreachable ts us
  | br {d : UInt32} {ts : List ValType} (base us : List ValType) : env.labels[d.toNat]? = some ts →
    Valid env (.br d) (base ++ ts) us
  | brTable {ds : List UInt32} {d : UInt32} {ts : List ValType} (base us : List ValType) :
    ds.length < 2 ^ 32 → (∀ d' ∈ d :: ds, env.labels[d'.toNat]? = some ts) →
    Valid env (.brTable ds d) (base ++ ts ++ [.i32]) us
  | ret (base us : List ValType) : Valid env .ret (base ++ env.results) us

/-- What a construct of a block type takes and gives. -/
def Env.Expands (env : Env) : BlockType → (ts us : List ValType) → Prop
  | .empty, ts, us => ts = [] ∧ us = []
  | .value t, ts, us => ts = [] ∧ us = [t]
  | .func i, ts, us => env.types[i.toNat]? = some ⟨ts, us⟩

/-- Inside a construct that a branch with values of the types `ts` can go to. -/
def Env.inside (env : Env) (ts : List ValType) : Env := { env with labels := ts :: env.labels }

mutual

inductive Instr.Valid : Env → Instr → (ts us : List ValType) → Prop
  | plain {env : Env} {p : Plain} {ts us : List ValType} :
    p.Valid env ts us → Instr.Valid env (.plain p) ts us
  | block {env : Env} {t : BlockType} {body : List Instr} {ts us : List ValType} :
    env.Expands t ts us → Instr.AllValid (env.inside us) body ts us →
    Instr.Valid env (.block t body) ts us
  | loop {env : Env} {t : BlockType} {body : List Instr} {ts us : List ValType} :
    env.Expands t ts us → Instr.AllValid (env.inside ts) body ts us →
    Instr.Valid env (.loop t body) ts us
  | ifThen {env : Env} {t : BlockType} {body : List Instr} {ts : List ValType} :
    env.Expands t ts ts → Instr.AllValid (env.inside ts) body ts ts →
    Instr.Valid env (.ifThen t body) (ts ++ [.i32]) ts
  | ifElse {env : Env} {t : BlockType} {body other : List Instr} {ts us : List ValType} :
    env.Expands t ts us → Instr.AllValid (env.inside us) body ts us →
    Instr.AllValid (env.inside us) other ts us →
    Instr.Valid env (.ifElse t body other) (ts ++ [.i32]) us

/-- Instructions one after the other, each on top of values `base` that it leaves alone. -/
inductive Instr.AllValid : Env → List Instr → (ts us : List ValType) → Prop
  | nil (env : Env) (ts : List ValType) : Instr.AllValid env [] ts ts
  | cons {env : Env} {i : Instr} {is : List Instr} {ts us vs : List ValType} (base : List ValType) :
    Instr.Valid env i ts us → Instr.AllValid env is (base ++ us) vs →
    Instr.AllValid env (i :: is) (base ++ ts) vs

end

/-- The body of a function takes nothing from the stack and leaves the results. A branch out of all
constructs leads to its end. -/
def ValidBody (scope : Scope) (type : FuncType) (locals : List ValType) (body : List Instr) : Prop :=
  Instr.AllValid { scope with
    locals := type.params ++ locals, labels := [type.results], results := type.results }
    body [] type.results

namespace Instr

theorem AllValid.append {env : Env} {is js : List Instr} {ts us vs : List ValType}
    (h : AllValid env is ts us) (h' : AllValid env js us vs) : AllValid env (is ++ js) ts vs := by
  induction is generalizing ts with
  | nil =>
    cases h
    exact h'
  | cons i is ih =>
    cases h with
    | cons base hi his => exact .cons base hi (ih his)

theorem AllValid.single {env : Env} {i : Instr} {ts us : List ValType} (base : List ValType)
    (h : i.Valid env ts us) : AllValid env [i] (base ++ ts) (base ++ us) := .cons base h (.nil _ _)

end Instr

/-! ## Binary form -/

theorem Plain.Valid.writable {env : Env} {p : Plain} {ts us : List ValType}
    (h : p.Valid env ts us) : p.Writable := by
  cases h with
  | typed h =>
    cases p with
    | brTable ds d => cases h
    | refNull t => cases t <;> first | exact .inl rfl | exact .inr rfl | cases h
    | _ => trivial
  | brTable base us hlen => exact hlen
  | drop | select | refIsNull | unreachable | br | ret => trivial

mutual

theorem Instr.Valid.writable {env : Env} {i : Instr} {ts us : List ValType}
    (h : i.Valid env ts us) : i.Writable := by
  match h with
  | .plain hp => exact hp.writable
  | .block _ hbody => exact hbody.writable
  | .loop _ hbody => exact hbody.writable
  | .ifThen _ hbody => exact hbody.writable
  | .ifElse _ hbody hother => exact ⟨hbody.writable, hother.writable⟩

/-- Code that is valid has a binary form. -/
theorem Instr.AllValid.writable {env : Env} {is : List Instr} {ts us : List ValType}
    (h : AllValid env is ts us) : AllWritable is := by
  match h with
  | .nil _ _ => trivial
  | .cons _ hi his => exact ⟨hi.writable, his.writable⟩

end

/-! ## Straight code -/

/-- Takes values of the types `ts` off a stack, the first of them from the top. -/
def takeTypes : (ts stack : List ValType) → Option (List ValType)
  | [], stack => some stack
  | _ :: _, [] => none
  | t :: ts, found :: stack => if found = t then takeTypes ts stack else none

/-- The stack of types, top first, after an instruction that control goes past. -/
def Plain.after? (env : Env) (p : Plain) (stack : List ValType) : Option (List ValType) :=
  match p, stack with
  | .drop, _ :: rest => some rest
  | .select, .i32 :: t :: u :: rest => if t = u ∧ t.isRef = false then some (t :: rest) else none
  | .refIsNull, t :: rest => if t.isRef then some (.i32 :: rest) else none
  | p, stack => do
    let type ← p.type? env
    let rest ← takeTypes type.params.reverse stack
    some (type.results.reverse ++ rest)

/-- The stack of types after instructions that control goes past. -/
def runTypes (env : Env) : List Plain → List ValType → Option (List ValType)
  | [], stack => some stack
  | p :: ps, stack => (p.after? env stack).bind (runTypes env ps)

theorem runTypes_append (env : Env) (ps qs : List Plain) (stack : List ValType) :
    runTypes env (ps ++ qs) stack = (runTypes env ps stack).bind (runTypes env qs) := by
  induction ps generalizing stack with
  | nil => rfl
  | cons p ps ih =>
    rw [List.cons_append, runTypes, runTypes]
    cases p.after? env stack with
    | none => rfl
    | some mid => exact ih mid

theorem takeTypes_eq_some {ts stack rest : List ValType} (h : takeTypes ts stack = some rest) :
    stack = ts ++ rest := by
  induction ts generalizing stack with
  | nil =>
    cases h
    rfl
  | cons t ts ih =>
    cases stack with
    | nil => cases h
    | cons found stack =>
      unfold takeTypes at h
      split at h
      · next hf => rw [hf, ih h, List.cons_append]
      · cases h

@[simp] theorem takeTypes_append (ts rest : List ValType) : takeTypes ts (ts ++ rest) = some rest := by
  induction ts with
  | nil => rfl
  | cons t ts ih => rw [List.cons_append, takeTypes, if_pos rfl, ih]

theorem after?_valid {env : Env} {p : Plain} {stack stack' : List ValType}
    (h : p.after? env stack = some stack') :
    Instr.AllValid env [.plain p] stack.reverse stack'.reverse := by
  unfold Plain.after? at h
  split at h
  · next t rest =>
    have hdrop : Instr.Valid env (.plain .drop) [t] [] := .plain (.drop t)
    have hall := Instr.AllValid.single rest.reverse hdrop
    cases h
    simpa using hall
  · next t u rest =>
    split at h
    · next ht =>
      cases h
      obtain ⟨rfl, href⟩ := ht
      have hselect : Instr.Valid env (.plain .select) [t, t, .i32] [t] := .plain (.select href)
      simpa using Instr.AllValid.single rest.reverse hselect
    · cases h
  · next t rest =>
    split at h
    · next href =>
      cases h
      have hnull : Instr.Valid env (.plain .refIsNull) [t] [.i32] := .plain (.refIsNull href)
      simpa using Instr.AllValid.single rest.reverse hnull
    · cases h
  · obtain ⟨type, ht, h⟩ := Option.bind_eq_some_iff.mp h
    obtain ⟨rest, hr, h⟩ := Option.bind_eq_some_iff.mp h
    cases h
    have := Instr.AllValid.single rest.reverse (.plain (.typed ht))
    rw [takeTypes_eq_some hr]
    simpa using this

theorem after?_of_type {env : Env} {p : Plain} (ts us : List ValType)
    (h : p.type? env = some ⟨ts, us⟩) (stack : List ValType) :
    p.after? env (ts.reverse ++ stack) = some (us.reverse ++ stack) := by
  have htyped : (do
      let type ← p.type? env
      let rest ← takeTypes type.params.reverse (ts.reverse ++ stack)
      some (type.results.reverse ++ rest)) = some (us.reverse ++ stack) := by
    rw [h]
    simp
  cases p with
  | drop | select | refIsNull => cases h
  | _ => exact htyped

section

variable (env : Env) (stack : List ValType)

@[simp] theorem after?_i32Const (v : Int32) :
    (Plain.i32Const v).after? env stack = some (.i32 :: stack) := rfl

@[simp] theorem after?_i32Eqz : Plain.i32Eqz.after? env (.i32 :: stack) = some (.i32 :: stack) := rfl

@[simp] theorem after?_intBinary (w : Width) (op : IntBinary) :
    (Plain.intBinary w op).after? env (w.intType :: w.intType :: stack) = some (w.intType :: stack) :=
  after?_of_type [w.intType, w.intType] [w.intType] rfl stack

@[simp] theorem after?_intCompare (w : Width) (op : IntCompare) :
    (Plain.intCompare w op).after? env (w.intType :: w.intType :: stack) = some (.i32 :: stack) :=
  after?_of_type [w.intType, w.intType] [.i32] rfl stack

@[simp] theorem after?_floatCompare (w : Width) (op : FloatCompare) :
    (Plain.floatCompare w op).after? env (w.floatType :: w.floatType :: stack) =
      some (.i32 :: stack) :=
  after?_of_type [w.floatType, w.floatType] [.i32] rfl stack

@[simp] theorem after?_select (w : Width) : Plain.select.after? env
    (.i32 :: w.intType :: w.intType :: stack) = some (w.intType :: stack) := by
  cases w <;> rfl

end

/-- Straight code that passes the check is valid. -/
theorem runTypes_valid {env : Env} {ps : List Plain} {stack stack' : List ValType}
    (h : runTypes env ps stack = some stack') :
    Instr.AllValid env (ps.map .plain) stack.reverse stack'.reverse := by
  induction ps generalizing stack with
  | nil =>
    cases h
    exact .nil _ _
  | cons p ps ih =>
    obtain ⟨mid, hp, hps⟩ := Option.bind_eq_some_iff.mp h
    exact (after?_valid hp).append (ih hps)

end ClassWasm.Wasm
