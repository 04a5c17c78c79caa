/-
  Runs of a method that calls no other, in a machine whose classes have all been initialised. A run
  goes from point to point; `Point.Ends.cases` takes it apart at its first instruction, and the
  lemmas below it say what each instruction does to a frame whose stack has the kinds it needs.
-/
import Mathlib
import ClassWasm.Machine
import ClassWasm.Proofs.Hierarchy
import ClassWasm.Proofs.Lowering.Locals
import ClassWasm.Proofs.StackTyping

namespace ClassWasm

theorem Value.int_of_kind {v : Value} (h : v.kind = .int) : ∃ a, v = .int a := by
  cases v with
  | int a => exact ⟨a, rfl⟩
  | _ => cases h

theorem Value.long_of_kind {v : Value} (h : v.kind = .long) : ∃ a, v = .long a := by
  cases v with
  | long a => exact ⟨a, rfl⟩
  | _ => cases h

theorem Value.null_of_kind {v : Value} (h : v.kind = .ref) : v = .null := by
  cases v with
  | null => rfl
  | _ => cases h

/-- Operations that reach no further than the frame they run in. -/
def Operation.onFrame : Operation → Bool
  | .getStatic _ | .putStatic _ | .invokeStatic _ => false
  | _ => true

/-- The values that arithmetic takes off a stack; a unary operation has its operand in both
places. -/
def Arith.Takes (op : Arith) (stack : List Value) (a b : Value)
    (rest : List Value) : Prop :=
  if op.isUnary then stack = b :: rest ∧ a = b ∧ b.kind = op.kind
  else stack = b :: a :: rest ∧ a.kind = op.kind ∧ b.kind = if op.isShift then .int else op.kind

/-- A stack of the right kinds has the operands of arithmetic on it. -/
theorem Arith.takes_of_kinds {op : Arith} {stack : List Value} {ks : List Kind}
    (h : stack.map Value.kind = StackTyping.arithOperands op ++ ks) :
    ∃ v w rest, op.Takes stack v w rest ∧ rest.map Value.kind = ks := by
  unfold StackTyping.arithOperands at h
  unfold Arith.Takes
  split at h
  · next hunary =>
    obtain ⟨w, rest, rfl, hw, hrest⟩ := List.map_eq_cons_iff.mp h
    refine ⟨w, w, rest, ?_, hrest⟩
    rw [if_pos hunary]
    exact ⟨rfl, rfl, hw⟩
  · next hunary =>
    have hkinds : stack.map Value.kind =
        (if op.isShift then .int else op.kind) :: op.kind :: ks := by
      rw [h]
      split <;> rfl
    obtain ⟨w, rest, rfl, hw, hrest⟩ := List.map_eq_cons_iff.mp hkinds
    obtain ⟨v, rest, rfl, hv, hrest⟩ := List.map_eq_cons_iff.mp hrest
    refine ⟨v, w, rest, ?_, hrest⟩
    rw [if_neg hunary]
    exact ⟨rfl, hv, hw⟩

theorem Arith.kind_eval {op : Arith} {v w u : Value} (h : op.eval v w = some u) :
    u.kind = op.kind := by
  unfold Arith.eval at h
  split at h
  · obtain ⟨_, -, rfl⟩ := Option.map_eq_some_iff.mp h
    rfl
  · obtain ⟨_, -, rfl⟩ := Option.map_eq_some_iff.mp h
    rfl
  · obtain ⟨_, -, rfl⟩ := Option.map_eq_some_iff.mp h
    rfl
  · cases h
    rfl
  · cases h
    rfl
  · cases h
    exact Value.kind_zero _

theorem Shuffle.map_apply {α β : Type} (g : α → β) (s : Shuffle) (stack : List α) :
    (s.apply stack).map g = s.apply (stack.map g) := by
  have hpushed : (s.pushed stack).map g = s.pushed (stack.map g) := by
    unfold Shuffle.pushed Shuffle.takenFrom
    rw [List.map_filterMap, ← List.map_take, ← List.map_reverse]
    simp only [List.getElem?_map]
  rw [Shuffle.apply, List.map_append, List.map_reverse, hpushed, List.map_drop, Shuffle.apply]

/-- Whether a condition holds of the values on a stack, top first. Every reference is null. -/
def Condition.test : Condition → List Value → Bool
  | .isNull, _ => true
  | .zero r, v :: _ => r.holds v.lowInt 0
  | .compare r, w :: v :: _ => r.holds v.lowInt w.lowInt
  | _, _ => false

namespace Machine

/-- What loading a method found out about it. -/
theorem Routine.load_eq_ok {owner : Text} {pool : Pool} {m : Method} {code : Code} {r : Routine}
    (h : Routine.load owner pool m code = .ok r) :
    ∃ type, Descriptor.parseMethod m.descriptor = .ok type ∧ code.handlers = [] ∧
      decode pool code.bytes = .ok r.instrs ∧ r.offsets = .ofInstructions r.instrs ∧
      r.params = type.params.map FieldType.kind ∧ r.result = type.resultKind := by
  unfold Routine.load at h
  obtain ⟨type, htype, h⟩ := bind_eq_ok.mp h
  split at h
  · cases h
  · next hhandlers =>
    obtain ⟨instrs, hinstrs, h⟩ := bind_eq_ok.mp h
    cases h
    exact ⟨type, mapError_eq_ok htype, by simpa using hhandlers, mapError_eq_ok hinstrs, rfl, rfl,
      rfl⟩

/-- A method without handlers is loaded once its descriptor and its code can be read. -/
theorem Routine.load_of_decode {owner : Text} {pool : Pool} {m : Method} {code : Code}
    {type : MethodType} {instrs : Array Instruction}
    (htype : Descriptor.parseMethod m.descriptor = .ok type) (hhandlers : code.handlers = [])
    (hinstrs : decode pool code.bytes = .ok instrs) :
    Routine.load owner pool m code = .ok ⟨⟨owner, m.name, m.descriptor⟩,
      type.params.map FieldType.kind, type.resultKind, code.maxLocals.toNat, code.maxStack.toNat,
      instrs, .ofInstructions instrs⟩ := by
  simp only [Routine.load, htype, hhandlers, hinstrs]
  rfl

/-- Between two instructions of a method: the position of the next one, and what it finds. -/
structure Point where
  pc : Nat
  frame : Frame
  store : Store

/-- Ends of a run that are not faults of the code or of the machine. -/
inductive End where
  | value (v : Value)
  | byZero

def End.result : End → Store → EStateM.Result Stop Store Value
  | value v, store => .ok v store
  | byZero, store => .error (.error divisionByZero) store

/-- The run from a point comes to this end in at most `n` steps. -/
def Point.Ends (s : Setting) (depth : Nat) (r : Routine) (n : Nat) (p : Point) (e : End)
    (store : Store) : Prop :=
  resume s n depth r p.pc p.frame p.store = e.result store

/-- What one instruction does in such a run. -/
inductive Effect where
  | goes (q : Point)
  | returns (v : Value) (store : Store)
  | divides (store : Store)

def Effect.result : Effect → EStateM.Result Stop Store Outcome
  | goes q => .ok (.next q.frame q.pc) q.store
  | returns v store => .ok (.done v) store
  | divides store => .error (.error divisionByZero) store

/-- The end that a run comes to which begins with an effect. -/
def Effect.Then (s : Setting) (depth : Nat) (r : Routine) (n : Nat) (e : End) (store : Store) :
    Effect → Prop
  | goes q => q.Ends s depth r n e store
  | returns v store' => e = .value v ∧ v.kind = r.result ∧ store' = store
  | divides store' => e = .byZero ∧ store' = store

/-- One instruction leads from `p` to `q`. -/
def Point.Leads (s : Setting) (r : Routine) (p q : Point) : Prop :=
  ∃ i fuel depth, r.instrs[p.pc]? = some i ∧
    perform s (call s fuel depth) r p.pc p.frame i p.store = (Effect.goes q).result

def Point.Reaches (s : Setting) (r : Routine) : Point → Point → Prop :=
  Relation.ReflTransGen (Point.Leads s r)

/-- Other errors are reported with the method they come from. -/
theorem divides_of_within {stop : Stop} {ref : MemberRef} {offset : Nat}
    (h : stop.within ref offset = .error divisionByZero) : stop = .error divisionByZero := by
  cases stop with
  | error e =>
    simp only [Stop.within] at h
    split at h
    · exact h
    · cases h
  | frame fault => cases h
  | exhausted => cases h

theorem Point.Ends.cases {s : Setting} {depth : Nat} {r : Routine} {n : Nat} {p : Point} {e : End}
    {store : Store} (h : p.Ends s depth r n e store) :
    ∃ m i eff, n = m + 1 ∧ r.instrs[p.pc]? = some i ∧
      perform s (call s m depth) r p.pc p.frame i p.store = Effect.result eff ∧
      eff.Then s depth r m e store := by
  cases n with
  | zero =>
    unfold Ends at h
    rw [resume] at h
    cases e <;> cases h
  | succ m =>
    unfold Ends at h
    rw [resume] at h
    cases hi : r.instrs[p.pc]? with
    | none =>
      rw [hi] at h
      cases e <;> cases h
    | some i =>
      rw [hi] at h
      simp only [bind, EStateM.bind, reported] at h
      cases hp : perform s (call s m depth) r p.pc p.frame i p.store with
      | ok o st =>
        rw [hp] at h
        cases o with
        | next f pc => exact ⟨m, i, .goes ⟨pc, f, st⟩, rfl, rfl, hp, h⟩
        | done v =>
          dsimp only at h
          split at h
          · next hv =>
            cases e with
            | value v' =>
              cases h
              exact ⟨m, i, .returns _ _, rfl, rfl, hp, rfl, hv, rfl⟩
            | byZero => cases h
          · cases e <;> cases h
      | error stop st =>
        rw [hp] at h
        cases e with
        | value v => cases h
        | byZero =>
          injection h with hstop hst
          rw [divides_of_within hstop] at hp
          exact ⟨m, i, .divides st, rfl, rfl, hp, rfl, hst⟩

/-! ## Instructions that reach no further than their frame -/

/-- The effect of the instruction `i` at `p`, seen in what `step` makes of the frame. -/
def Effect.OnFrame (r : Routine) (i : Instruction) (p : Point) : Effect → Prop
  | goes q => q.store = p.store ∧ (step i.op p.frame = .ok .next q.frame ∧ q.pc = p.pc + 1 ∨
    ∃ t, step i.op p.frame = .ok (.jump t) q.frame ∧ r.offsets.find? (i.absolute t) = some q.pc)
  | returns v store => store = p.store ∧ ∃ f, step i.op p.frame = .ok (.ret v) f
  | divides store => store = p.store ∧ ∃ f, step i.op p.frame = .error (.error divisionByZero) f

/-- What an instruction that reaches no further than its frame makes of a point. -/
def Point.after (r : Routine) (i : Instruction) (p : Point) :
    EStateM.Result Stop Frame Control → EStateM.Result Stop Store Outcome
  | .ok .next f => .ok (.next f (p.pc + 1)) p.store
  | .ok (.ret v) _ => .ok (.done v) p.store
  | .ok (.jump t) f =>
    match r.offsets.find? (i.absolute t) with
    | some k => .ok (.next f k) p.store
    | none => .error (.error (.badBranch (i.absolute t))) p.store
  | .error e _ => .error e p.store

theorem perform_onFrame (s : Setting) (caller : Caller) (r : Routine) {i : Instruction} (p : Point)
    (hop : i.op.onFrame = true) :
    perform s caller r p.pc p.frame i p.store = p.after r i (step i.op p.frame) := by
  unfold perform
  generalize i.op = op at hop
  cases op with
  | getStatic | putStatic | invokeStatic => cases hop
  | _ =>
    simp only [onFrame, bind, EStateM.bind]
    generalize step _ p.frame = x
    cases x with
    | error e f => rfl
    | ok ctl f =>
      cases ctl with
      | next => rfl
      | ret v => rfl
      | jump t =>
        dsimp only [Point.after]
        cases r.offsets.find? (i.absolute t) <;> rfl

theorem onFrame_of_perform {s : Setting} {caller : Caller} {r : Routine} {i : Instruction}
    {p : Point} {eff : Effect} (hop : i.op.onFrame = true)
    (h : perform s caller r p.pc p.frame i p.store = eff.result) : eff.OnFrame r i p := by
  rw [perform_onFrame s caller r p hop] at h
  cases hs : step i.op p.frame with
  | error e f =>
    rw [hs] at h
    cases eff with
    | goes q => cases h
    | returns v st => cases h
    | divides st =>
      injection h with he hst
      rw [he] at hs
      exact ⟨hst.symm, f, hs⟩
  | ok ctl f =>
    rw [hs] at h
    cases ctl with
    | next =>
      cases eff with
      | goes q =>
        injection h with ho hst
        injection ho with hf hpc
        exact ⟨hst.symm, .inl ⟨hf ▸ hs, hpc.symm⟩⟩
      | returns v st => cases h
      | divides st => cases h
    | ret v =>
      cases eff with
      | goes q => cases h
      | returns v st =>
        cases h
        exact ⟨rfl, f, hs⟩
      | divides st => cases h
    | jump t =>
      dsimp only [Point.after] at h
      split at h
      · next k hk =>
        cases eff with
        | goes q =>
          injection h with ho hst
          injection ho with hf hpc
          exact ⟨hst.symm, .inr ⟨t, hf ▸ hs, hpc ▸ hk⟩⟩
        | returns v st => cases h
        | divides st => cases h
      · cases eff <;> cases h

/-- The end of an operation that pushes a value. -/
def pushing (v : Value) (f : Frame) : EStateM.Result Stop Frame Control :=
  if f.stack.length ≥ f.maxStack then .error (.frame (.overflow f.maxStack)) f
  else .ok .next { f with stack := v :: f.stack }

section

variable {r : Routine} {i : Instruction} {p : Point} {eff : Effect} (h : eff.OnFrame r i p)

include h

theorem Effect.OnFrame.next {f : Frame} (hs : step i.op p.frame = .ok .next f) :
    eff = .goes ⟨p.pc + 1, f, p.store⟩ := by
  cases eff with
  | goes q =>
    obtain ⟨hstore, ⟨hq, hpc⟩ | ⟨t, hq, -⟩⟩ := h
    · rw [hs] at hq
      cases hq
      rw [← hpc, ← hstore]
    · rw [hs] at hq
      cases hq
  | returns v st =>
    obtain ⟨-, f', hf⟩ := h
    rw [hs] at hf
    cases hf
  | divides st =>
    obtain ⟨-, f', hf⟩ := h
    rw [hs] at hf
    cases hf

theorem Effect.OnFrame.jump {f : Frame} {t : Int32} (hs : step i.op p.frame = .ok (.jump t) f) :
    ∃ k, r.offsets.find? (i.absolute t) = some k ∧ eff = .goes ⟨k, f, p.store⟩ := by
  cases eff with
  | goes q =>
    obtain ⟨hstore, ⟨hq, -⟩ | ⟨t', hq, hk⟩⟩ := h
    · rw [hs] at hq
      cases hq
    · rw [hs] at hq
      cases hq
      exact ⟨q.pc, hk, by rw [← hstore]⟩
  | returns v st =>
    obtain ⟨-, f', hf⟩ := h
    rw [hs] at hf
    cases hf
  | divides st =>
    obtain ⟨-, f', hf⟩ := h
    rw [hs] at hf
    cases hf

theorem Effect.OnFrame.ret {f : Frame} {v : Value} (hs : step i.op p.frame = .ok (.ret v) f) :
    eff = .returns v p.store := by
  cases eff with
  | goes q =>
    obtain ⟨-, ⟨hq, -⟩ | ⟨t, hq, -⟩⟩ := h <;>
    · rw [hs] at hq
      cases hq
  | returns v' st =>
    obtain ⟨rfl, f', hf⟩ := h
    rw [hs] at hf
    cases hf
    rfl
  | divides st =>
    obtain ⟨-, f', hf⟩ := h
    rw [hs] at hf
    cases hf

/-- The only error that counts as an end is a division by zero. -/
theorem Effect.OnFrame.error {f : Frame} {e : Stop} (hs : step i.op p.frame = .error e f) :
    e = .error divisionByZero ∧ eff = .divides p.store := by
  cases eff with
  | goes q =>
    obtain ⟨-, ⟨hq, -⟩ | ⟨t, hq, -⟩⟩ := h <;>
    · rw [hs] at hq
      cases hq
  | returns v st =>
    obtain ⟨-, f', hf⟩ := h
    rw [hs] at hf
    cases hf
  | divides st =>
    obtain ⟨rfl, f', hf⟩ := h
    rw [hs] at hf
    cases hf
    exact ⟨rfl, rfl⟩

theorem Effect.OnFrame.pushing {f : Frame} {v : Value} (hs : step i.op p.frame = pushing v f) :
    eff = .goes ⟨p.pc + 1, { f with stack := v :: f.stack }, p.store⟩ := by
  unfold Machine.pushing at hs
  split at hs
  · obtain ⟨he, -⟩ := h.error hs
    cases he
  · exact h.next hs

end

/-! ### What operations do to a frame -/

/-- A part of an operation that only accesses its frame. -/
theorem access_run {α : Type} (x : Frame.Access α) (f : Frame) :
    (x : Step α) f = match x f with
      | .ok a f => .ok a f
      | .error e f => .error (.frame e) f := rfl

section

-- All that is said of operations below opens `step`, whose equations are made once, here.
attribute [local simp] step

variable {f : Frame} {v w : Value} {rest : List Value}

theorem popKind_run {k : Kind} (hf : f.stack = v :: rest) (hv : v.kind = k) :
    Frame.popKind k f = .ok v { f with stack := rest } := by
  simp [Frame.popKind, Frame.pop, bind, EStateM.bind, hf, hv, pure, EStateM.pure]

/-- An operation takes a value of its kind and goes on with the rest. -/
theorem popKind_bind {α : Type} {k : Kind} (hf : f.stack = v :: rest) (hv : v.kind = k)
    (g : Value → Step α) :
    ((Frame.popKind k : Step Value) >>= g) f = g v { f with stack := rest } := by
  simp only [bind, EStateM.bind, access_run, popKind_run hf hv]

theorem popInt_bind {α : Type} {a : Int32} (hf : f.stack = .int a :: rest) (g : Int32 → Step α) :
    (popInt >>= g) f = g a { f with stack := rest } := by
  simp only [popInt, bind, EStateM.bind, access_run, popKind_run (k := .int) hf rfl]
  rfl

theorem popTwo_bind {α : Type} {a b : Kind} (hf : f.stack = w :: v :: rest) (hv : v.kind = a)
    (hw : w.kind = b) (g : Value × Value → Step α) :
    (popTwo a b >>= g) f = g (v, w) { f with stack := rest } := by
  simp only [popTwo, bind, EStateM.bind, access_run, popKind_run hf hw,
    popKind_run (f := { f with stack := v :: rest }) rfl hv]
  rfl

theorem push_bind (f : Frame) (v : Value) :
    ((Frame.push v : Step Unit) >>= fun _ => pure Control.next) f = pushing v f := by
  simp only [bind, EStateM.bind, access_run, Frame.push, pushing]
  by_cases hfull : f.stack.length ≥ f.maxStack
  · simp only [if_pos hfull]
  · simp only [if_neg hfull]
    rfl

theorem step_arith {op : Arith} (h : op.Takes f.stack v w rest) :
    step (.arith op) f = match op.eval v w with
      | some u => pushing u { f with stack := rest }
      | none => .error (.error divisionByZero) { f with stack := rest } := by
  have hlast : ((match op.eval v w with
      | some u => (Frame.push u : Step Unit)
      | none => fail divisionByZero) >>= fun _ => pure Control.next) { f with stack := rest } =
        match op.eval v w with
        | some u => pushing u { f with stack := rest }
        | none => .error (.error divisionByZero) { f with stack := rest } := by
    cases op.eval v w with
    | some u => exact push_bind _ u
    | none => rfl
  rw [← hlast]
  simp only [step, arith]
  unfold Arith.Takes at h
  split at h
  · next hunary =>
    obtain ⟨hf, rfl, hk⟩ := h
    rw [if_pos hunary, bind_assoc]
    exact popKind_bind hf hk _
  · next hunary =>
    obtain ⟨hf, hv, hw⟩ := h
    rw [if_neg hunary, bind_assoc]
    exact popTwo_bind hf hv hw _

theorem step_load (k : Kind) (slot : UInt16) (f : Frame) :
    step (.load k slot) f = match f.locals[slot.toNat]? with
      | none => .error (.frame (.noLocal slot.toNat f.locals.size)) f
      | some v =>
        if v.kind = k then pushing v f
        else .error (.error (.wrongLocal slot.toNat v.kind k)) f := by
  simp only [step, bind, EStateM.bind, access_run, Frame.getLocal]
  cases hv : f.locals[slot.toNat]? with
  | none => simp [hv]
  | some v =>
    have hindex : ¬ (slot.toNat : Int) < 0 := by omega
    simp only [if_neg hindex, Int.toNat_natCast, hv]
    by_cases hk : v.kind = k
    · simp only [ne_eq, hk, not_true_eq_false, if_false, if_true]
      exact push_bind f v
    · simp only [ne_eq, hk, not_false_eq_true, if_true, if_false]
      rfl

theorem step_increment (slot : UInt16) (delta : Int16) (f : Frame) :
    step (.increment slot delta) f = match f.locals[slot.toNat]? with
      | none => .error (.frame (.noLocal slot.toNat f.locals.size)) f
      | some v => .ok .next { f with
        locals := f.locals.setIfInBounds slot.toNat (.int (v.lowInt + delta.toInt32)) } := by
  simp only [step, bind, EStateM.bind, access_run, Frame.getLocal, Frame.setLocal]
  cases hv : f.locals[slot.toNat]? with
  | none => simp [hv]
  | some v =>
    have hlt := (Array.getElem?_eq_some_iff.mp hv).1
    have hindex : ¬ (slot.toNat : Int) < 0 := by omega
    have hbound : ¬ ((slot.toNat : Int) < 0 ∨ f.locals.size ≤ slot.toNat) := by omega
    simp only [if_neg hindex, Int.toNat_natCast, hv, if_neg hbound]
    rfl

theorem step_store {k : Kind} {slot : UInt16} (hf : f.stack = v :: rest) (hv : v.kind = k) :
    step (.store k slot) f = if f.locals.size ≤ slot.toNat then
        .error (.frame (.noLocal slot.toNat f.locals.size)) { f with stack := rest }
      else .ok .next { f with stack := rest, locals := f.locals.setIfInBounds slot.toNat v } := by
  simp only [step]
  rw [popKind_bind hf hv]
  simp only [bind, EStateM.bind, access_run, Frame.setLocal]
  by_cases hlt : f.locals.size ≤ slot.toNat
  · simp [hlt]
  · simp [hlt]
    rfl

theorem step_convert {c : Conversion} (hf : f.stack = v :: rest) (hv : v.kind = c.source) :
    step (.convert c) f = pushing (c.eval v) { f with stack := rest } := by
  simp only [step]
  rw [popKind_bind hf hv, push_bind]

theorem step_narrow {n : Narrowing} {a : Int32} (hf : f.stack = .int a :: rest) :
    step (.narrow n) f = pushing (.int (n.eval a)) { f with stack := rest } := by
  simp only [step]
  rw [popInt_bind hf, push_bind]

theorem step_compare {c : Comparison} (hf : f.stack = w :: v :: rest) (hv : v.kind = c.kind)
    (hw : w.kind = c.kind) :
    step (.compare c) f = pushing (.int (c.eval v w)) { f with stack := rest } := by
  simp only [step]
  rw [popTwo_bind hf hv hw, push_bind]

theorem tableTarget_mem (default low : Int32) (ts : List Int32) (key : Int32) :
    tableTarget default low ts key ∈ default :: ts := by
  unfold tableTarget
  dsimp only
  split
  · exact List.mem_cons_self
  · cases ht : ts[(key.toInt - low.toInt).toNat]? with
    | none => exact List.mem_cons_self
    | some t => exact List.mem_cons_of_mem _ (List.mem_of_getElem? ht)

theorem lookupTarget_mem (default : Int32) (cases : List (Int32 × Int32)) (key : Int32) :
    lookupTarget default cases key ∈ default :: cases.map Prod.snd := by
  unfold lookupTarget
  cases ht : cases.lookup key with
  | none => exact List.mem_cons_self
  | some t =>
    obtain ⟨before, after, hsplit, -⟩ := List.lookup_eq_some_iff.mp ht
    exact List.mem_cons_of_mem _ (List.mem_map.mpr ⟨(key, t), by simp [hsplit], rfl⟩)

theorem step_tableSwitch {default low key : Int32} {targets : List Int32}
    (hf : f.stack = .int key :: rest) : step (.tableSwitch default low targets) f =
      .ok (.jump (tableTarget default low targets key)) { f with stack := rest } := by
  simp only [step]
  rw [popInt_bind hf]
  rfl

theorem step_lookupSwitch {default key : Int32} {cases : List (Int32 × Int32)}
    (hf : f.stack = .int key :: rest) : step (.lookupSwitch default cases) f =
      .ok (.jump (lookupTarget default cases key)) { f with stack := rest } := by
  simp only [step]
  rw [popInt_bind hf]
  rfl

theorem step_ret {k : Kind} (hf : f.stack = v :: rest) (hv : v.kind = k) (hk : k ≠ .void) :
    step (.ret k) f = .ok (.ret v) { f with stack := rest } := by
  simp only [step]
  rw [if_neg hk, popKind_bind hf hv]
  rfl

theorem pushAll_cons (v : Value) (vs : List Value) (f : Frame) :
    ((v :: vs).forM fun v => (Frame.push v : Step Unit)).run f =
      if f.stack.length ≥ f.maxStack then .error (.frame (.overflow f.maxStack)) f
      else (vs.forM fun v => (Frame.push v : Step Unit)).run { f with stack := v :: f.stack } := by
  change ((Frame.push v : Step Unit) >>= fun _ => vs.forM fun v => (Frame.push v : Step Unit)) f = _
  simp only [bind, EStateM.bind, access_run, Frame.push]
  by_cases hfull : f.stack.length ≥ f.maxStack
  · simp only [if_pos hfull]
  · simp only [if_neg hfull]
    rfl

/-- The values go on the stack one by one, unless they are too many. -/
theorem pushAll_run (vs : List Value) (f : Frame) :
    (vs.forM fun v => (Frame.push v : Step Unit)).run f =
        .ok () { f with stack := vs.reverse ++ f.stack } ∨
      ∃ f', (vs.forM fun v => (Frame.push v : Step Unit)).run f =
        .error (.frame (.overflow f.maxStack)) f' := by
  induction vs generalizing f with
  | nil => exact .inl rfl
  | cons v vs ih =>
    rw [pushAll_cons]
    split
    · exact .inr ⟨_, rfl⟩
    · simpa using ih { f with stack := v :: f.stack }

/-- The values go on the stack where there is room for them. -/
theorem pushAll_fits {vs : List Value} {f : Frame} (h : vs.length + f.stack.length ≤ f.maxStack) :
    (vs.forM fun v => (Frame.push v : Step Unit)).run f =
      .ok () { f with stack := vs.reverse ++ f.stack } := by
  induction vs generalizing f with
  | nil => rfl
  | cons v vs ih =>
    rw [List.length_cons] at h
    rw [pushAll_cons, if_neg (by omega), ih (by rw [List.length_cons]; dsimp only; omega)]
    simp

theorem stack_run {op : StackOp} {s : Shuffle} (hs : Shuffle.of? op f.kinds = some s) :
    step (.stack op) f =
      match ((s.pushed f.stack).forM fun v => (Frame.push v : Step Unit)).run
        { f with stack := f.stack.drop s.taken } with
      | .ok _ f => .ok .next f
      | .error e f => .error e f := by
  simp only [step, shuffle, bind, EStateM.bind, get, getThe, MonadStateOf.get, EStateM.get, hs,
    set, EStateM.set, EStateM.run]
  cases (s.pushed f.stack).forM (fun v => (Frame.push v : Step Unit))
    { f with stack := f.stack.drop s.taken } <;> rfl

theorem step_stack {op : StackOp} {s : Shuffle} (hs : Shuffle.of? op f.kinds = some s) :
    step (.stack op) f = .ok .next { f with stack := s.apply f.stack } ∨
      ∃ f', step (.stack op) f = .error (.frame (.overflow f.maxStack)) f' := by
  rw [stack_run hs]
  rcases pushAll_run (s.pushed f.stack) { f with stack := f.stack.drop s.taken } with hp | ⟨f', hp⟩
  · rw [hp]
    exact .inl rfl
  · rw [hp]
    exact .inr ⟨f', rfl⟩

/-- A rearranged stack that has room is what the machine comes to. -/
theorem step_stack_fits {op : StackOp} {s : Shuffle} (hs : Shuffle.of? op f.kinds = some s)
    (hroom : (s.apply f.stack).length ≤ f.maxStack) :
    step (.stack op) f = .ok .next { f with stack := s.apply f.stack } := by
  rw [Shuffle.apply, List.length_append, List.length_reverse] at hroom
  rw [stack_run hs, pushAll_fits (f := { f with stack := f.stack.drop s.taken }) hroom]
  rfl

theorem condition_run {c : Condition} {ks : List Kind}
    (hf : f.kinds = StackTyping.conditionOperands c ++ ks) :
    condition c f = .ok (c.test f.stack)
      { f with stack := f.stack.drop (StackTyping.conditionOperands c).length } := by
  obtain ⟨locals, stack, maxStack⟩ := f
  have hint {vs : List Value} {js : List Kind} (h : vs.map Value.kind = .int :: js) :
      ∃ a rest, vs = .int a :: rest ∧ rest.map Value.kind = js := by
    obtain ⟨v, rest, rfl, hv, hrest⟩ := List.map_eq_cons_iff.mp h
    obtain ⟨a, rfl⟩ := Value.int_of_kind hv
    exact ⟨a, rest, rfl, hrest⟩
  cases c with
  | isNull | isNonNull =>
    obtain ⟨v, rest, rfl, hv, -⟩ := List.map_eq_cons_iff.mp hf
    simp only [condition]
    rw [popKind_bind rfl hv]
    rfl
  | zero r =>
    obtain ⟨a, rest, rfl, -⟩ := hint hf
    simp only [condition]
    rw [popInt_bind rfl]
    rfl
  | compare r =>
    obtain ⟨b, rest, rfl, hrest⟩ := hint hf
    obtain ⟨a, rest, rfl, -⟩ := hint hrest
    simp only [condition]
    rw [popInt_bind rfl, popInt_bind rfl]
    rfl

theorem step_branch {c : Condition} {t : Int32} {ks : List Kind}
    (hf : f.kinds = StackTyping.conditionOperands c ++ ks) :
    step (.branch c t) f = .ok (if c.test f.stack then .jump t else .next)
      { f with stack := f.stack.drop (StackTyping.conditionOperands c).length } := by
  simp only [step, bind, EStateM.bind, condition_run hf]
  split <;> rfl

end

/-! ## Static fields -/

theorem fieldOwner_eq_ok {p : Program} {ref : MemberRef} {c : PreparedClass}
    (h : p.fieldOwner ref = .ok c) : c ∈ p ∧ c.hasStatic ref.name ref.descriptor = true := by
  obtain ⟨_, c', hc', hpick⟩ := Lookup.exists_of_run (fieldOwner_eq_ok_iff.mp h)
  dsimp only [Program.fieldLookup] at hpick
  split at hpick <;> cases hpick
  exact ⟨List.mem_of_find?_eq_some hc', ‹_›⟩

theorem fieldOwner_eq_error {p : Program} {ref : MemberRef} {e : Error}
    (h : p.fieldOwner ref = .error e) : e = .unresolvedField ref := by
  unfold Program.fieldOwner at h
  split at h
  · cases h
  · cases h
    rfl

/-- All classes have been initialised. -/
def Store.AllStarted (p : Program) (store : Store) : Prop := ∀ c ∈ p, c.name ∈ store.started

/-- What is started is not started again. -/
theorem initialise_started {p : Program} {store : Store} {c : PreparedClass}
    (hc : c.name ∈ store.started) (caller : Caller) :
    initialise p caller c store = .ok () store := by
  have hnone : unstarted p p.length store.started c = [] := by
    cases p with
    | nil => rfl
    | cons c' p => rw [List.length_cons, unstarted, if_pos hc]
  simp only [initialise, bind, EStateM.bind, get, getThe, MonadStateOf.get, EStateM.get, hnone,
    List.map_nil, List.append_nil, set, EStateM.set]
  rfl

/-- The static that a reference means. -/
def staticKey (c : PreparedClass) (ref : MemberRef) : MemberRef := ⟨c.name, ref.name, ref.descriptor⟩

/-- Every static field of a class has a value of its kind. -/
def Statics.Fit (p : Program) (statics : Statics) : Prop :=
  ∀ c ∈ p, ∀ ref : MemberRef, c.hasStatic ref.name ref.descriptor = true →
    ∃ t v, Descriptor.parseField ref.descriptor = .ok t ∧
      statics.lookup (staticKey c ref) = some v ∧ v.kind = t.kind

theorem lookup_set (statics : Statics) (key key' : MemberRef) (v : Value) :
    (statics.set key v).lookup key' =
      if key' = key then (statics.lookup key').map fun _ => v else statics.lookup key' := by
  induction statics with
  | nil => simp [Statics.set]
  | cons entry statics ih =>
    obtain ⟨k, old⟩ := entry
    unfold Statics.set at ih ⊢
    rw [List.map_cons, List.lookup_cons, List.lookup_cons, ih]
    by_cases hk : k = key <;> by_cases hk' : key' = k <;> grind

theorem Statics.Fit.set {p : Program} {statics : Statics} (h : statics.Fit p) {c : PreparedClass}
    {ref : MemberRef} {v old : Value} (hold : statics.lookup (staticKey c ref) = some old)
    (hv : v.kind = old.kind) : (statics.set (staticKey c ref) v).Fit p := by
  intro c' hc' ref' hstatic
  obtain ⟨t, w, ht, hw, hkind⟩ := h c' hc' ref' hstatic
  rw [lookup_set]
  by_cases hkey : staticKey c' ref' = staticKey c ref
  · rw [hkey, hold] at hw
    cases hw
    rw [if_pos hkey, hkey, hold]
    exact ⟨t, v, ht, rfl, hv.trans hkind⟩
  · rw [if_neg hkey]
    exact ⟨t, w, ht, hw, hkind⟩

section

variable {s : Setting} {caller : Caller} {r : Routine} {i : Instruction} {p : Point} {eff : Effect}
  {ref : MemberRef} (hstarted : p.store.AllStarted s.program)
  (hfit : p.store.statics.Fit s.program)
  (h : perform s caller r p.pc p.frame i p.store = eff.result)

include hstarted hfit h

theorem getStatic_effect (hop : i.op = .getStatic ref) :
    ∃ c t v, s.program.fieldOwner ref = .ok c ∧ Descriptor.parseField ref.descriptor = .ok t ∧
      p.store.statics.lookup (staticKey c ref) = some v ∧ v.kind = t.kind ∧
      eff = .goes ⟨p.pc + 1, { p.frame with stack := v :: p.frame.stack }, p.store⟩ := by
  unfold perform at h
  rw [hop] at h
  simp only [getStatic, Functor.map, EStateM.map, bind, EStateM.bind] at h
  cases hc : s.program.fieldOwner ref with
  | error e =>
    rw [hc, fieldOwner_eq_error hc] at h
    cases eff <;> cases h
  | ok c =>
    obtain ⟨hmem, hstatic⟩ := fieldOwner_eq_ok hc
    obtain ⟨t, v, ht, hv, hkind⟩ := hfit c hmem ref hstatic
    refine ⟨c, t, v, rfl, ht, hv, hkind, ?_⟩
    simp only [hc, ofResult, pure, EStateM.pure, initialise_started (hstarted _ hmem), get, getThe,
      MonadStateOf.get, EStateM.get, onFrame, access_run, Frame.push] at h
    rw [staticKey] at hv
    rw [hv] at h
    by_cases hfull : p.frame.stack.length ≥ p.frame.maxStack
    · simp only [if_pos hfull] at h
      cases eff <;> cases h
    · simp only [if_neg hfull] at h
      cases eff with
      | goes q =>
        obtain ⟨pc, f, store⟩ := q
        cases h
        rfl
      | returns v st => cases h
      | divides st => cases h

theorem putStatic_effect (hop : i.op = .putStatic ref) {v : Value} {rest : List Value} {t : FieldType}
    (ht : Descriptor.parseField ref.descriptor = .ok t) (hf : p.frame.stack = v :: rest)
    (hv : v.kind = t.kind) :
    ∃ c, s.program.fieldOwner ref = .ok c ∧
      eff = .goes ⟨p.pc + 1, { p.frame with stack := rest },
        { p.store with statics := p.store.statics.set (staticKey c ref) v }⟩ := by
  unfold perform at h
  rw [hop] at h
  simp only [putStatic, Functor.map, EStateM.map, bind, EStateM.bind] at h
  cases hc : s.program.fieldOwner ref with
  | error e =>
    rw [hc, fieldOwner_eq_error hc] at h
    cases eff <;> cases h
  | ok c =>
    obtain ⟨hmem, hstatic⟩ := fieldOwner_eq_ok hc
    obtain ⟨t', old, ht', hold, hkind⟩ := hfit c hmem ref hstatic
    obtain rfl := Except.ok.inj (ht.symm.trans ht')
    refine ⟨c, rfl, ?_⟩
    rw [staticKey] at hold
    simp only [hc, ofResult, pure, EStateM.pure, initialise_started (hstarted _ hmem), get, getThe,
      MonadStateOf.get, EStateM.get, onFrame, access_run, hold, Option.getD_some,
      popKind_run hf (hv.trans hkind.symm), set, EStateM.set] at h
    cases eff with
    | goes q =>
      obtain ⟨pc, f, store⟩ := q
      cases h
      rfl
    | returns v st => cases h
    | divides st => cases h

end

/-! ## Arguments -/

open Lowering.Locals (paramSlots)

/-- What the arguments `args` have become that were stored from variable `slot` on. -/
structure Entered (slot : Nat) (args : List Value) (f f' : Frame) : Prop where
  stack : f'.stack = f.stack
  below : ∀ s, s < slot → f'.locals[s]? = f.locals[s]?
  stored : ∀ (j : Nat) key a, (paramSlots slot (args.map Value.kind))[j]? = some key →
    args[j]? = some a → f'.locals[key.1]? = some a
  only : ∀ (s : Nat) v, f'.locals[s]? = some v → f.locals[s]? = some v ∨
    ∃ j : Nat, (paramSlots slot (args.map Value.kind))[j]? = some (s, v.kind) ∧ args[j]? = some v

theorem enter_spec {slot : Nat} {args : List Value} {f f' : Frame}
    (h : Frame.enter slot args f = .ok () f') : Entered slot args f f' := by
  induction args generalizing slot f with
  | nil =>
    cases h
    refine ⟨rfl, fun _ _ => rfl, fun j key a hj => ?_, fun _ _ hv => .inl hv⟩
    cases hj
  | cons a args ih =>
    simp only [Frame.enter, bind, EStateM.bind, Frame.setLocal] at h
    by_cases hsize : f.locals.size ≤ slot
    · simp [hsize] at h
    · simp only [Int.toNat_natCast, hsize, or_false] at h
      rw [if_neg (by omega)] at h
      have hnext : (if a.kind.isWide then slot + 2 else slot + 1) =
          slot + if a.kind.isWide then 2 else 1 := by split <;> rfl
      have hlt : slot < slot + if a.kind.isWide then 2 else 1 := by split <;> omega
      dsimp only at h
      rw [hnext] at h
      have hrest := ih h
      have hslot : f'.locals[slot]? = some a := by
        rw [hrest.below slot hlt, Array.getElem?_setIfInBounds_self_of_lt (by omega)]
      refine ⟨hrest.stack, fun s hs => ?_, fun j key b hj hb => ?_, fun s v hv => ?_⟩
      · rw [hrest.below s (by omega), Array.getElem?_setIfInBounds_ne (by omega)]
      · cases j with
        | zero =>
          cases hj
          cases hb
          exact hslot
        | succ j => exact hrest.stored j key b hj hb
      · by_cases hs : s = slot
        · subst hs
          rw [hslot] at hv
          cases hv
          exact .inr ⟨0, rfl, rfl⟩
        · rcases hrest.only s v hv with hold | ⟨j, hj, hb⟩
          · rw [Array.getElem?_setIfInBounds_ne (Ne.symm hs)] at hold
            exact .inl hold
          · exact .inr ⟨j + 1, hj, hb⟩

theorem call_ends {s : Setting} {n depth : Nat} {r : Routine} {args : List Value}
    {store store' : Store} {e : End} (h : call s n depth r args store = e.result store') :
    ∃ m f, Frame.enter 0 args (.fresh r.maxLocals r.maxStack) = .ok () f ∧
      Point.Ends s (depth + 1) r m ⟨0, f, store⟩ e store' := by
  cases n with
  | zero =>
    rw [call] at h
    cases e <;> cases h
  | succ n =>
    rw [call] at h
    split at h
    · cases e <;> cases h
    · simp only [bind, EStateM.bind, onFrame, access_run] at h
      cases hf : Frame.enter 0 args (.fresh r.maxLocals r.maxStack) with
      | error fault f =>
        rw [hf] at h
        cases e <;> cases h
      | ok u f =>
        rw [hf] at h
        exact ⟨n, f, rfl, h⟩

end Machine

end ClassWasm
