/-
  Types of the code of single operations. What runs on a stack of kinds, and what it leaves, is what
  its code runs on and leaves as a stack of types. `Places` says of an environment that its locals are
  those of the function.
-/
import ClassWasm.Proofs.Lowering.Compiles
import ClassWasm.Proofs.Wasm.Validation

namespace ClassWasm.Lowering

open Wasm (Plain Instr BlockType FuncType ValType Env Width runTypes takeTypes runTypes_append)

/-- The types of values of the kinds. -/
def typesOf (ks : List Kind) : List ValType := ks.map .ofKind

@[simp] theorem typesOf_nil : typesOf [] = [] := rfl

@[simp] theorem typesOf_cons (k : Kind) (ks : List Kind) :
    typesOf (k :: ks) = .ofKind k :: typesOf ks := rfl

@[simp] theorem typesOf_append (ks js : List Kind) :
    typesOf (ks ++ js) = typesOf ks ++ typesOf js := List.map_append

@[simp] theorem typesOf_reverse (ks : List Kind) : typesOf ks.reverse = (typesOf ks).reverse :=
  List.map_reverse

/-- The results of a function whose method returns a value of the kind. -/
def resultTypes (k : Kind) : List ValType := if k = .void then [] else [.ofKind k]

theorem typesOf_push (k : Kind) (stack : List Kind) :
    typesOf (StackTyping.push k stack) = resultTypes k ++ typesOf stack := by
  unfold StackTyping.push resultTypes
  split <;> rfl

theorem resultTypes_of_ne_void {k : Kind} (h : k ≠ .void) : resultTypes k = [.ofKind k] := if_neg h

theorem resultTypes_reverse (k : Kind) : (resultTypes k).reverse = resultTypes k := by
  unfold resultTypes
  split <;> rfl

theorem results_ofMethodType (m : MethodType) :
    (FuncType.ofMethodType m).results = resultTypes m.resultKind := by
  unfold FuncType.ofMethodType MethodType.resultKind
  cases m.result with
  | none => rfl
  | some t => exact (resultTypes_of_ne_void t.kind_ne_void).symm

/-! ## Locals -/

section

variable {env : Env} {L : Locals} (hlocals : env.locals = L.types.toList)

include hlocals

theorem local_type {i : Nat} {t : ValType} (h : L.types[i]? = some t) : env.locals[i]? = some t := by
  rw [hlocals, Array.getElem?_toList, h]

theorem after?_localGet {i : UInt32} {t : ValType} (h : L.types[i.toNat]? = some t)
    (stack : List ValType) : (Plain.localGet i).after? env stack = some (t :: stack) := by
  simp [Plain.after?, Plain.type?, local_type hlocals h, takeTypes]

theorem after?_localSet {i : UInt32} {t : ValType} (h : L.types[i.toNat]? = some t)
    (stack : List ValType) : (Plain.localSet i).after? env (t :: stack) = some stack := by
  simp [Plain.after?, Plain.type?, local_type hlocals h, takeTypes]

/-- Locals that hold values of the kinds, lowest first, take them off the stack. -/
theorem runTypes_spill {ls : List UInt32} {ks : List Kind} (h : Holds L ls ks)
    (stack : List ValType) :
    runTypes env (spillCode ls) ((typesOf ks).reverse ++ stack) = some stack := by
  unfold spillCode
  rw [← typesOf_reverse]
  have heach := List.forall₂_reverse_iff.mpr h.each
  generalize ls.reverse = ls, ks.reverse = ks at heach
  induction heach with
  | nil => rfl
  | @cons l k ls ks hl _ ih =>
    rw [typesOf_cons, List.cons_append, List.map_cons, runTypes, after?_localSet hlocals hl]
    exact ih

/-- Locals give values of the kinds, lowest first. -/
theorem runTypes_reload {ls : List UInt32} {ks : List Kind}
    (heach : List.Forall₂ (fun l k => L.types[l.toNat]? = some (.ofKind k)) ls ks)
    (stack : List ValType) :
    runTypes env (reloadCode ls) stack = some ((typesOf ks).reverse ++ stack) := by
  unfold reloadCode
  induction heach generalizing stack with
  | nil => rfl
  | @cons l k ls ks hl _ ih =>
    rw [List.map_cons, runTypes, after?_localGet hlocals hl, Option.bind_some, ih]
    simp

/-! ## Arithmetic -/

theorem runTypes_divide {w : Width} {a b : UInt32} (ha : L.types[a.toNat]? = some w.intType)
    (hb : L.types[b.toNat]? = some w.intType) (stack : List ValType) :
    runTypes env (divide w a b) (w.intType :: w.intType :: stack) = some (w.intType :: stack) := by
  have hconstant (v : Int) (stack : List ValType) :
      (intConstant w v).after? env stack = some (w.intType :: stack) := by
    cases w <;> rfl
  simp [divide, runTypes, hconstant, after?_localSet hlocals ha, after?_localSet hlocals hb,
    after?_localGet hlocals ha, after?_localGet hlocals hb]

theorem runTypes_arith (hL : L.Sound) {op : Arith} {ps : List Plain} (h : ArithCode L op ps)
    (stack : List Kind) : runTypes env ps (typesOf (StackTyping.arithOperands op ++ stack)) =
      some (.ofKind op.kind :: typesOf stack) := by
  cases op with
  | int op =>
    cases op with
    | div =>
      obtain ⟨a, b, ⟨ha, hb⟩, rfl⟩ := h
      exact runTypes_divide hlocals (w := .w32) (ha.type hL) (hb.type hL) (typesOf stack)
    | _ =>
      obtain rfl := h
      rfl
  | long op =>
    cases op with
    | div =>
      obtain ⟨a, b, ⟨ha, hb⟩, rfl⟩ := h
      exact runTypes_divide hlocals (w := .w64) (ha.type hL) (hb.type hL) (typesOf stack)
    | _ =>
      obtain rfl := h
      rfl
  | float op | double op =>
    obtain rfl := h
    cases op <;> rfl

theorem runTypes_relate (op : Plain) (t : ValType) {a b : UInt32}
    (hop : ∀ stack, op.after? env (t :: t :: stack) = some (.i32 :: stack))
    (ha : L.types[a.toNat]? = some t) (hb : L.types[b.toNat]? = some t) (stack : List ValType) :
    runTypes env (relate op a b) stack = some (.i32 :: stack) := by
  simp [relate, runTypes, after?_localGet hlocals ha, after?_localGet hlocals hb, hop]

theorem runTypes_comparison {c : Comparison} {a b : UInt32}
    (ha : L.types[a.toNat]? = some (.ofKind c.kind)) (hb : L.types[b.toNat]? = some (.ofKind c.kind))
    (stack : List ValType) : runTypes env (comparison c a b)
      (.ofKind c.kind :: .ofKind c.kind :: stack) = some (.i32 :: stack) := by
  have hsub (stack : List ValType) :
      (Plain.intBinary .w32 .sub).after? env (.i32 :: .i32 :: stack) = some (.i32 :: stack) := rfl
  have hset (rest : List Plain) : runTypes env ([.localSet b, .localSet a] ++ rest)
      (.ofKind c.kind :: .ofKind c.kind :: stack) = runTypes env rest stack := by
    simp [runTypes, after?_localSet hlocals ha, after?_localSet hlocals hb]
  unfold comparison
  rw [List.append_assoc, hset]
  cases c with
  | long =>
    have hrelate (op : Wasm.IntCompare) := runTypes_relate hlocals (.intCompare .w64 op) .i64
      (fun _ => rfl) ha hb
    simp [runTypes_append, hrelate, runTypes, hsub]
  | float nanGreater =>
    have hrelate (op : Wasm.FloatCompare) := runTypes_relate hlocals (.floatCompare .w32 op) .f32
      (fun _ => rfl) ha hb
    cases nanGreater <;> simp [runTypes_append, hrelate, runTypes, hsub]
  | double nanGreater =>
    have hrelate (op : Wasm.FloatCompare) := runTypes_relate hlocals (.floatCompare .w64 op) .f64
      (fun _ => rfl) ha hb
    cases nanGreater <;> simp [runTypes_append, hrelate, runTypes, hsub]

omit hlocals in
theorem runTypes_condition (c : Condition) (stack : List Kind) :
    runTypes env (condition c) (typesOf (StackTyping.conditionOperands c ++ stack)) =
      some (.i32 :: typesOf stack) := by
  cases c with
  | isNull | isNonNull => rfl
  | zero r | compare r => cases r <;> rfl

/-! ## Rearranging -/

omit hlocals in
theorem runTypes_drop {n : Nat} {stack : List ValType} (h : n ≤ stack.length) :
    runTypes env (List.replicate n .drop) stack = some (stack.drop n) := by
  induction n generalizing stack with
  | zero => rfl
  | succ n ih =>
    cases stack with
    | nil => simp at h
    | cons t stack => exact ih (by simpa using h)

omit hlocals in
theorem forall₂_filterMap {α β : Type} {R : α → β → Prop} {as : List α} {bs : List β}
    (h : List.Forall₂ R as bs) (order : List Nat) :
    List.Forall₂ R (order.filterMap fun p => as[p]?) (order.filterMap fun p => bs[p]?) := by
  induction order with
  | nil => exact .nil
  | cons p order ih =>
    rw [List.filterMap_cons, List.filterMap_cons]
    by_cases hp : p < as.length
    · have hp' : p < bs.length := h.length_eq ▸ hp
      rw [List.getElem?_eq_getElem hp, List.getElem?_eq_getElem hp']
      exact .cons (h.get hp hp') ih
    · rw [List.getElem?_eq_none (by omega), List.getElem?_eq_none (by rw [← h.length_eq]; omega)]
      exact ih

theorem runTypes_shuffle {op : StackOp} {stack : List Kind} {s : Shuffle}
    (hs : Shuffle.of? op stack = some s) {ps : List Plain} (h : ShuffleCode L s stack ps) :
    runTypes env ps (typesOf stack) = some (typesOf (s.apply stack)) := by
  obtain ⟨htaken, -, -⟩ := StackTyping.shuffle_bounds hs
  unfold ShuffleCode at h
  split at h
  · next hempty =>
    obtain rfl := h
    have horder : s.order = [] := by simpa using hempty
    rw [runTypes_drop (by simpa [typesOf] using htaken), Shuffle.apply, Shuffle.pushed, horder]
    simp [typesOf, List.map_drop]
  · obtain ⟨ls, hls, rfl⟩ := h
    have hsplit : typesOf stack =
        (typesOf (s.takenFrom stack)).reverse ++ typesOf (stack.drop s.taken) := by
      rw [Shuffle.takenFrom, typesOf_reverse, List.reverse_reverse, ← typesOf_append,
        List.take_append_drop]
    rw [runTypes_append, hsplit, runTypes_spill hlocals hls, Option.bind_some,
      runTypes_reload hlocals (forall₂_filterMap hls.each s.order), Shuffle.apply, typesOf_append,
      typesOf_reverse]
    rfl

end

end ClassWasm.Lowering
