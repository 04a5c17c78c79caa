/-
  Rearranging the operand stack word by word. A `long` or a `double` is two words and every other
  value is one; operations are defined on words, and one that would cut through a value is not
  allowed. Each of them moves some words past some others (`moved`, `past`), so on values it moves
  one group past another. `of?_eq` says that the table of kinds finds just these groups, and from
  there on no operation is looked at by itself. Main result: the table allows what words allow, and
  the machine, the typing of stacks and emitted code all come to the stack that words come to
  (`shuffle_on_words`).
-/
import ClassWasm.Proofs.Lowering.Progress
import ClassWasm.Proofs.Lowering.StraightRuns

namespace ClassWasm

/-! ## Words -/

/-- One word of a value. Where there are two, part 1 lies on part 0. -/
structure Word where
  value : Value
  part : Nat
deriving DecidableEq

/-- The words of a value, top first. -/
def Value.words (v : Value) : List Word := if v.kind.isWide then [⟨v, 1⟩, ⟨v, 0⟩] else [⟨v, 0⟩]

/-- The words on a stack, top first. -/
def stackWords (stack : List Value) : List Word := stack.flatMap Value.words

/-- No value is cut through `n` words below the top. -/
def BetweenValues (stack : List Value) (n : Nat) : Prop :=
  ∃ top rest, stack = top ++ rest ∧ (stackWords top).length = n

namespace StackOp

/-- How many words an operation moves, from the top. -/
def moved : StackOp → Nat
  | pop | dup | dupX1 | dupX2 | swap => 1
  | pop2 | dup2 | dup2X1 | dup2X2 => 2

/-- How many words it moves them past. -/
def past : StackOp → Nat
  | pop | pop2 | dup | dup2 => 0
  | dupX1 | dup2X1 | swap => 1
  | dupX2 | dup2X2 => 2

/-- What an operation does to words, top first; `none` where there are too few. -/
def onWords {α : Type} : StackOp → List α → Option (List α)
  | pop, _ :: ws => some ws
  | pop2, _ :: _ :: ws => some ws
  | dup, w₁ :: ws => some (w₁ :: w₁ :: ws)
  | dupX1, w₁ :: w₂ :: ws => some (w₁ :: w₂ :: w₁ :: ws)
  | dupX2, w₁ :: w₂ :: w₃ :: ws => some (w₁ :: w₂ :: w₃ :: w₁ :: ws)
  | dup2, w₁ :: w₂ :: ws => some (w₁ :: w₂ :: w₁ :: w₂ :: ws)
  | dup2X1, w₁ :: w₂ :: w₃ :: ws => some (w₁ :: w₂ :: w₃ :: w₁ :: w₂ :: ws)
  | dup2X2, w₁ :: w₂ :: w₃ :: w₄ :: ws => some (w₁ :: w₂ :: w₃ :: w₄ :: w₁ :: w₂ :: ws)
  | swap, w₁ :: w₂ :: ws => some (w₂ :: w₁ :: ws)
  | _, _ => none

/-- What becomes of the group that is moved and of the one that it is moved past. -/
def regrouped {α : Type} (op : StackOp) (top under : List α) : List α :=
  match op with
  | pop | pop2 => []
  | swap => under ++ top
  | _ => top ++ under ++ top

theorem onWords_groups {α : Type} {op : StackOp} {top under : List α} (htop : top.length = op.moved)
    (hunder : under.length = op.past) (rest : List α) :
    op.onWords (top ++ (under ++ rest)) = some (op.regrouped top under ++ rest) := by
  -- The groups are as long as the operation says; their words are then at hand.
  cases op <;> simp only [moved, past] at htop hunder <;>
    simp only [List.length_eq_one_iff, List.length_eq_two, List.length_eq_zero_iff] at htop hunder
  case pop | dup =>
    obtain ⟨a, rfl⟩ := htop
    obtain rfl := hunder
    rfl
  case pop2 | dup2 =>
    obtain ⟨a, b, rfl⟩ := htop
    obtain rfl := hunder
    rfl
  case dupX1 | swap =>
    obtain ⟨a, rfl⟩ := htop
    obtain ⟨b, rfl⟩ := hunder
    rfl
  case dupX2 =>
    obtain ⟨a, rfl⟩ := htop
    obtain ⟨b, c, rfl⟩ := hunder
    rfl
  case dup2X1 =>
    obtain ⟨a, b, rfl⟩ := htop
    obtain ⟨c, rfl⟩ := hunder
    rfl
  case dup2X2 =>
    obtain ⟨a, b, rfl⟩ := htop
    obtain ⟨c, d, rfl⟩ := hunder
    rfl

theorem flatMap_regrouped {α β : Type} (f : α → List β) (op : StackOp) (top under : List α) :
    (op.regrouped top under).flatMap f = op.regrouped (top.flatMap f) (under.flatMap f) := by
  cases op <;> simp [regrouped]

/-- The values of a group of `a`, and of one of `b` under it, regrouped. -/
def regroup (op : StackOp) (a b : Nat) : Shuffle where
  taken := a + b
  order :=
    match op with
    | pop | pop2 => []
    | swap => List.range' b a ++ List.range' 0 b
    | _ => List.range' b a ++ List.range' 0 (b + a)

end StackOp

/-! ## Groups of values -/

/-- How many values the topmost `n` words of a stack of kinds belong to. -/
def valuesIn : Nat → List Kind → Option Nat
  | 0, _ => some 0
  | _ + 1, [] => none
  | 1, k :: _ => if Shuffle.isSingle k then some 1 else none
  | n + 2, k :: ks =>
    if k.isWide then (valuesIn n ks).map (· + 1)
    else if Shuffle.isSingle k then (valuesIn (n + 1) ks).map (· + 1)
    else none

theorem valuesIn_zero (ks : List Kind) : valuesIn 0 ks = some 0 := by
  unfold valuesIn
  rfl

namespace Shuffle

theorem isSingle_of_isWide {k : Kind} (h : k.isWide = true) : isSingle k = false := by
  simp [isSingle, h]

theorem valuesIn_one (ks : List Kind) :
    valuesIn 1 ks = if (ks[0]?).any isSingle then some 1 else none := by
  cases ks <;> rfl

theorem valuesIn_two (ks : List Kind) :
    valuesIn 2 ks = if (ks[0]?).any Kind.isWide then some 1
      else if (ks[0]?).any isSingle && (ks[1]?).any isSingle then some 2 else none := by
  cases ks with
  | nil => rfl
  | cons k ks =>
    rw [valuesIn, valuesIn_zero, valuesIn_one, List.getElem?_cons_zero, List.getElem?_cons_succ]
    by_cases hwide : k.isWide = true
    · simp [hwide]
    · by_cases hsingle : isSingle k = true <;> simp [hwide, hsingle, apply_ite (Option.map _)]

/-- The table of kinds, operation by operation, finds the groups of values that the operation moves
and moves them past. -/
theorem of?_eq (op : StackOp) (ks : List Kind) :
    of? op ks = (valuesIn op.moved ks).bind fun a =>
      (valuesIn op.past (ks.drop a)).map fun b => op.regroup a b := by
  have hapart (i : Nat) : (ks[i]?).any Kind.isWide = true → (ks[i]?).any isSingle = false := by
    cases ks[i]? with
    | none => nofun
    | some k => exact isSingle_of_isWide
  -- Both sides are tests of the topmost four kinds, one after the other.
  unfold of?
  cases op <;> simp only [StackOp.moved, StackOp.past, valuesIn_zero, valuesIn_one, valuesIn_two,
    List.getElem?_drop] <;> grind -ring -linarith [StackOp.regroup, List.range']

/-- Values at places one behind the other. -/
theorem filterMap_range' {α : Type} (xs : List α) (s n : Nat) :
    (List.range' s n).filterMap (fun p => xs[p]?) = (xs.drop s).take n := by
  induction n generalizing s with
  | zero => rfl
  | succ n ih =>
    rw [List.range'_succ, List.filterMap_cons, ih]
    cases h : xs[s]? with
    | none =>
      have hend := List.getElem?_eq_none_iff.mp h
      rw [List.drop_eq_nil_of_le hend, List.drop_eq_nil_of_le (by omega), List.take_nil, List.take_nil]
    | some x =>
      obtain ⟨hlt, rfl⟩ := List.getElem?_eq_some_iff.mp h
      rw [List.drop_eq_getElem_cons hlt, List.take_succ_cons]

theorem regroup_apply {α : Type} (op : StackOp) (top under rest : List α) :
    (op.regroup top.length under.length).apply (top ++ (under ++ rest)) =
      op.regrouped top under ++ rest := by
  have htaken : ((top ++ (under ++ rest)).take (top.length + under.length)).reverse =
      under.reverse ++ top.reverse := by
    rw [← List.append_assoc, List.take_left' List.length_append, List.reverse_append]
  have hdrop : (top ++ (under ++ rest)).drop (top.length + under.length) = rest := by
    rw [← List.append_assoc, List.drop_left' List.length_append]
  have hlow : (under.reverse ++ top.reverse).take under.length = under.reverse :=
    List.take_left' List.length_reverse
  have hhigh : top.reverse.take top.length = top.reverse :=
    List.take_of_length_le List.length_reverse.le
  have hall : (under.reverse ++ top.reverse).take (under.length + top.length) =
      under.reverse ++ top.reverse := List.take_of_length_le (by simp)
  unfold apply pushed takenFrom
  cases op <;>
    simp [StackOp.regroup, StackOp.regrouped, htaken, hdrop, filterMap_range', hlow, hhigh, hall]

end Shuffle

/-! ## Groups of words -/

@[simp] theorem stackWords_nil : stackWords [] = [] := rfl

@[simp] theorem stackWords_cons (v : Value) (stack : List Value) :
    stackWords (v :: stack) = v.words ++ stackWords stack := List.flatMap_cons

@[simp] theorem stackWords_append (top rest : List Value) :
    stackWords (top ++ rest) = stackWords top ++ stackWords rest := List.flatMap_append

theorem Value.length_words (v : Value) : v.words.length = if v.kind.isWide then 2 else 1 := by
  unfold words
  split <;> rfl

theorem stackWords_injective {stack stack' : List Value} (h : stackWords stack = stackWords stack') :
    stack = stack' := by
  have hhead (v : Value) : ∃ part ws, v.words = ⟨v, part⟩ :: ws := by
    unfold Value.words
    split <;> exact ⟨_, _, rfl⟩
  induction stack generalizing stack' with
  | nil =>
    cases stack' with
    | nil => rfl
    | cons v' stack' =>
      obtain ⟨part, ws, hws⟩ := hhead v'
      rw [stackWords_cons, hws] at h
      cases h
  | cons v stack ih =>
    obtain ⟨part, ws, hws⟩ := hhead v
    cases stack' with
    | nil =>
      rw [stackWords_cons, hws] at h
      cases h
    | cons v' stack' =>
      obtain ⟨part', ws', hws'⟩ := hhead v'
      have hv : v = v' := by
        rw [stackWords_cons, stackWords_cons, hws, hws'] at h
        exact congrArg Word.value (List.cons.inj h).1
      subst hv
      rw [stackWords_cons, stackWords_cons, List.append_cancel_left_eq] at h
      rw [ih h]

/-- A group of words begins with all the words of the topmost value. -/
theorem valuesIn_cons {v : Value} (hv : v.kind ≠ .void) (n : Nat) (ks : List Kind) :
    valuesIn (n + 1) (v.kind :: ks) = if v.words.length ≤ n + 1 then
      (valuesIn (n + 1 - v.words.length) ks).map (· + 1) else none := by
  have hsingle : Shuffle.isSingle v.kind = !v.kind.isWide := by simp [Shuffle.isSingle, hv]
  rw [Value.length_words]
  cases hwide : v.kind.isWide <;> cases n <;> simp [valuesIn, valuesIn_zero, hsingle, hwide]

/-- Values make up `n` words if and only if they are a group of `n` words. -/
theorem valuesIn_eq_some {stack : List Value} (hstack : ∀ v ∈ stack, v.kind ≠ .void) {n a : Nat} :
    valuesIn n (stack.map Value.kind) = some a ↔
      ∃ top rest, stack = top ++ rest ∧ top.length = a ∧ (stackWords top).length = n := by
  induction stack generalizing n a with
  | nil => cases n <;> simp [valuesIn, eq_comm]
  | cons v stack ih =>
    obtain ⟨hv, hstack⟩ := List.forall_mem_cons.mp hstack
    have hpos : 0 < v.words.length := by
      rw [v.length_words]
      split <;> decide
    cases n with
    | zero =>
      rw [valuesIn_zero]
      refine ⟨fun h => ⟨[], v :: stack, rfl, Option.some.inj h, rfl⟩, ?_⟩
      rintro ⟨_ | ⟨v', top⟩, rest, heq, rfl, hlen⟩
      · rfl
      · obtain rfl : v = v' := (List.cons.inj heq).1
        rw [stackWords_cons, List.length_append] at hlen
        omega
    | succ n =>
      rw [List.map_cons, valuesIn_cons hv]
      constructor
      · intro h
        split at h
        · next hle =>
          obtain ⟨b, hb, rfl⟩ := Option.map_eq_some_iff.mp h
          obtain ⟨top, rest, rfl, rfl, hlen⟩ := (ih hstack).mp hb
          refine ⟨v :: top, rest, rfl, rfl, ?_⟩
          rw [stackWords_cons, List.length_append]
          omega
        · cases h
      · rintro ⟨_ | ⟨v', top⟩, rest, heq, rfl, hlen⟩
        · cases hlen
        · obtain ⟨rfl, rfl⟩ := List.cons.inj heq
          rw [stackWords_cons, List.length_append] at hlen
          rw [if_pos (by omega), (ih hstack).mpr ⟨top, rest, rfl, rfl, by omega⟩]
          rfl

variable {op : StackOp} {stack : List Value}

/-- An operation that is allowed finds two groups of as many words as it moves, and moves them
past. -/
theorem Shuffle.of?_eq_some (hstack : ∀ v ∈ stack, v.kind ≠ .void) {s : Shuffle} :
    of? op (stack.map Value.kind) = some s ↔ ∃ top under rest, stack = top ++ (under ++ rest) ∧
      (stackWords top).length = op.moved ∧ (stackWords under).length = op.past ∧
      s = op.regroup top.length under.length := by
  rw [of?_eq, Option.bind_eq_some_iff]
  constructor
  · rintro ⟨a, ha, hs⟩
    obtain ⟨b, hb, rfl⟩ := Option.map_eq_some_iff.mp hs
    obtain ⟨top, rest, rfl, rfl, htop⟩ := (valuesIn_eq_some hstack).mp ha
    have hrest : ∀ v ∈ rest, v.kind ≠ .void := fun v hv => hstack v (List.mem_append_right _ hv)
    rw [← List.map_drop, List.drop_left] at hb
    obtain ⟨under, rest, rfl, rfl, hunder⟩ := (valuesIn_eq_some hrest).mp hb
    exact ⟨top, under, rest, rfl, htop, hunder, rfl⟩
  · rintro ⟨top, under, rest, rfl, htop, hunder, rfl⟩
    have hrest : ∀ v ∈ under ++ rest, v.kind ≠ .void :=
      fun v hv => hstack v (List.mem_append_right _ hv)
    refine ⟨top.length, (valuesIn_eq_some hstack).mpr ⟨top, _, rfl, rfl, htop⟩, ?_⟩
    rw [← List.map_drop, List.drop_left, (valuesIn_eq_some hrest).mpr ⟨under, rest, rfl, rfl, hunder⟩]
    rfl

/-- The table allows an operation if and only if there are enough words and all cuts lie between
values: below the words that it moves, and below those that it moves them past. -/
theorem Shuffle.isSome_of?_iff (hstack : ∀ v ∈ stack, v.kind ≠ .void) :
    (of? op (stack.map Value.kind)).isSome ↔ (op.onWords (stackWords stack)).isSome ∧
      BetweenValues stack op.moved ∧ BetweenValues stack (op.moved + op.past) := by
  rw [Option.isSome_iff_exists]
  constructor
  · rintro ⟨s, hs⟩
    obtain ⟨top, under, rest, rfl, htop, hunder, -⟩ := (of?_eq_some hstack).mp hs
    refine ⟨?_, ⟨top, under ++ rest, rfl, htop⟩, top ++ under, rest, (List.append_assoc ..).symm, ?_⟩
    · rw [stackWords_append, stackWords_append, StackOp.onWords_groups htop hunder]
      rfl
    · rw [stackWords_append, List.length_append, htop, hunder]
  · rintro ⟨-, ⟨top, rest, rfl, htop⟩, upper, rest', heq, hupper⟩
    -- The second cut lies at the first or below it.
    obtain ⟨under, rfl, rfl⟩ | ⟨beyond, rfl, rfl⟩ := List.append_eq_append_iff.mp heq
    · rw [stackWords_append, List.length_append, htop] at hupper
      exact ⟨_, (of?_eq_some hstack).mpr ⟨top, under, rest', rfl, htop, by omega, rfl⟩⟩
    · rw [stackWords_append, List.length_append] at htop
      have hpast : op.past = 0 := by omega
      exact ⟨_, (of?_eq_some hstack).mpr ⟨upper ++ beyond, [], rest, rfl, by
        rw [stackWords_append, List.length_append, htop], hpast.symm, rfl⟩⟩

/-- What is put back on the stack is what the operation makes of the words. -/
theorem Shuffle.onWords_apply (hstack : ∀ v ∈ stack, v.kind ≠ .void) {s : Shuffle}
    (hs : of? op (stack.map Value.kind) = some s) :
    op.onWords (stackWords stack) = some (stackWords (s.apply stack)) := by
  obtain ⟨top, under, rest, rfl, htop, hunder, rfl⟩ := (of?_eq_some hstack).mp hs
  have hregrouped : stackWords (op.regrouped top under) =
      op.regrouped (stackWords top) (stackWords under) := op.flatMap_regrouped Value.words top under
  rw [regroup_apply, stackWords_append, stackWords_append, stackWords_append, hregrouped,
    StackOp.onWords_groups htop hunder]

/-! ## The users of a shuffle -/

/-- The operation takes `stack` to `out` wherever it is carried out: in a frame with room for it, on
the kinds, and by code that passes the values through scratch locals. -/
structure Rearranges (op : StackOp) (stack out : List Value) : Prop where
  machine : ∀ f : Frame, f.stack = stack → out.length ≤ f.maxStack →
    Machine.step (.stack op) f = .ok .next { f with stack := out }
  typing : ∀ ret,
    StackTyping.step ret (.stack op) (stack.map Value.kind) = .ok (out.map Value.kind)
  code : ∀ (ctx : Lowering.Context) (labels : List Lowering.Label) (k : Nat) (i : Instruction)
    (σ : Lowering.State), i.op = .stack op → σ.locals.Sound →
    Lowering.Lowers ctx labels k i (stack.map Value.kind) σ fun L _ code =>
      ∃ ps : List Wasm.Plain, code = ps.map .plain ∧ ∀ (c : Wasm.Config) (rest : List Wasm.Val),
        c.locals.length = L.types.size → c.stack = stack.map Value.toVal ++ rest →
        Lowering.Leaves L ps c (out.map Value.toVal ++ rest)

theorem Shuffle.rearranges {s : Shuffle} (hs : of? op (stack.map Value.kind) = some s) :
    Rearranges op stack (s.apply stack) where
  machine f hf hroom := by
    subst hf
    exact Machine.step_stack_fits hs hroom
  typing ret := by
    simp only [StackTyping.step, hs, map_apply]
  code ctx labels k i σ hop hσ := by
    have hrearrange : Lowering.operation ctx labels k i (stack.map Value.kind) =
        Lowering.rearrange s (stack.map Value.kind) := by
      simp only [Lowering.operation, hop, hs]
    have hsucceeds : Lowering.Succeeds (Lowering.operation ctx labels k i (stack.map Value.kind)) := by
      rw [hrearrange]
      exact Lowering.succeeds_rearrange s _
    refine (hsucceeds.lowers (Lowering.emits_rearrange hs) hrearrange hσ).mono ?_
    rintro L T code ⟨-, ps, rfl, hps⟩
    exact ⟨ps, rfl, fun c rest hsize hc => Lowering.leaves_shuffle_over hs hps rfl hsize hc⟩

/-- An operation on the stack is allowed if and only if there are enough words for it and it cuts no
value. What it takes are then values that are there; the stack that they are put back to is the one
with the words that the operation leaves, and it is what the machine, the typing of stacks and
emitted code come to. -/
theorem shuffle_on_words (op : StackOp) {stack : List Value}
    (hstack : ∀ v ∈ stack, v.kind ≠ .void) :
    ((Shuffle.of? op (stack.map Value.kind)).isSome ↔
      (op.onWords (stackWords stack)).isSome ∧ BetweenValues stack op.moved ∧
        BetweenValues stack (op.moved + op.past)) ∧
      ∀ s, Shuffle.of? op (stack.map Value.kind) = some s →
        s.taken ≤ stack.length ∧ (∀ p ∈ s.order, p < s.taken) ∧
        (∀ out, op.onWords (stackWords stack) = some (stackWords out) ↔ out = s.apply stack) ∧
        Rearranges op stack (s.apply stack) := by
  refine ⟨Shuffle.isSome_of?_iff hstack, fun s hs => ?_⟩
  obtain ⟨htaken, -, horder⟩ := StackTyping.shuffle_bounds hs
  have hwords := Shuffle.onWords_apply hstack hs
  refine ⟨by simpa using htaken, horder, fun out => ?_, s.rearranges hs⟩
  rw [hwords, Option.some.injEq]
  exact ⟨fun h => (stackWords_injective h).symm, fun h => h ▸ rfl⟩

/-- Two values of one word, and under them one of two words. -/
def mixedStack : List Value := [.int 2, .null, .long 3, .float 0]

theorem shuffle_on_words_mixed :
    (∀ v ∈ mixedStack, v.kind ≠ .void) ∧
      Shuffle.of? .dup2X2 (mixedStack.map Value.kind) = some ⟨3, [1, 2, 0, 1, 2]⟩ ∧
      StackOp.dup2X2.onWords (stackWords mixedStack) =
        some (stackWords [.int 2, .null, .long 3, .int 2, .null, .float 0]) ∧
      Rearranges .dup2X2 mixedStack [.int 2, .null, .long 3, .int 2, .null, .float 0] := by
  have hstack : ∀ v ∈ mixedStack, v.kind ≠ .void := by decide
  obtain ⟨-, -, hwords, hrearranges⟩ := (shuffle_on_words .dup2X2 hstack).2 _ rfl
  exact ⟨hstack, rfl, (hwords _).mpr rfl, hrearranges⟩

/-- The lower of the two words would be cut off its value. -/
example : Shuffle.of? .dup2 [.int, .long] = none := rfl

end ClassWasm
