/-
  Typed stacks. The search for stacks keeps every reached instruction pending until its successors
  have been reached with the stack it leaves (`Searched`), whichever pending instruction it takes
  next (`Searches`), and its fuel is the number of instructions that are pending or not reached. So
  in the end nothing is pending, and the typing is consistent (`Typed`): an instruction that is
  reached can run on its stack and passes the result on to everything control can reach from it.
-/
import ClassWasm.Proofs.Positions
import ClassWasm.StackTyping

namespace ClassWasm

theorem FieldType.kind_ne_void (t : FieldType) : t.kind ≠ .void := by
  unfold FieldType.kind
  split
  · unfold Primitive.kind
    split <;> decide
  · decide

namespace StackTyping

/-- The stack before position `k`, where control reaches it. -/
def stackAt (typing : Array (Option (List Kind))) (k : Nat) : Option (List Kind) :=
  (typing[k]?).join

theorem lt_size_of_stackAt {typing : Array (Option (List Kind))} {k : Nat} {stack : List Kind}
    (h : stackAt typing k = some stack) : k < typing.size := by
  by_contra hge
  rw [stackAt, Array.getElem?_eq_none (by omega)] at h
  cases h

/-- What the instruction at position `k` leaves reaches all its successors. -/
def Follows (instrs : Array Instruction) (ret : Kind) (typing : Array (Option (List Kind)))
    (k : Nat) (stack : List Kind) : Prop :=
  ∀ i, instrs[k]? = some i → ∃ out, step ret i.op stack = .ok out ∧
    (∀ d ∈ i.op.branches, ∃ t, StartsAt instrs t (i.absolute d) ∧ stackAt typing t = some out) ∧
    (i.op.fallsThrough = true → stackAt typing (k + 1) = some out)

end StackTyping

open StackTyping

/-- Every instruction that is reached has a stack that fits it, and the same stack on all paths. -/
structure Typed (instrs : Array Instruction) (ret : Kind) (typing : Array (Option (List Kind))) :
    Prop where
  size : typing.size = instrs.size
  start : 0 < instrs.size → stackAt typing 0 = some []
  follows : ∀ k stack, stackAt typing k = some stack → Follows instrs ret typing k stack
  depth : ∀ k stack, stackAt typing k = some stack → stack.length ≤ 2 * instrs.size

namespace StackTyping

/-! ## One operation -/

theorem pop_eq_ok {ks stack out : List Kind} (h : pop ks stack = .ok out) : stack = ks ++ out := by
  induction ks generalizing stack with
  | nil =>
    cases h
    rfl
  | cons k ks ih =>
    cases stack with
    | nil => cases h
    | cons found stack =>
      unfold pop at h
      split at h
      · next hk => rw [hk, ih h, List.cons_append]
      · cases h

theorem fieldKind_eq_ok {ref : MemberRef} {k : Kind} (h : fieldKind ref = .ok k) :
    ∃ t, Descriptor.parseField ref.descriptor = .ok t ∧ k = t.kind := by
  unfold fieldKind at h
  split at h
  · next t ht =>
    cases h
    exact ⟨t, ht, rfl⟩
  · cases h

theorem methodType_eq_ok {ref : MemberRef} {m : MethodType} (h : methodType ref = .ok m) :
    Descriptor.parseMethod ref.descriptor = .ok m := by
  unfold methodType at h
  cases hp : Descriptor.parseMethod ref.descriptor with
  | error e =>
    rw [hp] at h
    cases h
  | ok m' =>
    rw [hp] at h
    exact congrArg Except.ok (Except.ok.inj h)

theorem length_push_le (k : Kind) (stack : List Kind) : (push k stack).length ≤ stack.length + 1 := by
  unfold push
  split
  · omega
  · rw [List.length_cons]

theorem lt_length_of_any {α : Type} {p : α → Bool} {xs : List α} {n : Nat}
    (h : (xs[n]?).any p = true) : n < xs.length := by
  by_contra hge
  rw [List.getElem?_eq_none (by omega)] at h
  cases h

/-- A shuffle takes values that are there, puts back only those, and at most two more. -/
theorem shuffle_bounds {op : StackOp} {stack : List Kind} {s : Shuffle}
    (h : Shuffle.of? op stack = some s) :
    s.taken ≤ stack.length ∧ s.order.length ≤ s.taken + 2 ∧ ∀ p ∈ s.order, p < s.taken := by
  have hlen {p : Kind → Bool} {n : Nat} (ha : (stack[n]?).any p = true) := lt_length_of_any ha
  -- The deepest value that a shuffle looks at is the last one that it takes.
  cases op <;> simp only [Shuffle.of?, Bool.and_eq_true] at h <;>
    (repeat' split at h) <;> cases h <;> refine ⟨?_, by decide, by decide⟩ <;>
    rename_i hfound <;> first | exact hlen hfound | exact hlen hfound.2

theorem length_apply_le {op : StackOp} {stack : List Kind} {s : Shuffle}
    (h : Shuffle.of? op stack = some s) : (s.apply stack).length ≤ stack.length + 2 := by
  obtain ⟨htaken, horder, -⟩ := shuffle_bounds h
  have hpushed : (s.pushed stack).length ≤ s.order.length := List.length_filterMap_le _ _
  rw [Shuffle.apply, List.length_append, List.length_reverse, List.length_drop]
  omega

theorem length_step_le {ret : Kind} {op : Operation} {stack out : List Kind}
    (h : step ret op stack = .ok out) : out.length ≤ stack.length + 2 := by
  have hpop {ks out : List Kind} (hp : pop ks stack = .ok out) : out.length ≤ stack.length := by
    rw [pop_eq_ok hp, List.length_append]
    omega
  have hpush {ks out : List Kind} {k : Kind} (hp : (pop ks stack).map (push k) = .ok out) :
      out.length ≤ stack.length + 2 := by
    obtain ⟨mid, hm, rfl⟩ := map_eq_ok hp
    have := hpop hm
    have := length_push_le k mid
    omega
  cases op with
  | nop | goto | increment =>
    cases h
    omega
  | const c =>
    cases h
    have := length_push_le c.kind stack
    omega
  | load k slot =>
    cases h
    have := length_push_le k stack
    omega
  | arith a | convert c | narrow n | compare c => exact hpush h
  | store k slot | branch c t | tableSwitch d l ts | lookupSwitch d cs =>
    have := hpop h
    omega
  | stack op =>
    simp only [step] at h
    split at h
    · next s hs =>
      cases h
      exact length_apply_le hs
    · cases h
  | getStatic ref =>
    obtain ⟨k, -, rfl⟩ := map_eq_ok h
    have := length_push_le k stack
    omega
  | putStatic ref =>
    obtain ⟨k, -, h⟩ := bind_eq_ok.mp h
    have := hpop h
    omega
  | invokeStatic ref =>
    obtain ⟨m, -, h⟩ := bind_eq_ok.mp h
    exact hpush h
  | ret k =>
    simp only [step] at h
    split at h
    · cases h
    · split at h
      · cases h
        omega
      · have := hpop h
        omega

/-! ## The search -/

/-- How many instructions have been reached. -/
def reached (typing : Array (Option (List Kind))) : Nat := typing.toList.countP Option.isSome

/-- How many instructions are pending or have not been reached. -/
def work (s : Search) : Nat := s.pending.length + (s.typing.size - reached s.typing)

theorem reached_le (typing : Array (Option (List Kind))) : reached typing ≤ typing.size := by
  rw [← Array.length_toList]
  exact List.countP_le_length

theorem stackAt_set {typing : Array (Option (List Kind))} {k : Nat} (hk : k < typing.size)
    (stack : List Kind) (j : Nat) :
    stackAt (typing.setIfInBounds k (some stack)) j =
      if j = k then some stack else stackAt typing j := by
  unfold stackAt
  rw [Array.getElem?_setIfInBounds]
  by_cases hj : k = j
  · subst hj
    simp [hk]
  · rw [if_neg hj, if_neg (Ne.symm hj)]

theorem reached_set {typing : Array (Option (List Kind))} {k : Nat} (hk : k < typing.size)
    (hn : stackAt typing k = none) (stack : List Kind) :
    reached (typing.setIfInBounds k (some stack)) = reached typing + 1 := by
  have hlen : k < typing.toList.length := by simpa using hk
  have hnone : typing.toList[k] = none := by
    rw [stackAt, Array.getElem?_eq_getElem hk] at hn
    simpa using hn
  unfold reached
  rw [Array.toList_setIfInBounds, List.countP_set hlen, hnone]
  rfl

/-- What it means that control has gone on with the stack `out`. -/
structure Joined (out : List Kind) (s s' : Search) : Prop where
  size : s'.typing.size = s.typing.size
  grows : ∀ k stack, stackAt s.typing k = some stack → stackAt s'.typing k = some stack
  keeps : ∀ k ∈ s.pending, k ∈ s'.pending
  fresh : ∀ k stack, stackAt s'.typing k = some stack →
    stackAt s.typing k = some stack ∨ k ∈ s'.pending ∧ stack = out
  opened : ∀ k ∈ s'.pending, k ∈ s.pending ∨ stackAt s'.typing k = some out
  work : work s' = work s
  reached : reached s.typing ≤ reached s'.typing

theorem Joined.refl (out : List Kind) (s : Search) : Joined out s s :=
  ⟨rfl, fun _ _ h => h, fun _ h => h, fun _ _ h => .inl h, fun _ h => .inl h, rfl, Nat.le_refl _⟩

theorem Joined.trans {out : List Kind} {s s' s'' : Search} (h : Joined out s s')
    (h' : Joined out s' s'') : Joined out s s'' where
  size := h'.size.trans h.size
  grows k stack hk := h'.grows k stack (h.grows k stack hk)
  keeps k hk := h'.keeps k (h.keeps k hk)
  fresh k stack hk := by
    rcases h'.fresh k stack hk with hk | hk
    · exact (h.fresh k stack hk).imp_right fun ⟨hp, ho⟩ => ⟨h'.keeps k hp, ho⟩
    · exact .inr hk
  opened k hk := by
    rcases h'.opened k hk with hk | hk
    · exact (h.opened k hk).imp_right (h'.grows k out)
    · exact .inr hk
  work := h'.work.trans h.work
  reached := h.reached.trans h'.reached

/-- Stacks are no deeper than twice the number of instructions that have been reached. -/
def Shallow (s : Search) : Prop :=
  ∀ k stack, stackAt s.typing k = some stack → stack.length ≤ 2 * reached s.typing

/-- The search with position `k` reached. -/
def Search.reach (s : Search) (k : Nat) (out : List Kind) : Search :=
  ⟨s.typing.setIfInBounds k (some out), k :: s.pending⟩

section

variable {s : Search} {k : Nat} (hk : k < s.typing.size) (hn : stackAt s.typing k = none)
  (out : List Kind)

include hk hn

theorem joined_reach : Joined out s (s.reach k out) where
  size := Array.size_setIfInBounds
  grows j stack hj := by
    refine (stackAt_set hk out j).trans ((if_neg ?_).trans hj)
    rintro rfl
    rw [hn] at hj
    cases hj
  keeps j := List.mem_cons_of_mem _
  fresh j stack hj := by
    rw [Search.reach, stackAt_set hk] at hj
    split at hj
    · next hjk =>
      cases hj
      exact .inr ⟨hjk ▸ List.mem_cons_self, rfl⟩
    · exact .inl hj
  opened j hj := by
    rcases List.mem_cons.mp hj with rfl | hj
    · exact .inr ((stackAt_set hk out j).trans (if_pos rfl))
    · exact .inl hj
  work := by
    have hreached := reached_set hk hn out
    have hle := reached_le (s.typing.setIfInBounds k (some out))
    rw [Array.size_setIfInBounds] at hle
    simp only [work, Search.reach, Array.size_setIfInBounds, List.length_cons]
    omega
  reached := by
    rw [Search.reach, reached_set hk hn out]
    exact Nat.le_succ _

theorem shallow_reach (hs : Shallow s) (hout : out.length ≤ 2 * reached s.typing + 2) :
    Shallow (s.reach k out) := by
  intro j stack hj
  rw [Search.reach, reached_set hk hn out]
  rw [Search.reach, stackAt_set hk] at hj
  split at hj
  · cases hj
    omega
  · have := hs j stack hj
    omega

end

theorem join_spec {instrs : Array Instruction} {source k : Nat} {out : List Kind} {s s' : Search}
    (hsize : s.typing.size = instrs.size) (hs : Shallow s)
    (hout : out.length ≤ 2 * reached s.typing + 2) (h : join instrs source out s k = .ok s') :
    Joined out s s' ∧ Shallow s' ∧ stackAt s'.typing k = some out := by
  unfold join at h
  split at h
  · cases h
  · next i hi =>
    have hk : k < s.typing.size := hsize ▸ (Array.getElem?_eq_some_iff.mp hi).1
    split at h
    · next known hknown =>
      split at h
      · next heq =>
        cases h
        refine ⟨.refl out s, hs, ?_⟩
        rw [stackAt, hknown, ← heq]
        rfl
      · cases h
    · next hnone =>
      cases h
      have hn : stackAt s.typing k = none := by
        rw [stackAt, Array.getElem?_eq_getElem hk]
        cases hg : s.typing[k] with
        | none => rfl
        | some known =>
          refine (hnone known ?_).elim
          rw [Array.getElem?_eq_getElem hk, hg]
      exact ⟨joined_reach hk hn out, shallow_reach hk hn out hs hout,
        (stackAt_set hk out k).trans (if_pos rfl)⟩

theorem joinBranches_spec {instrs : Array Instruction} (hasc : Ascending instrs) {i : Instruction}
    {out : List Kind} {ds : List Int32} {s s' : Search} (hsize : s.typing.size = instrs.size)
    (hs : Shallow s) (hout : out.length ≤ 2 * reached s.typing + 2)
    (h : ds.foldlM (joinBranch instrs (.ofInstructions instrs) i out) s = .ok s') :
    Joined out s s' ∧ Shallow s' ∧
      ∀ d ∈ ds, ∃ t, StartsAt instrs t (i.absolute d) ∧ stackAt s'.typing t = some out := by
  induction ds generalizing s with
  | nil =>
    cases h
    exact ⟨.refl out _, hs, fun d hd => (List.not_mem_nil hd).elim⟩
  | cons d ds ih =>
    obtain ⟨s₁, h₁, h⟩ := bind_eq_ok.mp h
    unfold joinBranch at h₁
    split at h₁
    · cases h₁
    · next t ht =>
      obtain ⟨hj, hs₁, hat⟩ := join_spec hsize hs hout h₁
      have hreached := hj.reached
      obtain ⟨hj', hs', hds⟩ := ih (hj.size.trans hsize) hs₁ (by omega) h
      refine ⟨hj.trans hj', hs', fun d' hd' => ?_⟩
      rcases List.mem_cons.mp hd' with rfl | hd'
      · exact ⟨t, (OffsetTable.find?_ofInstructions hasc).mp ht, hj'.grows t out hat⟩
      · exact hds d' hd'

/-- Every instruction that has been reached is pending, or has passed its stack on. -/
structure Searched (instrs : Array Instruction) (ret : Kind) (s : Search) : Prop where
  size : s.typing.size = instrs.size
  shallow : Shallow s
  pending : ∀ k ∈ s.pending, ∃ stack, stackAt s.typing k = some stack
  follows : ∀ k stack, stackAt s.typing k = some stack →
    k ∈ s.pending ∨ Follows instrs ret s.typing k stack

theorem Follows.grows {instrs : Array Instruction} {ret : Kind}
    {typing typing' : Array (Option (List Kind))} {k : Nat} {stack : List Kind}
    (h : Follows instrs ret typing k stack)
    (hg : ∀ j out, stackAt typing j = some out → stackAt typing' j = some out) :
    Follows instrs ret typing' k stack := by
  intro i hi
  obtain ⟨out, hstep, hbranches, hnext⟩ := h i hi
  refine ⟨out, hstep, fun d hd => ?_, fun hf => hg _ _ (hnext hf)⟩
  obtain ⟨t, ht, hat⟩ := hbranches d hd
  exact ⟨t, ht, hg t out hat⟩

theorem follow_spec {instrs : Array Instruction} (hasc : Ascending instrs) {ret : Kind}
    {s s' : Search} {k : Nat} {i : Instruction} {stack : List Kind}
    (hsize : s.typing.size = instrs.size) (hs : Shallow s) (hi : instrs[k]? = some i)
    (hk : stackAt s.typing k = some stack)
    (h : follow instrs (.ofInstructions instrs) ret s k i = .ok s') :
    ∃ out, Joined out s s' ∧ Shallow s' ∧ Follows instrs ret s'.typing k stack := by
  unfold follow at h
  rw [show (s.typing[k]?).join = some stack from hk] at h
  obtain ⟨out, hstep, h⟩ := bind_eq_ok.mp h
  have hstep : step ret i.op stack = .ok out := by
    cases hout : step ret i.op stack with
    | error e =>
      rw [Option.getD_some, hout] at hstep
      cases hstep
    | ok o =>
      rw [Option.getD_some, hout] at hstep
      exact congrArg Except.ok (Except.ok.inj hstep)
  obtain ⟨s₁, h₁, h⟩ := bind_eq_ok.mp h
  have hout : out.length ≤ 2 * reached s.typing + 2 := by
    have := length_step_le hstep
    have := hs k stack hk
    omega
  obtain ⟨hj, hs₁, hbranches⟩ := joinBranches_spec hasc hsize hs hout h₁
  split at h
  · next hf =>
    have hreached := hj.reached
    obtain ⟨hj', hs', hat⟩ := join_spec (hj.size.trans hsize) hs₁ (by omega) h
    refine ⟨out, hj.trans hj', hs', fun i' hi' => ?_⟩
    rw [hi] at hi'
    cases hi'
    refine ⟨out, hstep, fun d hd => ?_, fun _ => hat⟩
    obtain ⟨t, ht, hat'⟩ := hbranches d hd
    exact ⟨t, ht, hj'.grows t out hat'⟩
  · next hf =>
    cases h
    refine ⟨out, hj, hs₁, fun i' hi' => ?_⟩
    rw [hi] at hi'
    cases hi'
    exact ⟨out, hstep, hbranches, fun hf' => absurd hf' hf⟩

/-- Following a pending instruction, whichever it is, keeps all that has been reached pending or
passed on. -/
theorem Searched.after {instrs : Array Instruction} (hasc : Ascending instrs) {ret : Kind}
    {s s' : Search} (hs : Searched instrs ret s) {k : Nat} {rest : List Nat}
    (hp : s.pending.Perm (k :: rest)) {i : Instruction} (hi : instrs[k]? = some i)
    (h : follow instrs (.ofInstructions instrs) ret ⟨s.typing, rest⟩ k i = .ok s') :
    Searched instrs ret s' ∧ work s' + 1 = work s ∧
      ∀ j stack, stackAt s.typing j = some stack → stackAt s'.typing j = some stack := by
  have hmem (j : Nat) : j ∈ s.pending ↔ j = k ∨ j ∈ rest := hp.mem_iff.trans List.mem_cons
  obtain ⟨stack, hk⟩ := hs.pending k ((hmem k).mpr (.inl rfl))
  obtain ⟨out, hj, hs₁, hfollows⟩ :=
    follow_spec (s := ⟨s.typing, rest⟩) hasc hs.size hs.shallow hi hk h
  have hwork : work s' + 1 = work s := by
    have hlen := hp.length_eq
    have := hj.work
    unfold work at this ⊢
    rw [List.length_cons] at hlen
    dsimp only at this
    omega
  refine ⟨⟨hj.size.trans hs.size, hs₁, fun j hjp => ?_, fun j stack' hat => ?_⟩, hwork, hj.grows⟩
  · rcases hj.opened j hjp with hjp | hjp
    · obtain ⟨stack', hat⟩ := hs.pending j ((hmem j).mpr (.inr hjp))
      exact ⟨stack', hj.grows j stack' hat⟩
    · exact ⟨out, hjp⟩
  · rcases hj.fresh j stack' hat with hat | ⟨hjp, -⟩
    · rcases hs.follows j stack' hat with hjp | hf
      · rcases (hmem j).mp hjp with rfl | hjp
        · rw [show stackAt s.typing j = some stack from hk] at hat
          cases hat
          exact .inr hfollows
        · exact .inl (hj.keeps j hjp)
      · exact .inr (hf.grows hj.grows)
    · exact .inl hjp

/-- Pending instructions are followed one by one, in any order, until none is left or one fails. -/
inductive Searches (instrs : Array Instruction) (ret : Kind) : Search → Except Error Search → Prop
  | done {s : Search} : s.pending = [] → Searches instrs ret s (.ok s)
  | fails {s : Search} {k : Nat} {rest : List Nat} {i : Instruction} {e : Error} :
    s.pending.Perm (k :: rest) → instrs[k]? = some i →
    follow instrs (.ofInstructions instrs) ret ⟨s.typing, rest⟩ k i = .error e →
    Searches instrs ret s (.error e)
  | follows {s s' : Search} {k : Nat} {rest : List Nat} {i : Instruction}
    {r : Except Error Search} : s.pending.Perm (k :: rest) → instrs[k]? = some i →
    follow instrs (.ofInstructions instrs) ret ⟨s.typing, rest⟩ k i = .ok s' →
    Searches instrs ret s' r → Searches instrs ret s r

/-- With enough fuel, searching is to follow the last instruction reached, each time. -/
theorem searches_search {instrs : Array Instruction} (hasc : Ascending instrs) {ret : Kind}
    {fuel : Nat} {s : Search} (hs : Searched instrs ret s) (hfuel : work s ≤ fuel) :
    Searches instrs ret s (search instrs (.ofInstructions instrs) ret fuel s) := by
  induction fuel generalizing s with
  | zero =>
    unfold work at hfuel
    exact .done (List.length_eq_zero_iff.mp (by omega))
  | succ fuel ih =>
    unfold search
    split
    · next hp => exact .done hp
    · next k rest hp =>
      obtain ⟨stack, hk⟩ := hs.pending k (hp ▸ List.mem_cons_self)
      have hlt := lt_size_of_stackAt hk
      rw [hs.size] at hlt
      split
      · next hnone => exact absurd (Array.getElem?_eq_none_iff.mp hnone) (by omega)
      · next i hi =>
        split
        · next e he => exact .fails (.of_eq hp) hi he
        · next s₁ h₁ =>
          obtain ⟨hs₁, hwork, -⟩ := hs.after hasc (.of_eq hp) hi h₁
          exact .follows (.of_eq hp) hi h₁ (ih hs₁ (by omega))

/-- What a search that succeeds ends with. -/
theorem Searches.searched {instrs : Array Instruction} (hasc : Ascending instrs) {ret : Kind}
    {s s' : Search} {r : Except Error Search} (h : Searches instrs ret s r)
    (hs : Searched instrs ret s) (hr : r = .ok s') : Searched instrs ret s' ∧ s'.pending = [] ∧
      ∀ k stack, stackAt s.typing k = some stack → stackAt s'.typing k = some stack := by
  induction h with
  | done hp =>
    cases hr
    exact ⟨hs, hp, fun _ _ h => h⟩
  | fails => cases hr
  | follows hp hi h₁ _ ih =>
    obtain ⟨hs₁, -, hgrows₁⟩ := hs.after hasc hp hi h₁
    obtain ⟨hs', hnil, hgrows⟩ := ih hs₁ hr
    exact ⟨hs', hnil, fun k stack hk => hgrows k stack (hgrows₁ k stack hk)⟩

/-! ## Where a search starts -/

/-- Only the first instruction has been reached, with nothing on the stack. -/
def Search.start (instrs : Array Instruction) : Search :=
  ⟨(Array.replicate instrs.size none).setIfInBounds 0 (some []), [0]⟩

section

variable {instrs : Array Instruction} (hpos : 0 < instrs.size)

include hpos

theorem stackAt_start {k : Nat} {stack : List Kind} :
    stackAt (Search.start instrs).typing k = some stack ↔ k = 0 ∧ stack = [] := by
  have hnone : stackAt (Array.replicate instrs.size none) k = none := by
    unfold stackAt
    rw [Array.getElem?_replicate]
    split <;> rfl
  rw [Search.start, stackAt_set (by simpa using hpos), hnone]
  split
  · next hk => simp [hk, eq_comm]
  · next hk => simp [hk]

theorem searched_start (ret : Kind) : Searched instrs ret (.start instrs) where
  size := by simp [Search.start]
  shallow k stack hk := by
    rw [((stackAt_start hpos).mp hk).2]
    exact Nat.zero_le _
  pending k hk := ⟨[], (stackAt_start hpos).mpr ⟨List.mem_singleton.mp hk, rfl⟩⟩
  follows k stack hk := .inl (List.mem_singleton.mpr ((stackAt_start hpos).mp hk).1)

theorem work_start : work (.start instrs) = instrs.size := by
  have hlt : 0 < (Array.replicate instrs.size (none : Option (List Kind))).size := by
    simpa using hpos
  have hnone : stackAt (Array.replicate instrs.size none) 0 = none := by
    simp [stackAt, hpos]
  have hreached : reached (Array.replicate instrs.size (none : Option (List Kind))) = 0 := by
    unfold reached
    simp [List.countP_replicate]
  have hset := reached_set hlt hnone []
  unfold work Search.start
  dsimp only
  rw [hset, hreached]
  simp
  omega

end

theorem Searches.typed {instrs : Array Instruction} (hasc : Ascending instrs)
    (hpos : 0 < instrs.size) {ret : Kind} {s : Search} {r : Except Error Search}
    (h : Searches instrs ret (.start instrs) r) (hr : r = .ok s) : Typed instrs ret s.typing := by
  obtain ⟨hs, hnil, hgrows⟩ := h.searched hasc (searched_start hpos ret) hr
  refine ⟨hs.size, fun _ => hgrows 0 [] ((stackAt_start hpos).mpr ⟨rfl, rfl⟩), fun k stack hk => ?_,
    fun k stack hk => ?_⟩
  · rcases hs.follows k stack hk with hp | hf
    · rw [hnil] at hp
      cases hp
    · exact hf
  · have := hs.shallow k stack hk
    have := reached_le s.typing
    rw [hs.size] at this
    omega

/-- Typing stacks is a search from the first instruction. -/
theorem stackTyping_searches {instrs : Array Instruction} (hasc : Ascending instrs)
    (hpos : 0 < instrs.size) (ret : Kind) : ∃ r, Searches instrs ret (.start instrs) r ∧
      stackTyping ret instrs = r.map Search.typing := by
  refine ⟨_, searches_search hasc (searched_start hpos ret) (work_start hpos).le, ?_⟩
  have hempty : instrs.isEmpty = false := by
    simpa [Array.isEmpty_iff, Nat.pos_iff_ne_zero] using hpos
  unfold stackTyping
  rw [hempty]
  rfl

end StackTyping

theorem stackTyping_typed {instrs : Array Instruction} (hasc : Ascending instrs) {ret : Kind}
    {typing : Array (Option (List Kind))} (h : stackTyping ret instrs = .ok typing) :
    Typed instrs ret typing := by
  rcases Nat.eq_zero_or_pos instrs.size with hzero | hpos
  · obtain rfl := Array.eq_empty_of_size_eq_zero hzero
    cases h
    have hnone (k : Nat) (stack : List Kind) (hk : stackAt #[] k = some stack) : False := by
      have := lt_size_of_stackAt hk
      simp at this
    exact ⟨rfl, fun hlt => absurd hlt (Nat.lt_irrefl 0), fun k stack hk => (hnone k stack hk).elim,
      fun k stack hk => (hnone k stack hk).elim⟩
  · obtain ⟨r, hr, heq⟩ := stackTyping_searches hasc hpos ret
    obtain ⟨s, rfl, rfl⟩ := map_eq_ok (heq.symm.trans h)
    exact hr.typed hasc hpos rfl

end ClassWasm
