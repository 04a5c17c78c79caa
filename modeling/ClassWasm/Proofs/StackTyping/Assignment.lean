/-
  Assignments of stacks. An assignment gives a stack to each instruction that control can reach:
  the instruction can run on it, and what it leaves is the stack of all its successors. A search
  in any order succeeds exactly where there is an assignment, and ends with it
  (`stackTyping_iff_assigns`). So there is one assignment at most, and the order of a search plays
  no part.
-/
import ClassWasm.Proofs.Reachability

namespace ClassWasm

open StackTyping

/-- Stacks for the instructions that control can reach. They begin with the empty stack and are the
same along all ways to an instruction, branches lead to instructions, and control does not fall
off the end. -/
structure Assigns (instrs : Array Instruction) (ret : Kind) (stackOf : Nat → List Kind) : Prop where
  start : stackOf 0 = []
  follows : ∀ k, Reachable instrs k → ∀ i, instrs[k]? = some i → ∃ out,
    step ret i.op (stackOf k) = .ok out ∧
    (∀ d ∈ i.op.branches, ∃ t, StartsAt instrs t (i.absolute d) ∧ stackOf t = out) ∧
    (i.op.fallsThrough = true → k + 1 < instrs.size ∧ stackOf (k + 1) = out)

/-- The stacks that typing has found are an assignment. -/
theorem Typed.assigns {instrs : Array Instruction} (hasc : Ascending instrs) {ret : Kind}
    {typing : Array (Option (List Kind))} (h : Typed instrs ret typing) (hpos : 0 < instrs.size) :
    Assigns instrs ret fun k => (stackAt typing k).getD [] := by
  refine ⟨by rw [h.start hpos]; rfl, fun k hk i hi => ?_⟩
  obtain ⟨stack, hstack⟩ := h.of_reachable hasc hpos hk
  obtain ⟨out, hstep, hbranches, hnext⟩ := h.follows k stack hstack i hi
  refine ⟨out, by rw [hstack]; exact hstep, fun d hd => ?_, fun hf => ?_⟩
  · obtain ⟨t, ht, hat⟩ := hbranches d hd
    exact ⟨t, ht, by rw [hat]; rfl⟩
  · have hat := hnext hf
    exact ⟨h.size ▸ lt_size_of_stackAt hat, by rw [hat]; rfl⟩

namespace StackTyping

/-! ## Searches where there is an assignment -/

/-- What has been reached has the stacks of an assignment. -/
structure Agrees (instrs : Array Instruction) (stackOf : Nat → List Kind) (s : Search) : Prop where
  size : s.typing.size = instrs.size
  typing : ∀ k stack, stackAt s.typing k = some stack → Reachable instrs k ∧ stack = stackOf k
  pending : ∀ k ∈ s.pending, stackAt s.typing k = some (stackOf k)

variable {instrs : Array Instruction} {ret : Kind} {stackOf : Nat → List Kind} {s : Search}

/-- Joining fails at no instruction whose stack is the one that is passed on. -/
theorem Agrees.joins (h : Agrees instrs stackOf s) (source : Nat) {k : Nat} (hlt : k < instrs.size)
    (hk : Reachable instrs k) :
    ∃ s', join instrs source (stackOf k) s k = .ok s' ∧ Agrees instrs stackOf s' := by
  have hsize : k < s.typing.size := by rw [h.size]; exact hlt
  have hset := stackAt_set hsize (stackOf k)
  unfold join
  rw [Array.getElem?_eq_getElem hlt]
  dsimp only
  split
  · next known hknown =>
    have hsame : known = stackOf k := (h.typing k known (by rw [stackAt, hknown]; rfl)).2
    rw [if_pos hsame]
    exact ⟨s, rfl, h⟩
  · refine ⟨_, rfl, by simpa using h.size, fun j stack hj => ?_, fun j hj => ?_⟩
    · dsimp only at hj
      rw [hset] at hj
      split at hj
      · next hjk =>
        cases hj
        rw [hjk]
        exact ⟨hk, rfl⟩
      · exact h.typing j stack hj
    · dsimp only at hj ⊢
      rw [hset]
      split
      · next hjk => rw [hjk]
      · next hjk => exact h.pending j ((List.mem_cons.mp hj).resolve_left hjk)

theorem Agrees.joinsBranches (hasc : Ascending instrs) {i : Instruction} {out : List Kind}
    {ds : List Int32} (h : Agrees instrs stackOf s)
    (hds : ∀ d ∈ ds, ∃ t, StartsAt instrs t (i.absolute d) ∧ Reachable instrs t ∧ stackOf t = out) :
    ∃ s', ds.foldlM (joinBranch instrs (.ofInstructions instrs) i out) s = .ok s' ∧
      Agrees instrs stackOf s' := by
  induction ds generalizing s with
  | nil => exact ⟨s, rfl, h⟩
  | cons d ds ih =>
    obtain ⟨t, ht, hreach, rfl⟩ := hds d List.mem_cons_self
    obtain ⟨s₁, h₁, hs₁⟩ := h.joins i.offset ht.lt_size hreach
    obtain ⟨s', h', hs'⟩ := ih hs₁ fun d' hd' => hds d' (List.mem_cons_of_mem _ hd')
    have hbranch : joinBranch instrs (.ofInstructions instrs) i (stackOf t) s d = .ok s₁ := by
      unfold joinBranch
      rw [(OffsetTable.find?_ofInstructions hasc).mpr ht]
      exact h₁
    exact ⟨s', bind_eq_ok.mpr ⟨s₁, hbranch, h'⟩, hs'⟩

/-- Following an instruction never fails where there is an assignment. -/
theorem Agrees.follows (hasc : Ascending instrs) (ha : Assigns instrs ret stackOf)
    (h : Agrees instrs stackOf s) {k : Nat} {i : Instruction} (hi : instrs[k]? = some i)
    (hk : stackAt s.typing k = some (stackOf k)) :
    ∃ s', follow instrs (.ofInstructions instrs) ret s k i = .ok s' ∧ Agrees instrs stackOf s' := by
  have hreach := (h.typing k _ hk).1
  obtain ⟨out, hstep, hbranches, hnext⟩ := ha.follows k hreach i hi
  have hjoins : ∀ d ∈ i.op.branches, ∃ t, StartsAt instrs t (i.absolute d) ∧ Reachable instrs t ∧
      stackOf t = out := by
    intro d hd
    obtain ⟨t, ht, hout⟩ := hbranches d hd
    exact ⟨t, ht, hreach.branch ⟨i, hi, d, hd, ht⟩, hout⟩
  obtain ⟨s₁, h₁, hs₁⟩ := h.joinsBranches hasc hjoins
  have hrun {s' : Search} (hlast : (if i.op.fallsThrough then join instrs i.offset out s₁ (k + 1)
      else .ok s₁) = .ok s') : follow instrs (.ofInstructions instrs) ret s k i = .ok s' := by
    unfold follow
    rw [show (s.typing[k]?).join = some (stackOf k) from hk, Option.getD_some]
    dsimp only
    rw [hstep]
    exact bind_eq_ok.mpr ⟨out, rfl, bind_eq_ok.mpr ⟨s₁, h₁, hlast⟩⟩
  cases hf : i.op.fallsThrough with
  | true =>
    obtain ⟨hlt, rfl⟩ := hnext hf
    obtain ⟨s', h', hs'⟩ := hs₁.joins i.offset hlt (hreach.next hi hf)
    exact ⟨s', hrun (by rw [hf]; exact h'), hs'⟩
  | false => exact ⟨s₁, hrun (by rw [hf]; rfl), hs₁⟩

/-- Where there is an assignment, a search succeeds in any order. -/
theorem Searches.agrees (hasc : Ascending instrs) (ha : Assigns instrs ret stackOf)
    {r : Except Error Search} (h : Searches instrs ret s r) (hs : Agrees instrs stackOf s) :
    ∃ s', r = .ok s' ∧ Agrees instrs stackOf s' := by
  have hafter {s : Search} (hs : Agrees instrs stackOf s) {k : Nat} {rest : List Nat}
      (hp : s.pending.Perm (k :: rest)) {i : Instruction} (hi : instrs[k]? = some i) :
      ∃ s', follow instrs (.ofInstructions instrs) ret ⟨s.typing, rest⟩ k i = .ok s' ∧
        Agrees instrs stackOf s' := by
    have hmem (j : Nat) : j ∈ s.pending ↔ j = k ∨ j ∈ rest := hp.mem_iff.trans List.mem_cons
    have hrest : Agrees instrs stackOf ⟨s.typing, rest⟩ :=
      ⟨hs.size, hs.typing, fun j hj => hs.pending j ((hmem j).mpr (.inr hj))⟩
    exact hrest.follows hasc ha hi (hs.pending k ((hmem k).mpr (.inl rfl)))
  induction h with
  | done => exact ⟨_, rfl, hs⟩
  | fails hp hi he =>
    obtain ⟨s', h', -⟩ := hafter hs hp hi
    rw [he] at h'
    cases h'
  | follows hp hi h₁ _ ih =>
    obtain ⟨s', h', hs'⟩ := hafter hs hp hi
    rw [h₁] at h'
    cases h'
    exact ih hs'

theorem agrees_start (hpos : 0 < instrs.size) (ha : Assigns instrs ret stackOf) :
    Agrees instrs stackOf (.start instrs) where
  size := by simp [Search.start]
  typing k stack hk := by
    obtain ⟨rfl, rfl⟩ := (stackAt_start hpos).mp hk
    exact ⟨.start, ha.start.symm⟩
  pending k hk := by
    rw [List.mem_singleton.mp hk, ha.start]
    exact (stackAt_start hpos).mpr ⟨rfl, rfl⟩

/-! ## What all searches find -/

theorem typing_ext {t t' : Array (Option (List Kind))} (hsize : t.size = t'.size)
    (h : ∀ k stack, stackAt t k = some stack ↔ stackAt t' k = some stack) : t = t' := by
  apply Array.ext hsize
  intro k hk hk'
  have hat := h k
  unfold stackAt at hat
  rw [Array.getElem?_eq_getElem hk, Array.getElem?_eq_getElem hk'] at hat
  exact Option.ext hat

/-- A search that succeeds marks what control can reach, with the stacks of an assignment. -/
theorem Searches.stackAt_iff (hasc : Ascending instrs) (hpos : 0 < instrs.size)
    (ha : Assigns instrs ret stackOf) (h : Searches instrs ret (.start instrs) (.ok s)) (k : Nat)
    (stack : List Kind) :
    stackAt s.typing k = some stack ↔ Reachable instrs k ∧ stack = stackOf k := by
  obtain ⟨s', hs', hagrees⟩ := h.agrees hasc ha (agrees_start hpos ha)
  cases hs'
  constructor
  · exact hagrees.typing k stack
  · rintro ⟨hk, rfl⟩
    obtain ⟨stack, hstack⟩ := (h.typed hasc hpos rfl).of_reachable hasc hpos hk
    rwa [← (hagrees.typing k stack hstack).2]

/-- No two searches end differently. -/
theorem Searches.unique (hasc : Ascending instrs) (hpos : 0 < instrs.size)
    {r r' : Except Error Search} (h : Searches instrs ret (.start instrs) r)
    (h' : Searches instrs ret (.start instrs) r') :
    (r.map Search.typing).toOption = (r'.map Search.typing).toOption := by
  by_cases ha : ∃ stackOf, Assigns instrs ret stackOf
  · obtain ⟨stackOf, ha⟩ := ha
    obtain ⟨s, rfl, hs⟩ := h.agrees hasc ha (agrees_start hpos ha)
    obtain ⟨s', rfl, hs'⟩ := h'.agrees hasc ha (agrees_start hpos ha)
    refine congrArg some (typing_ext (hs.size.trans hs'.size.symm) fun k stack => ?_)
    rw [h.stackAt_iff hasc hpos ha, h'.stackAt_iff hasc hpos ha]
  · have hfails {r : Except Error Search} (hr : Searches instrs ret (.start instrs) r) :
        r.toOption = none := by
      cases hs : r with
      | error e => rfl
      | ok s => exact absurd ⟨_, (hr.typed hasc hpos hs).assigns hasc hpos⟩ ha
    cases r with
    | ok s => cases hfails h
    | error e =>
      cases r' with
      | ok s => cases hfails h'
      | error e' => rfl

end StackTyping

/-- Typing stacks succeeds exactly where there is an assignment. It then finds out which
instructions control can reach, and the only assignment to them, as a search in any other order
does. -/
theorem stackTyping_iff_assigns {pool : Pool} {code : Bytes} {instrs : Array Instruction}
    (hd : decode pool code = .ok instrs) (hpos : 0 < instrs.size) (ret : Kind) :
    ((∃ typing, stackTyping ret instrs = .ok typing) ↔ ∃ stackOf, Assigns instrs ret stackOf) ∧
      (∀ typing, stackTyping ret instrs = .ok typing → typing.size = instrs.size ∧
        ∃ stackOf, Assigns instrs ret stackOf ∧
          (∀ k stack, stackAt typing k = some stack ↔ Reachable instrs k ∧ stack = stackOf k) ∧
          ∀ other, Assigns instrs ret other → ∀ k, Reachable instrs k → other k = stackOf k) ∧
      ∀ r, Searches instrs ret (.start instrs) r →
        (r.map Search.typing).toOption = (stackTyping ret instrs).toOption := by
  have hasc := ascending_of_decode hd
  obtain ⟨r, hr, heq⟩ := stackTyping_searches hasc hpos ret
  have htyped {typing : Array (Option (List Kind))} (h : stackTyping ret instrs = .ok typing) :
      Assigns instrs ret fun k => (stackAt typing k).getD [] :=
    (stackTyping_typed hasc h).assigns hasc hpos
  rw [heq] at htyped ⊢
  refine ⟨⟨?_, ?_⟩, ?_, fun r' hr' => hr'.unique hasc hpos hr⟩
  · rintro ⟨typing, h⟩
    exact ⟨_, htyped h⟩
  · rintro ⟨stackOf, ha⟩
    obtain ⟨s, rfl, -⟩ := hr.agrees hasc ha (agrees_start hpos ha)
    exact ⟨s.typing, rfl⟩
  · intro typing h
    have ha := htyped h
    obtain ⟨s, rfl, rfl⟩ := map_eq_ok h
    refine ⟨(hr.typed hasc hpos rfl).size, _, ha, hr.stackAt_iff hasc hpos ha, ?_⟩
    intro other hother k hk
    obtain ⟨stack, hstack⟩ := (hr.typed hasc hpos rfl).of_reachable hasc hpos hk
    rw [← ((hr.stackAt_iff hasc hpos hother k stack).mp hstack).2]
    exact ((hr.stackAt_iff hasc hpos ha k stack).mp hstack).2

theorem stackTyping_sample : stackTyping .int sampleInstrs =
    .ok #[some [], some [.int], some [], some [], some [.int], some [], some [.int], some [],
      some [.int]] :=
  ok_of_toOption (by decide +kernel)

/-- The stack at the switch of the sample is the same in every assignment. -/
theorem stackTyping_iff_assigns_sample :
    decode ⟨#[]⟩ sampleCode = .ok sampleInstrs ∧ 0 < sampleInstrs.size ∧
      (∃ stackOf, Assigns sampleInstrs .int stackOf) ∧
      ∀ stackOf, Assigns sampleInstrs .int stackOf → Reachable sampleInstrs 4 ∧ stackOf 4 = [.int] := by
  have hpos : 0 < sampleInstrs.size := by decide
  obtain ⟨hiff, hfound, -⟩ := stackTyping_iff_assigns decode_sampleCode hpos .int
  obtain ⟨-, found, -, hat, honly⟩ := hfound _ stackTyping_sample
  obtain ⟨hreach, hfour⟩ := (hat 4 [.int]).mp rfl
  refine ⟨decode_sampleCode, hpos, hiff.mp ⟨_, stackTyping_sample⟩, fun stackOf ha => ?_⟩
  exact ⟨hreach, (honly stackOf ha 4 hreach).trans hfour.symm⟩

end ClassWasm
