/-
  Where control can get. `Reachable` follows branches and falling through from the first
  instruction, and typing stacks marks exactly those positions (`stackTyping_reachable`,
  `Typed.of_reachable`). Branches never jump into the middle of a region, since the region that
  serves such a branch would cross it, so control gets into a loop or block by its first
  instruction (`Reachable.start_of_within`).
-/
import ClassWasm.Proofs.Region.Tree
import ClassWasm.Proofs.StackTyping

namespace ClassWasm

/-- Control that starts with the first instruction can get to position `k`. -/
inductive Reachable (instrs : Array Instruction) : (k : Nat) → Prop
  | start : Reachable instrs 0
  | branch {k t : Nat} : Reachable instrs k → LeadsTo instrs k t → Reachable instrs t
  | next {k : Nat} {i : Instruction} : Reachable instrs k → instrs[k]? = some i →
    i.op.fallsThrough = true → Reachable instrs (k + 1)

namespace StackTyping

/-! ## What the search reaches -/

/-- Only positions of `P` have been reached. -/
structure Keeps (P : Nat → Prop) (s : Search) : Prop where
  typing : ∀ k stack, stackAt s.typing k = some stack → P k
  pending : ∀ k ∈ s.pending, P k

theorem join_keeps {P : Nat → Prop} {instrs : Array Instruction} {source k : Nat}
    {out : List Kind} {s s' : Search} (hs : Keeps P s) (hk : P k)
    (h : join instrs source out s k = .ok s') : Keeps P s' := by
  unfold join at h
  split at h
  · cases h
  · split at h
    · split at h
      · cases h
        exact hs
      · cases h
    · cases h
      refine ⟨fun j stack hj => ?_, fun j hj => ?_⟩
      · by_cases hjk : j = k
        · exact hjk ▸ hk
        · refine hs.typing j stack ?_
          rwa [stackAt, Array.getElem?_setIfInBounds_ne (Ne.symm hjk)] at hj
      · rcases List.mem_cons.mp hj with rfl | hj
        · exact hk
        · exact hs.pending j hj

theorem joinBranches_keeps {P : Nat → Prop} {instrs : Array Instruction} (hasc : Ascending instrs)
    {i : Instruction} {out : List Kind} {ds : List Int32} {s s' : Search} (hs : Keeps P s)
    (hds : ∀ d ∈ ds, ∀ t, StartsAt instrs t (i.absolute d) → P t)
    (h : ds.foldlM (joinBranch instrs (.ofInstructions instrs) i out) s = .ok s') :
    Keeps P s' := by
  induction ds generalizing s with
  | nil =>
    cases h
    exact hs
  | cons d ds ih =>
    obtain ⟨s₁, h₁, h⟩ := bind_eq_ok.mp h
    unfold joinBranch at h₁
    split at h₁
    · cases h₁
    · next t ht =>
      have ht := (OffsetTable.find?_ofInstructions hasc).mp ht
      have hs₁ := join_keeps hs (hds d List.mem_cons_self t ht) h₁
      exact ih hs₁ (fun d' hd' => hds d' (List.mem_cons_of_mem _ hd')) h

theorem follow_keeps {instrs : Array Instruction} (hasc : Ascending instrs) {ret : Kind}
    {s s' : Search} {k : Nat} {i : Instruction} (hs : Keeps (Reachable instrs) s)
    (hi : instrs[k]? = some i) (hk : Reachable instrs k)
    (h : follow instrs (.ofInstructions instrs) ret s k i = .ok s') :
    Keeps (Reachable instrs) s' := by
  obtain ⟨out, -, h⟩ := bind_eq_ok.mp h
  obtain ⟨s₁, h₁, h⟩ := bind_eq_ok.mp h
  have hs₁ := joinBranches_keeps hasc hs (fun d hd t ht => hk.branch ⟨i, hi, d, hd, ht⟩) h₁
  split at h
  · next hf => exact join_keeps hs₁ (hk.next hi hf) h
  · cases h
    exact hs₁

theorem Searches.keeps {instrs : Array Instruction} (hasc : Ascending instrs) {ret : Kind}
    {s s' : Search} {r : Except Error Search} (h : Searches instrs ret s r)
    (hs : Keeps (Reachable instrs) s) (hr : r = .ok s') : Keeps (Reachable instrs) s' := by
  induction h with
  | done =>
    cases hr
    exact hs
  | fails => cases hr
  | @follows s s₁ k rest i r hp hi h₁ _ ih =>
    have hk := hs.pending k (hp.mem_iff.mpr List.mem_cons_self)
    have hrest : Keeps (Reachable instrs) ⟨s.typing, rest⟩ :=
      ⟨hs.typing, fun j hj => hs.pending j (hp.mem_iff.mpr (List.mem_cons_of_mem _ hj))⟩
    exact ih (follow_keeps hasc hrest hi hk h₁) hr

theorem keeps_start {instrs : Array Instruction} (hpos : 0 < instrs.size) :
    Keeps (Reachable instrs) (.start instrs) where
  typing _ _ hk := ((stackAt_start hpos).mp hk).1 ▸ .start
  pending _ hk := List.mem_singleton.mp hk ▸ .start

end StackTyping

open StackTyping

/-- Typing reaches only what control can get to. -/
theorem stackTyping_reachable {instrs : Array Instruction} (hasc : Ascending instrs) {ret : Kind}
    {typing : Array (Option (List Kind))} (h : stackTyping ret instrs = .ok typing) {k : Nat}
    {stack : List Kind} (hk : stackAt typing k = some stack) : Reachable instrs k := by
  have hlt := lt_size_of_stackAt hk
  rw [(stackTyping_typed hasc h).size] at hlt
  have hpos : 0 < instrs.size := by omega
  obtain ⟨r, hr, heq⟩ := stackTyping_searches hasc hpos ret
  obtain ⟨s, rfl, rfl⟩ := map_eq_ok (heq.symm.trans h)
  exact (hr.keeps hasc (keeps_start hpos) rfl).typing k stack hk

/-- Typing reaches all that control can get to. -/
theorem Typed.of_reachable {instrs : Array Instruction} (hasc : Ascending instrs) {ret : Kind}
    {typing : Array (Option (List Kind))} (h : Typed instrs ret typing) (hpos : 0 < instrs.size)
    {k : Nat} (hk : Reachable instrs k) : ∃ stack, stackAt typing k = some stack := by
  induction hk with
  | start => exact ⟨[], h.start hpos⟩
  | branch _ hlead ih =>
    obtain ⟨stack, hstack⟩ := ih
    obtain ⟨i, hi, d, hd, ht⟩ := hlead
    obtain ⟨out, -, hbranches, -⟩ := h.follows _ stack hstack i hi
    obtain ⟨t', ht', hout⟩ := hbranches d hd
    exact ⟨out, ht.unique hasc ht' ▸ hout⟩
  | next _ hi hf ih =>
    obtain ⟨stack, hstack⟩ := ih
    obtain ⟨out, -, -, hnext⟩ := h.follows _ stack hstack _ hi
    exact ⟨out, hnext hf⟩

/-! ## Regions are entered at their start -/

namespace Region

theorem Nested.not_crosses {rs : List Region} (h : Nested rs) {a b : Region} (ha : a ∈ rs)
    (hb : b ∈ rs) : ¬(a.start < b.start ∧ b.start < a.stop ∧ a.stop < b.stop) := by
  refine List.Pairwise.forall_of_forall_of_flip
    (R := fun a b : Region => ¬(a.start < b.start ∧ b.start < a.stop ∧ a.stop < b.stop))
    (fun r _ => by omega) (h.sorted.imp ?_) (h.sorted.imp ?_) ha hb
  · omega
  · unfold flip
    omega

/-- A branch from outside a region goes to its start or stays outside. -/
theorem Found.not_into {instrs : Array Instruction} {rs : List Region} (h : Found instrs rs)
    (hn : Nested rs) {r : Region} (hr : r ∈ rs) {k t : Nat} (hk : LeadsTo instrs k t)
    (hout : k < r.start ∨ r.stop ≤ k) : ¬(r.start < t ∧ t < r.stop) := by
  rintro ⟨hstart, hstop⟩
  rcases hout with hout | hout
  · obtain ⟨r', hr', hle, hend, -⟩ := h.forward k t hk (by omega)
    exact hn.not_crosses hr' hr (by omega)
  · obtain ⟨r', hr', -, hbegin, hlt⟩ := h.backward k t hk (by omega)
    exact hn.not_crosses hr hr' (by omega)

/-- Control gets into a region by its first instruction. -/
theorem Found.entered {instrs : Array Instruction} {rs : List Region} (h : Found instrs rs)
    (hn : Nested rs) {r : Region} (hr : r ∈ rs) {k : Nat} (hk : Reachable instrs k)
    (hstart : r.start ≤ k) (hstop : k < r.stop) : Reachable instrs r.start := by
  induction hk with
  | start =>
    rw [Nat.le_zero.mp hstart]
    exact .start
  | @branch k t hk hlead ih =>
    by_cases hin : r.start ≤ k ∧ k < r.stop
    · exact ih hin.1 hin.2
    · have := h.not_into hn hr hlead (by omega)
      rw [show r.start = t by omega]
      exact hk.branch hlead
  | @next k i hk hi hf ih =>
    by_cases hin : r.start ≤ k
    · exact ih hin (by omega)
    · rw [show r.start = k + 1 by omega]
      exact hk.next hi hf

end Region

/-- The loops and blocks of a tree are regions of its code. -/
theorem Node.region_of_within {instrs : Array Instruction} (hasc : Ascending instrs)
    {tree : List Node} (hs : structureOf instrs = .ok tree) {n : Node} (hn : Node.Within n tree)
    {s e : Nat} (hext : n.extent? = some (s, e)) :
    ∃ rs, Region.Found instrs rs ∧ Region.Nested rs ∧ ∃ r ∈ rs, r.start = s ∧ r.stop = e := by
  obtain ⟨rs, hrs, hs⟩ := bind_eq_ok.mp hs
  cases hs
  obtain ⟨hfound, hnested⟩ := regions_spec hasc hrs
  rcases (Node.build_spans hfound.bounds hnested).within hn with ⟨i, rfl⟩ | ⟨r, hr, -, body, rfl, -⟩
  · cases hext
  · rw [Node.extent?_ofRegion] at hext
    cases hext
    exact ⟨rs, hfound, hnested, r, hr, rfl, rfl⟩

/-- Control gets into a loop or block by its first instruction. -/
theorem Reachable.start_of_within {instrs : Array Instruction} (hasc : Ascending instrs)
    {tree : List Node} (hs : structureOf instrs = .ok tree) {n : Node} (hn : Node.Within n tree)
    {s e : Nat} (hext : n.extent? = some (s, e)) {k : Nat} (hk : Reachable instrs k)
    (hstart : s ≤ k) (hstop : k < e) : Reachable instrs s := by
  obtain ⟨rs, hfound, hnested, r, hr, rfl, rfl⟩ := Node.region_of_within hasc hs hn hext
  exact hfound.entered hnested hr hk hstart hstop

end ClassWasm
