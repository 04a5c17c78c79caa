/-
  The regions that code gives rise to. `Found` says what holds of them: every branch has its
  region, a conditional region starts at the branch that skips it, the wrappers of one switch
  start together, and there are as many regions of each sort as the code has targets, heads and
  jumps of that sort. `Widens` says how a region may change while regions are nested, and `Found`
  survives every such change (`Found.widens`), so it holds of the regions before and after.
-/
import ClassWasm.Proofs.Positions
import ClassWasm.Region

namespace ClassWasm

/-! ## What code says of its regions -/

/-- The number of targets that switches have, defaults included. -/
def switchTargets (instrs : Array Instruction) : Nat :=
  (instrs.toList.map fun i => if i.op.isSwitch then i.op.branches.length else 0).sum

/-- Positions that some branch goes back to, or that branch to themselves. -/
def loopHeads (instrs : Array Instruction) : Set Nat := {t | ∃ k, t ≤ k ∧ LeadsTo instrs k t}

/-- Positions of branches forward that are no switches. -/
def forwardJumps (instrs : Array Instruction) : Set Nat :=
  {k | (∃ i, instrs[k]? = some i ∧ i.op.isSwitch = false) ∧ ∃ t, k < t ∧ LeadsTo instrs k t}

/-- The instruction at position `k` branches to position `t` or goes on with the next. -/
def Guards (instrs : Array Instruction) (k t : Nat) : Prop :=
  LeadsTo instrs k t ∧ ∃ i, instrs[k]? = some i ∧ i.op.isConditional = true

/-- The branches of the first `m` instructions go to instructions, those of switches forward. -/
def Lands (instrs : Array Instruction) (m : Nat) : Prop :=
  ∀ k < m, ∀ i, instrs[k]? = some i → ∀ d ∈ i.op.branches,
    ∃ t, StartsAt instrs t (i.absolute d) ∧ (i.op.isSwitch = true → k < t)

/-- The number of targets that instructions have. -/
def targetsOf (is : List Instruction) : Nat := (is.map fun i => i.op.branches.length).sum

namespace Region

def Shape.isLoop : Shape → Bool
  | loop => true
  | _ => false

def Shape.isWrapper : Shape → Bool
  | wrapper _ => true
  | _ => false

/-- The shape of a region that a single jump forward opens. -/
def Shape.isSingle : Shape → Bool
  | block | conditional => true
  | _ => false

/-- The wrappers of one switch start together. -/
def Shared (rs : List Region) : Prop :=
  ∀ a ∈ rs, ∀ b ∈ rs, ∀ o, a.shape = .wrapper o → b.shape = .wrapper o → a.start = b.start

/-- What holds of the regions of code, however far they have been widened. -/
structure Found (instrs : Array Instruction) (rs : List Region) : Prop where
  lands : Lands instrs instrs.size
  bounds : ∀ r ∈ rs, r.start < r.stop ∧ r.stop ≤ instrs.size
  guards : ∀ r ∈ rs, r.shape = .conditional → Guards instrs r.start r.stop
  /-- No instruction is the guard of two regions. -/
  apart : rs.Pairwise fun a b => a.shape = .conditional → b.shape = .conditional → a.start ≠ b.start
  shared : Shared rs
  forward : ∀ k t, LeadsTo instrs k t → k < t →
    ∃ r ∈ rs, r.start ≤ k ∧ r.stop = t ∧ r.shape ≠ .loop
  backward : ∀ k t, LeadsTo instrs k t → t ≤ k →
    ∃ r ∈ rs, r.shape = .loop ∧ r.start = t ∧ k < r.stop
  wrappers : (rs.countP fun r => r.shape.isWrapper) = switchTargets instrs
  loops : (rs.countP fun r => r.shape.isLoop) = (loopHeads instrs).ncard
  singles : (rs.countP fun r => r.shape.isSingle) = (forwardJumps instrs).ncard
  few : rs.length ≤ targetsOf instrs.toList

/-! ## Widening -/

/-- `r'` is `r` with its start moved back, or no longer conditional. What is a loop, or still
conditional, has not moved. -/
structure Widens (r r' : Region) : Prop where
  stop : r'.stop = r.stop
  start : r'.start ≤ r.start
  shape : r'.shape = r.shape ∨ r.shape = .conditional ∧ r'.shape = .block
  fixed : r'.shape = .loop ∨ r'.shape = .conditional → r'.start = r.start

theorem Widens.shape_eq {r r' : Region} (h : Widens r r') (hc : r'.shape ≠ .block) :
    r'.shape = r.shape := by
  rcases h.shape with hs | ⟨-, hs⟩
  · exact hs
  · exact absurd hs hc

/-- What does not tell a conditional block from a plain one stays as it is. -/
theorem Widens.apply_shape {α : Type} {r r' : Region} (h : Widens r r') (p : Shape → α)
    (hp : p .conditional = p .block) : p r'.shape = p r.shape := by
  rcases h.shape with hs | ⟨h1, h2⟩
  · rw [hs]
  · rw [h1, h2, hp]

theorem countP_widens {p : Shape → Bool} (hp : p .conditional = p .block) {rs rs' : List Region}
    (h : List.Forall₂ Widens rs rs') :
    (rs'.countP fun r => p r.shape) = rs.countP fun r => p r.shape := by
  induction h with
  | nil => rfl
  | cons hw _ ih => rw [List.countP_cons, List.countP_cons, ih, hw.apply_shape p hp]

theorem apart_widens {rs rs' : List Region} (h : List.Forall₂ Widens rs rs')
    (ha : rs.Pairwise fun a b =>
      a.shape = .conditional → b.shape = .conditional → a.start ≠ b.start) :
    rs'.Pairwise fun a b => a.shape = .conditional → b.shape = .conditional → a.start ≠ b.start := by
  induction h with
  | nil => exact .nil
  | @cons r r' rs rs' hw hws ih =>
    rw [List.pairwise_cons] at ha ⊢
    refine ⟨fun b hb hac hbc => ?_, ih ha.2⟩
    obtain ⟨c, hc, hcb⟩ := mem_left_of_forall₂ hws hb
    have h1 : r.shape = .conditional := by rw [← hw.shape_eq (by rw [hac]; decide), hac]
    have h2 : c.shape = .conditional := by rw [← hcb.shape_eq (by rw [hbc]; decide), hbc]
    rw [hw.fixed (.inr hac), hcb.fixed (.inr hbc)]
    exact ha.1 c hc h1 h2

/-- Widening regions keeps what is known of them, as long as the wrappers of a switch move
together. -/
theorem Found.widens {instrs : Array Instruction} {rs rs' : List Region} (hf : Found instrs rs)
    (h : List.Forall₂ Widens rs rs')
    (hs : Shared rs') : Found instrs rs' where
  lands := hf.lands
  bounds := by
    intro r' hr'
    obtain ⟨r, hr, hw⟩ := mem_left_of_forall₂ h hr'
    have := hf.bounds r hr
    have := hw.start
    rw [hw.stop]
    omega
  guards := by
    intro r' hr' hc
    obtain ⟨r, hr, hw⟩ := mem_left_of_forall₂ h hr'
    rw [hw.fixed (.inr hc), hw.stop]
    exact hf.guards r hr (by rw [← hw.shape_eq (by rw [hc]; decide), hc])
  apart := apart_widens h hf.apart
  shared := hs
  forward := by
    intro k t hkt hlt
    obtain ⟨r, hr, hstart, hstop, hl⟩ := hf.forward k t hkt hlt
    obtain ⟨r', hr', hw⟩ := mem_right_of_forall₂ h hr
    refine ⟨r', hr', hw.start.trans hstart, hw.stop.trans hstop, fun hl' => hl ?_⟩
    rw [← hw.shape_eq (by rw [hl']; decide), hl']
  backward := by
    intro k t hkt hle
    obtain ⟨r, hr, hl, hstart, hstop⟩ := hf.backward k t hkt hle
    obtain ⟨r', hr', hw⟩ := mem_right_of_forall₂ h hr
    have hl' : r'.shape = .loop := by
      rcases hw.shape with hs | ⟨hc, -⟩
      · rw [hs, hl]
      · rw [hl] at hc; cases hc
    exact ⟨r', hr', hl', (hw.fixed (.inl hl')).trans hstart, hw.stop ▸ hstop⟩
  wrappers := (countP_widens rfl h).trans hf.wrappers
  loops := (countP_widens rfl h).trans hf.loops
  singles := (countP_widens rfl h).trans hf.singles
  few := h.length_eq ▸ hf.few

theorem Found.perm {instrs : Array Instruction} {rs rs' : List Region} (hf : Found instrs rs)
    (h : rs'.Perm rs) : Found instrs rs' where
  lands := hf.lands
  bounds r hr := hf.bounds r (h.mem_iff.mp hr)
  guards r hr := hf.guards r (h.mem_iff.mp hr)
  apart := (h.pairwise_iff fun hab hb ha => (hab ha hb).symm).mpr hf.apart
  shared a ha b hb := hf.shared a (h.mem_iff.mp ha) b (h.mem_iff.mp hb)
  forward k t hkt hlt := by
    obtain ⟨r, hr, hr'⟩ := hf.forward k t hkt hlt
    exact ⟨r, h.mem_iff.mpr hr, hr'⟩
  backward k t hkt hle := by
    obtain ⟨r, hr, hr'⟩ := hf.backward k t hkt hle
    exact ⟨r, h.mem_iff.mpr hr, hr'⟩
  wrappers := (h.countP_eq _).trans hf.wrappers
  loops := (h.countP_eq _).trans hf.loops
  few := h.length_eq.trans_le hf.few
  singles := (h.countP_eq _).trans hf.singles

/-! ## Loops -/

theorem mem_addLoop {start last : Nat} {ls : List (Nat × Nat)} {p : Nat × Nat}
    (h : p ∈ addLoop start last ls) : p ∈ ls ∨ p.1 = start ∧ (p.2 = last ∨ ∃ l, (start, l) ∈ ls ∧
      p.2 = max l last) := by
  induction ls with
  | nil =>
    rw [addLoop, List.mem_singleton] at h
    exact .inr ⟨h ▸ rfl, .inl (h ▸ rfl)⟩
  | cons q ls ih =>
    obtain ⟨s, l⟩ := q
    unfold addLoop at h
    split at h
    · rcases List.mem_cons.mp h with rfl | h
      · exact .inr ⟨rfl, .inl rfl⟩
      · exact .inl h
    · split at h
      · next hs =>
        rcases List.mem_cons.mp h with rfl | h
        · exact .inr ⟨hs.symm, .inr ⟨l, by rw [hs]; exact List.mem_cons_self, rfl⟩⟩
        · exact .inl (List.mem_cons_of_mem _ h)
      · rcases List.mem_cons.mp h with rfl | h
        · exact .inl List.mem_cons_self
        · rcases ih h with h | ⟨h1, h2 | ⟨l', h2, h3⟩⟩
          · exact .inl (List.mem_cons_of_mem _ h)
          · exact .inr ⟨h1, .inl h2⟩
          · exact .inr ⟨h1, .inr ⟨l', List.mem_cons_of_mem _ h2, h3⟩⟩

theorem addLoop_self (start last : Nat) (ls : List (Nat × Nat)) :
    ∃ l, (start, l) ∈ addLoop start last ls ∧ last ≤ l := by
  induction ls with
  | nil => exact ⟨last, List.mem_singleton_self _, Nat.le_refl _⟩
  | cons q ls ih =>
    obtain ⟨s, l⟩ := q
    unfold addLoop
    split
    · exact ⟨last, List.mem_cons_self, Nat.le_refl _⟩
    · split
      · next hs => exact ⟨max l last, by rw [hs]; exact List.mem_cons_self, Nat.le_max_right _ _⟩
      · obtain ⟨l', h1, h2⟩ := ih
        exact ⟨l', List.mem_cons_of_mem _ h1, h2⟩

theorem length_addLoop_le (start last : Nat) (ls : List (Nat × Nat)) :
    (addLoop start last ls).length ≤ ls.length + 1 := by
  induction ls with
  | nil => exact Nat.le_refl _
  | cons q ls ih =>
    obtain ⟨s, l⟩ := q
    unfold addLoop
    split
    · exact Nat.le_refl _
    · split
      · exact Nat.le_succ _
      · exact Nat.succ_le_succ ih

theorem addLoop_of_mem {start last s l : Nat} {ls : List (Nat × Nat)} (h : (s, l) ∈ ls) :
    ∃ l', (s, l') ∈ addLoop start last ls ∧ l ≤ l' := by
  induction ls with
  | nil => cases h
  | cons q ls ih =>
    obtain ⟨s', l'⟩ := q
    unfold addLoop
    split
    · exact ⟨l, List.mem_cons_of_mem _ h, Nat.le_refl _⟩
    · split
      · rcases List.mem_cons.mp h with h | h
        · cases h
          exact ⟨_, List.mem_cons_self, Nat.le_max_left _ _⟩
        · exact ⟨l, List.mem_cons_of_mem _ h, Nat.le_refl _⟩
      · rcases List.mem_cons.mp h with h | h
        · cases h
          exact ⟨l, List.mem_cons_self, Nat.le_refl _⟩
        · obtain ⟨m, h1, h2⟩ := ih h
          exact ⟨m, List.mem_cons_of_mem _ h1, h2⟩

theorem addLoop_pairwise {start last : Nat} {ls : List (Nat × Nat)}
    (h : ls.Pairwise fun a b => a.1 < b.1) :
    (addLoop start last ls).Pairwise fun a b => a.1 < b.1 := by
  induction ls with
  | nil => exact List.pairwise_singleton _ _
  | cons q ls ih =>
    obtain ⟨s, l⟩ := q
    have hc := List.pairwise_cons.mp h
    unfold addLoop
    split
    · next hlt =>
      refine .cons (fun b hb => ?_) h
      rcases List.mem_cons.mp hb with rfl | hb
      · exact hlt
      · exact hlt.trans (hc.1 b hb)
    · split
      · exact .cons hc.1 hc.2
      · next h1 h2 =>
        refine .cons (fun b hb => ?_) (ih hc.2)
        rcases mem_addLoop hb with hb | ⟨hb, -⟩
        · exact hc.1 b hb
        · dsimp only at hb ⊢
          omega

/-! ## Wrappers -/

/-- Wrappers have numbers below `n`, and those with one number start together. -/
structure Numbered (n : Nat) (fs : List Region) : Prop where
  owned : ∀ r ∈ fs, ∀ o, r.shape = .wrapper o → o < n
  shared : Shared fs

theorem Numbered.append {n k : Nat} {fs ws : List Region} (h : Numbered n fs)
    (hw : ∀ w ∈ ws, w.start = k ∧ w.shape = .wrapper n) : Numbered (n + 1) (fs ++ ws) where
  owned r hr o ho := by
    rcases List.mem_append.mp hr with hr | hr
    · have := h.owned r hr o ho
      omega
    · rw [(hw r hr).2] at ho
      cases ho
      exact Nat.lt_succ_self n
  shared a ha b hb o hao hbo := by
    -- A wrapper of the new switch has a number that no earlier one has.
    have fresh {a b : Region} (ha : a ∈ fs) (hb : b ∈ ws) (hao : a.shape = .wrapper o)
        (hbo : b.shape = .wrapper o) : False := by
      rw [(hw b hb).2] at hbo
      cases hbo
      exact Nat.lt_irrefl _ (h.owned a ha n hao)
    rcases List.mem_append.mp ha with ha | ha <;> rcases List.mem_append.mp hb with hb | hb
    · exact h.shared a ha b hb o hao hbo
    · exact (fresh ha hb hao hbo).elim
    · exact (fresh hb ha hbo hao).elim
    · rw [(hw a ha).1, (hw b hb).1]

/-- Regions that are no wrappers may be added. -/
theorem Numbered.add {n : Nat} {fs rs : List Region} (h : Numbered n fs)
    (hrs : ∀ r ∈ rs, ∀ o, r.shape ≠ .wrapper o) : Numbered n (fs ++ rs) where
  owned r hr o ho := by
    rcases List.mem_append.mp hr with hr | hr
    · exact h.owned r hr o ho
    · exact absurd ho (hrs r hr o)
  shared a ha b hb o hao hbo := by
    rcases List.mem_append.mp ha with ha | ha
    · rcases List.mem_append.mp hb with hb | hb
      · exact h.shared a ha b hb o hao hbo
      · exact absurd hbo (hrs b hb o)
    · exact absurd hao (hrs a ha o)

theorem numbered_collectAt {instrs : Array Instruction} {table : OffsetTable} {c c' : Collected}
    {ik : Instruction × Nat} (hc : Numbered c.switches c.forward.toList)
    (h : collectAt instrs table c ik = .ok c') : Numbered c'.switches c'.forward.toList := by
  unfold collectAt at h
  dsimp only at h
  split at h
  · cases h
    exact hc
  · split at h
    · obtain ⟨ws, hm, h⟩ := bind_eq_ok.mp h
      cases h
      dsimp only
      rw [Array.toList_append]
      refine hc.append (k := ik.2) fun w hw => ?_
      obtain ⟨d, -, hd⟩ := mem_left_of_forall₂ (forall₂_of_mapM hm) hw
      obtain ⟨t, -, hd⟩ := bind_eq_ok.mp hd
      split at hd <;> cases hd
      exact ⟨rfl, rfl⟩
    · obtain ⟨t, -, h⟩ := bind_eq_ok.mp h
      split at h
      · cases h
        exact hc
      · cases h
        dsimp only
        rw [Array.toList_push]
        refine hc.add fun r hr o => ?_
        rw [List.mem_singleton.mp hr]
        dsimp only
        split <;> exact nofun

/-- The wrappers of one switch start together, also where offsets do not ascend. -/
theorem shared_of_collect {instrs : Array Instruction} {rs : Array Region}
    (h : collect instrs = .ok rs) : Shared rs.toList := by
  obtain ⟨c, hc, h⟩ := bind_eq_ok.mp h
  cases h
  have hnone : Numbered 0 [] :=
    ⟨fun r hr => (List.not_mem_nil hr).elim, fun r hr => (List.not_mem_nil hr).elim⟩
  have hall := (foldlM_rel (P := fun c => Numbered c.switches c.forward.toList)
    (R := fun _ _ => True) (fun _ => trivial) (fun _ _ _ _ _ => trivial)
    (fun _ _ _ hc h => ⟨numbered_collectAt hc h, trivial⟩) hnone hc).1
  rw [Array.toList_append]
  refine (hall.add fun r hr o => ?_).shared
  obtain ⟨p, -, rfl⟩ := List.mem_map.mp hr
  exact nofun

/-! ## One instruction -/

theorem branches_of_not_isSwitch {op : Operation} {d : Int32} {ds : List Int32}
    (h : op.branches = d :: ds) (hs : op.isSwitch = false) : ds = [] := by
  cases op <;> simp_all [Operation.branches, Operation.isSwitch]

theorem target_eq_ok {instrs : Array Instruction} (hasc : Ascending instrs) {i : Instruction}
    {d : Int32} {t : Nat} (h : target (.ofInstructions instrs) i d = .ok t) :
    StartsAt instrs t (i.absolute d) := by
  unfold target at h
  split at h
  · next t' ht =>
    cases h
    exact (OffsetTable.find?_ofInstructions hasc).mp ht
  · cases h

theorem wrapper_eq_ok {instrs : Array Instruction} (hasc : Ascending instrs) {i : Instruction}
    {k owner : Nat} {d : Int32} {r : Region}
    (h : wrapper instrs (.ofInstructions instrs) i k owner d = .ok r) :
    StartsAt instrs r.stop (i.absolute d) ∧ k < r.stop ∧ r = ⟨k, r.stop, .wrapper owner⟩ := by
  obtain ⟨t, ht, h⟩ := bind_eq_ok.mp h
  split at h
  · cases h
  · cases h
    exact ⟨target_eq_ok hasc ht, by dsimp only; omega, rfl⟩

/-- What the instruction `i` at position `k` adds: nothing, a wrapper for each target of a switch,
a branch back, or one region forward. -/
inductive Adds (instrs : Array Instruction) (i : Instruction) (k : Nat) (c : Collected) :
    Collected → Prop
  | nothing : i.op.branches = [] → Adds instrs i k c c
  | wrappers (ws : List Region) : i.op.isSwitch = true →
    List.Forall₂ (fun d w => StartsAt instrs w.stop (i.absolute d) ∧ k < w.stop ∧
      w = ⟨k, w.stop, .wrapper c.switches⟩) i.op.branches ws →
    Adds instrs i k c { c with forward := c.forward ++ ws.toArray, switches := c.switches + 1 }
  | back (d : Int32) (t : Nat) : i.op.isSwitch = false → i.op.branches = [d] →
    StartsAt instrs t (i.absolute d) → t ≤ k →
    Adds instrs i k c { c with loops := addLoop t k c.loops }
  | single (d : Int32) (t : Nat) : i.op.isSwitch = false → i.op.branches = [d] →
    StartsAt instrs t (i.absolute d) → k < t →
    Adds instrs i k c { c with
      forward := c.forward.push ⟨k, t, if i.op.isConditional then .conditional else .block⟩ }

theorem adds_of_collectAt {instrs : Array Instruction} (hasc : Ascending instrs)
    {c c' : Collected} {i : Instruction} {k : Nat}
    (h : collectAt instrs (.ofInstructions instrs) c (i, k) = .ok c') : Adds instrs i k c c' := by
  unfold collectAt at h
  dsimp only at h
  split at h
  · next hb =>
    cases h
    exact .nothing hb
  · next d ds hb =>
    split at h
    · next hs =>
      obtain ⟨ws, hm, h⟩ := bind_eq_ok.mp h
      cases h
      refine .wrappers ws hs ?_
      rw [hb]
      exact (forall₂_of_mapM hm).imp fun d w hw => wrapper_eq_ok hasc hw
    · next hs =>
      have hs : i.op.isSwitch = false := by simpa using hs
      have hds := branches_of_not_isSwitch hb hs
      subst hds
      obtain ⟨t, ht, h⟩ := bind_eq_ok.mp h
      split at h
      · next hle =>
        cases h
        exact .back d t hs hb (target_eq_ok hasc ht) hle
      · next hle =>
        cases h
        exact .single d t hs hb (target_eq_ok hasc ht) (by omega)

/-! ## All instructions -/

theorem leadsTo_iff {instrs : Array Instruction} {i : Instruction} {k t : Nat}
    (hi : instrs[k]? = some i) :
    LeadsTo instrs k t ↔ ∃ d ∈ i.op.branches, StartsAt instrs t (i.absolute d) := by
  unfold LeadsTo
  rw [hi]
  simp

theorem leadsTo_single {instrs : Array Instruction} (hasc : Ascending instrs) {i : Instruction}
    {k t : Nat} {d : Int32} (hi : instrs[k]? = some i) (hb : i.op.branches = [d])
    (ht : StartsAt instrs t (i.absolute d)) (t' : Nat) : LeadsTo instrs k t' ↔ t' = t := by
  simp only [leadsTo_iff hi, hb, List.mem_singleton, exists_eq_left]
  exact ⟨fun ht' => ht'.unique hasc ht, fun h => h ▸ ht⟩

/-- The loops that the first `m` instructions close. -/
structure LoopsUpto (instrs : Array Instruction) (m : Nat) (ls : List (Nat × Nat)) : Prop where
  sorted : ls.Pairwise fun a b => a.1 < b.1
  heads : ∀ p ∈ ls, p.1 ≤ p.2 ∧ p.2 < m ∧ p.1 ∈ loopHeads instrs
  covers : ∀ k < m, ∀ t, LeadsTo instrs k t → t ≤ k → ∃ l, (t, l) ∈ ls ∧ k ≤ l

theorem LoopsUpto.skip {instrs : Array Instruction} {m : Nat} {ls : List (Nat × Nat)}
    (h : LoopsUpto instrs m ls) (hm : ∀ t, LeadsTo instrs m t → m < t) :
    LoopsUpto instrs (m + 1) ls where
  sorted := h.sorted
  heads p hp := by
    have := h.heads p hp
    exact ⟨this.1, by omega, this.2.2⟩
  covers k hk t hkt hle := by
    rcases Nat.lt_succ_iff_lt_or_eq.mp hk with hk | rfl
    · exact h.covers k hk t hkt hle
    · have := hm t hkt
      omega

theorem LoopsUpto.add {instrs : Array Instruction} {m t : Nat} {ls : List (Nat × Nat)}
    (h : LoopsUpto instrs m ls) (ht : LeadsTo instrs m t) (hle : t ≤ m)
    (hm : ∀ t', LeadsTo instrs m t' → t' = t) : LoopsUpto instrs (m + 1) (addLoop t m ls) where
  sorted := addLoop_pairwise h.sorted
  heads p hp := by
    rcases mem_addLoop hp with hp | ⟨h1, h2⟩
    · have := h.heads p hp
      exact ⟨this.1, by omega, this.2.2⟩
    · refine ⟨?_, ?_, h1 ▸ ⟨m, hle, ht⟩⟩
      · rcases h2 with h2 | ⟨l, -, h2⟩ <;> omega
      · rcases h2 with h2 | ⟨l, hl, h2⟩
        · omega
        · have := (h.heads _ hl).2.1
          dsimp only at this
          omega
  covers k hk t' hkt hle' := by
    rcases Nat.lt_succ_iff_lt_or_eq.mp hk with hk | rfl
    · obtain ⟨l, hl, hkl⟩ := h.covers k hk t' hkt hle'
      obtain ⟨l', hl', hll⟩ : ∃ l', (t', l') ∈ addLoop t m ls ∧ l ≤ l' := addLoop_of_mem hl
      exact ⟨l', hl', hkl.trans hll⟩
    · rw [hm t' hkt]
      exact addLoop_self t k ls

/-- The regions that the first `m` instructions open. -/
structure ForwardUpto (instrs : Array Instruction) (m : Nat) (fs : List Region) : Prop where
  bounds : ∀ r ∈ fs, r.start < m ∧ r.start < r.stop ∧ r.stop ≤ instrs.size ∧ r.shape ≠ .loop
  guards : ∀ r ∈ fs, r.shape = .conditional → Guards instrs r.start r.stop
  ordered : (fs.filter fun r => r.shape.isSingle).Pairwise fun a b => a.start < b.start
  jumps : ∀ r ∈ fs, r.shape.isSingle = true → r.start ∈ forwardJumps instrs
  covers : ∀ k < m, ∀ t, LeadsTo instrs k t → k < t → ∃ r ∈ fs, r.start = k ∧ r.stop = t ∧
    ∀ i, instrs[k]? = some i → i.op.isSwitch = false → r.shape.isSingle = true
  wrappers : (fs.countP fun r => r.shape.isWrapper) =
    ((instrs.toList.take m).map fun i => if i.op.isSwitch then i.op.branches.length else 0).sum

/-- What the instruction `i` at position `m` opens, as the switch with number `n` if it is one. -/
structure Opens (instrs : Array Instruction) (i : Instruction) (m n : Nat) (ws : List Region) :
    Prop where
  each : ∀ w ∈ ws, w.start = m ∧ m < w.stop ∧ LeadsTo instrs m w.stop ∧
    w.shape = if i.op.isSwitch then .wrapper n
      else if i.op.isConditional then .conditional else .block
  covers : ∀ t, LeadsTo instrs m t → m < t → ∃ w ∈ ws, w.stop = t
  count : ws.length = if i.op.isSwitch then i.op.branches.length else ws.length
  single : i.op.isSwitch = false → ws.length ≤ 1

theorem Opens.isSingle {instrs : Array Instruction} {i : Instruction} {m n : Nat}
    {ws : List Region} (h : Opens instrs i m n ws) {w : Region} (hw : w ∈ ws) :
    w.shape.isSingle = !i.op.isSwitch := by
  rw [(h.each w hw).2.2.2]
  cases i.op.isSwitch <;> cases i.op.isConditional <;> rfl

theorem Opens.isWrapper {instrs : Array Instruction} {i : Instruction} {m n : Nat}
    {ws : List Region} (h : Opens instrs i m n ws) {w : Region} (hw : w ∈ ws) :
    w.shape.isWrapper = i.op.isSwitch := by
  rw [(h.each w hw).2.2.2]
  cases i.op.isSwitch <;> cases i.op.isConditional <;> rfl

section

variable {instrs : Array Instruction} {i : Instruction} {m : Nat} (n : Nat)

/-- An instruction that does not branch forward opens nothing. -/
theorem opens_nil (hs : i.op.isSwitch = true → i.op.branches = [])
    (hf : ∀ t, LeadsTo instrs m t → t ≤ m) : Opens instrs i m n [] where
  each w hw := (List.not_mem_nil hw).elim
  covers t ht hlt := absurd (hf t ht) (Nat.not_le.mpr hlt)
  count := by
    split
    · next h =>
      rw [hs h]
      rfl
    · rfl
  single _ := Nat.zero_le _

theorem opens_wrappers (hasc : Ascending instrs) (hi : instrs[m]? = some i)
    (hs : i.op.isSwitch = true) {ws : List Region}
    (hws : List.Forall₂ (fun d w => StartsAt instrs w.stop (i.absolute d) ∧ m < w.stop ∧
      w = ⟨m, w.stop, .wrapper n⟩) i.op.branches ws) : Opens instrs i m n ws where
  each w hw := by
    obtain ⟨d, hd, hst, hlt, heq⟩ := mem_left_of_forall₂ hws hw
    rw [hs, heq]
    exact ⟨rfl, hlt, (leadsTo_iff hi).mpr ⟨d, hd, hst⟩, rfl⟩
  covers t ht _ := by
    obtain ⟨d, hd, hst⟩ := (leadsTo_iff hi).mp ht
    obtain ⟨w, hw, hst', -⟩ := mem_right_of_forall₂ hws hd
    exact ⟨w, hw, hst'.unique hasc hst⟩
  count := by rw [hs, if_pos rfl, hws.length_eq]
  single hf := absurd (hs.symm.trans hf) nofun

theorem opens_single {t : Nat} (hs : i.op.isSwitch = false) (hlt : m < t)
    (ht : ∀ t', LeadsTo instrs m t' ↔ t' = t) :
    Opens instrs i m n [⟨m, t, if i.op.isConditional then .conditional else .block⟩] where
  each w hw := by
    rw [List.mem_singleton] at hw
    subst hw
    exact ⟨rfl, hlt, (ht t).mpr rfl, by rw [hs]; rfl⟩
  covers t' ht' _ := ⟨_, List.mem_singleton_self _, ((ht t').mp ht').symm⟩
  count := by rw [hs]; rfl
  single _ := Nat.le_refl _

end

/-- One region at most keeps the single ones in order. -/
theorem Opens.ordered {instrs : Array Instruction} {i : Instruction} {m n : Nat} {ws : List Region}
    (h : Opens instrs i m n ws) :
    (ws.filter fun r => r.shape.isSingle).Pairwise fun a b => a.start < b.start := by
  cases hs : i.op.isSwitch with
  | true =>
    rw [List.filter_eq_nil_iff.mpr fun w hm => by rw [h.isSingle hm, hs]; decide]
    exact .nil
  | false =>
    have hl := (List.length_filter_le (fun r => r.shape.isSingle) ws).trans (h.single hs)
    generalize ws.filter (fun r => r.shape.isSingle) = l at hl
    rcases l with _ | ⟨w, _ | ⟨w', l⟩⟩
    · exact .nil
    · exact List.pairwise_singleton _ _
    · simp at hl

theorem Opens.countP_wrappers {instrs : Array Instruction} {i : Instruction} {m n : Nat}
    {ws : List Region} (h : Opens instrs i m n ws) : (ws.countP fun r => r.shape.isWrapper) =
      if i.op.isSwitch then i.op.branches.length else 0 := by
  cases hs : i.op.isSwitch with
  | true =>
    rw [List.countP_eq_length.mpr fun w hm => by rw [h.isWrapper hm, hs]]
    simpa [hs] using h.count
  | false =>
    rw [List.countP_eq_zero.mpr fun w hm => by rw [h.isWrapper hm, hs]; decide]
    rfl

theorem ForwardUpto.append {instrs : Array Instruction} {m n : Nat} {fs ws : List Region}
    {i : Instruction} (h : ForwardUpto instrs m fs) (hi : instrs[m]? = some i)
    (hw : Opens instrs i m n ws) : ForwardUpto instrs (m + 1) (fs ++ ws) where
  bounds r hr := by
    rcases List.mem_append.mp hr with hr | hr
    · have := h.bounds r hr
      exact ⟨by omega, this.2⟩
    · obtain ⟨h1, h2, ⟨j, -, d, -, hd⟩, h4⟩ := hw.each r hr
      refine ⟨by omega, by omega, hd.lt_size.le, ?_⟩
      rw [h4]
      split
      · exact fun hc => by cases hc
      · split <;> exact fun hc => by cases hc
  guards r hr hc := by
    rcases List.mem_append.mp hr with hr | hr
    · exact h.guards r hr hc
    · obtain ⟨h1, h2, h3, h4⟩ := hw.each r hr
      rw [h1]
      refine ⟨h3, i, hi, ?_⟩
      by_contra hcond
      rw [hc, if_neg hcond] at h4
      split at h4 <;> cases h4
  ordered := by
    rw [List.filter_append, List.pairwise_append]
    refine ⟨h.ordered, hw.ordered, fun a ha b hb => ?_⟩
    have h1 := (h.bounds a (List.mem_of_mem_filter ha)).1
    have h2 := (hw.each b (List.mem_of_mem_filter hb)).1
    omega
  jumps r hr hs := by
    rcases List.mem_append.mp hr with hr | hr
    · exact h.jumps r hr hs
    · obtain ⟨h1, h2, h3, -⟩ := hw.each r hr
      rw [hw.isSingle hr] at hs
      rw [h1]
      exact ⟨⟨i, hi, by simpa using hs⟩, r.stop, h2, h3⟩
  covers k hk t hkt hlt := by
    rcases Nat.lt_succ_iff_lt_or_eq.mp hk with hk | rfl
    · obtain ⟨r, hr, h1, h2, h3⟩ := h.covers k hk t hkt hlt
      exact ⟨r, List.mem_append_left _ hr, h1, h2, h3⟩
    · obtain ⟨w, hm, hstop⟩ := hw.covers t hkt hlt
      refine ⟨w, List.mem_append_right _ hm, (hw.each w hm).1, hstop, fun j hj hs => ?_⟩
      rw [hi] at hj
      cases hj
      rw [hw.isSingle hm, hs]
      rfl
  wrappers := by
    have hm : m < instrs.toList.length := by
      simpa using (Array.getElem?_eq_some_iff.mp hi).1
    have hget : instrs.toList[m] = i := by
      simpa using (Array.getElem?_eq_some_iff.mp hi).2
    rw [List.countP_append, h.wrappers, hw.countP_wrappers, List.take_add_one,
      List.getElem?_eq_getElem hm, hget, List.map_append, List.sum_append]
    simp

/-- What the first `m` instructions have given rise to. -/
structure Upto (instrs : Array Instruction) (m : Nat) (c : Collected) : Prop where
  lands : Lands instrs m
  forward : ForwardUpto instrs m c.forward.toList
  loops : LoopsUpto instrs m c.loops
  few : c.forward.size + c.loops.length ≤ targetsOf (instrs.toList.take m)

theorem Adds.lands {instrs : Array Instruction} {i : Instruction} {k : Nat} {c c' : Collected}
    (h : Adds instrs i k c c') {d : Int32} (hd : d ∈ i.op.branches) :
    ∃ t, StartsAt instrs t (i.absolute d) ∧ (i.op.isSwitch = true → k < t) := by
  cases h with
  | nothing hb => rw [hb] at hd; cases hd
  | wrappers ws _ hws =>
    obtain ⟨w, -, hw, hlt, -⟩ := mem_right_of_forall₂ hws hd
    exact ⟨_, hw, fun _ => hlt⟩
  | back d' t hs hb ht | single d' t hs hb ht =>
    rw [hb, List.mem_singleton] at hd
    refine ⟨t, hd ▸ ht, fun hs' => ?_⟩
    rw [hs] at hs'
    cases hs'

theorem Adds.few {instrs : Array Instruction} {i : Instruction} {k : Nat} {c c' : Collected}
    (h : Adds instrs i k c c') : c'.forward.size + c'.loops.length ≤
      c.forward.size + c.loops.length + i.op.branches.length := by
  cases h with
  | nothing => omega
  | wrappers ws _ hws =>
    have := hws.length_eq
    simp only [Array.size_append, List.size_toArray]
    omega
  | back d t _ hb =>
    have := length_addLoop_le t k c.loops
    rw [hb, List.length_singleton]
    dsimp only
    omega
  | single d t _ hb =>
    rw [hb, List.length_singleton, Array.size_push]
    dsimp only
    omega

theorem Upto.step {instrs : Array Instruction} (hasc : Ascending instrs) {m : Nat}
    {c c' : Collected} {i : Instruction} (h : Upto instrs m c) (hi : instrs[m]? = some i)
    (ha : Adds instrs i m c c') : Upto instrs (m + 1) c' := by
  have hlands : Lands instrs (m + 1) := by
    intro k hk j hj d hd
    rcases Nat.lt_succ_iff_lt_or_eq.mp hk with hk | rfl
    · exact h.lands k hk j hj d hd
    · rw [hi] at hj
      cases hj
      exact ha.lands hd
  have hfew : c'.forward.size + c'.loops.length ≤ targetsOf (instrs.toList.take (m + 1)) := by
    have := h.few
    have := ha.few
    rw [List.take_add_one, Array.getElem?_toList, hi, targetsOf, List.map_append, List.sum_append,
      ← targetsOf]
    simp only [Option.toList_some, List.map_singleton, List.sum_singleton]
    omega
  cases ha with
  | nothing hb =>
    have hno (t : Nat) : ¬ LeadsTo instrs m t := by
      rw [leadsTo_iff hi, hb]
      simp
    have hopens := opens_nil c.switches (fun _ => hb) fun t ht => (hno t ht).elim
    have hforward := h.forward.append hi hopens
    rw [List.append_nil] at hforward
    exact ⟨hlands, hforward, h.loops.skip fun t ht => (hno t ht).elim, hfew⟩
  | wrappers ws hs hws =>
    have hopens := opens_wrappers c.switches hasc hi hs hws
    refine ⟨hlands, ?_, h.loops.skip fun t ht => ?_, hfew⟩
    · rw [Array.toList_append]
      exact h.forward.append hi hopens
    · obtain ⟨d, hd, hst⟩ := (leadsTo_iff hi).mp ht
      obtain ⟨w, -, hst', hlt, -⟩ := mem_right_of_forall₂ hws hd
      exact hst'.unique hasc hst ▸ hlt
  | back d t hs hb hst hle =>
    have honly := leadsTo_single hasc hi hb hst
    have hopens := opens_nil c.switches (fun hs' => absurd (hs.symm.trans hs') nofun) fun t' ht' =>
      (honly t').mp ht' ▸ hle
    have hforward := h.forward.append hi hopens
    rw [List.append_nil] at hforward
    exact ⟨hlands, hforward, h.loops.add ((honly t).mpr rfl) hle fun t' => (honly t').mp, hfew⟩
  | single d t hs hb hst hlt =>
    have honly := leadsTo_single hasc hi hb hst
    refine ⟨hlands, ?_, h.loops.skip fun t' ht' => (honly t').mp ht' ▸ hlt, hfew⟩
    rw [Array.toList_push]
    exact h.forward.append hi (opens_single c.switches hs hlt honly)

/-- A run over the instructions `l` that follow the first `m` knows all of them. -/
theorem Upto.run {instrs : Array Instruction} (hasc : Ascending instrs) {l : List Instruction}
    (pre : List Instruction) (hl : instrs.toList = pre ++ l) {c c' : Collected}
    (h : Upto instrs pre.length c)
    (hr : (l.zipIdx pre.length).foldlM (collectAt instrs (.ofInstructions instrs)) c = .ok c') :
    Upto instrs instrs.size c' := by
  induction l generalizing pre c with
  | nil =>
    cases hr
    rwa [← Array.length_toList, hl, List.append_nil]
  | cons i l ih =>
    rw [List.zipIdx_cons, List.foldlM_cons] at hr
    obtain ⟨c₁, hc, hr⟩ := bind_eq_ok.mp hr
    have hi : instrs[pre.length]? = some i := by
      rw [← Array.getElem?_toList, hl]
      simp
    refine ih (pre ++ [i]) (by rw [hl, List.append_assoc]; rfl) (c := c₁) ?_ ?_
    · rw [List.length_append]
      exact h.step hasc hi (adds_of_collectAt hasc hc)
    · rw [List.length_append]
      exact hr

theorem upto_zero (instrs : Array Instruction) : Upto instrs 0 {} where
  lands k hk := absurd hk (Nat.not_lt_zero k)
  forward := by
    refine ⟨?_, ?_, .nil, ?_, fun k hk => absurd hk (Nat.not_lt_zero k), by simp⟩ <;>
      intro r hr <;> cases hr
  loops := by
    refine ⟨.nil, ?_, fun k hk => absurd hk (Nat.not_lt_zero k)⟩
    intro r hr
    cases hr
  few := Nat.zero_le _

/-- The loops of a whole method are as many as the positions that branches go back to. -/
theorem LoopsUpto.ncard {instrs : Array Instruction} {ls : List (Nat × Nat)}
    (h : LoopsUpto instrs instrs.size ls) : ls.length = (loopHeads instrs).ncard := by
  have hset : loopHeads instrs = ((ls.map Prod.fst).toFinset : Set Nat) := by
    ext t
    rw [Finset.mem_coe, List.mem_toFinset, List.mem_map]
    constructor
    · rintro ⟨k, hle, hk⟩
      obtain ⟨i, hi, -⟩ := id hk
      obtain ⟨l, hl, -⟩ := h.covers k (Array.getElem?_eq_some_iff.mp hi).1 t hk hle
      exact ⟨_, hl, rfl⟩
    · rintro ⟨p, hp, rfl⟩
      exact (h.heads p hp).2.2
  have hnodup : (ls.map Prod.fst).Nodup := by
    rw [List.Nodup, List.pairwise_map]
    exact h.sorted.imp fun hlt => Nat.ne_of_lt hlt
  rw [hset, Set.ncard_coe_finset, List.toFinset_card_of_nodup hnodup, List.length_map]

/-- The single jumps of a whole method open as many regions. -/
theorem ForwardUpto.ncard {instrs : Array Instruction} {fs : List Region}
    (h : ForwardUpto instrs instrs.size fs) :
    (fs.countP fun r => r.shape.isSingle) = (forwardJumps instrs).ncard := by
  have hset : forwardJumps instrs =
      (((fs.filter fun r => r.shape.isSingle).map Region.start).toFinset : Set Nat) := by
    ext k
    rw [Finset.mem_coe, List.mem_toFinset, List.mem_map]
    constructor
    · rintro ⟨⟨i, hi, hs⟩, t, hlt, hk⟩
      obtain ⟨r, hr, h1, -, h3⟩ := h.covers k (Array.getElem?_eq_some_iff.mp hi).1 t hk hlt
      exact ⟨r, List.mem_filter.mpr ⟨hr, h3 i hi hs⟩, h1⟩
    · rintro ⟨r, hr, rfl⟩
      rw [List.mem_filter] at hr
      exact h.jumps r hr.1 hr.2
  have hnodup : ((fs.filter fun r => r.shape.isSingle).map Region.start).Nodup := by
    rw [List.Nodup, List.pairwise_map]
    exact h.ordered.imp fun hlt => Nat.ne_of_lt hlt
  rw [hset, Set.ncard_coe_finset, List.toFinset_card_of_nodup hnodup, List.length_map,
    List.countP_eq_length_filter]

/-- Conditional regions are single, so no two of them start together. -/
theorem ForwardUpto.apart {instrs : Array Instruction} {m : Nat} {fs : List Region}
    (h : ForwardUpto instrs m fs) :
    fs.Pairwise fun a b => a.shape = .conditional → b.shape = .conditional → a.start ≠ b.start := by
  have := List.pairwise_filter.mp h.ordered
  refine this.imp fun hab ha hb => Nat.ne_of_lt (hab ?_ ?_)
  · rw [ha]; rfl
  · rw [hb]; rfl

theorem Upto.found {instrs : Array Instruction} {c : Collected} (h : Upto instrs instrs.size c)
    (hs : Shared (c.forward.toList ++ c.loops.map fun (s, l) => ⟨s, l + 1, .loop⟩)) :
    Found instrs (c.forward.toList ++ c.loops.map fun (s, l) => ⟨s, l + 1, .loop⟩) := by
  have hloop {r : Region} (hr : r ∈ c.loops.map fun (s, l) => (⟨s, l + 1, .loop⟩ : Region)) :
      r.shape = .loop ∧ r.start < r.stop ∧ r.stop ≤ instrs.size := by
    obtain ⟨p, hp, rfl⟩ := List.mem_map.mp hr
    have := h.loops.heads p hp
    exact ⟨rfl, by dsimp only; omega, by dsimp only; omega⟩
  have hcount (p : Shape → Bool) : ((c.loops.map fun (s, l) => (⟨s, l + 1, .loop⟩ : Region)).countP
      fun r => p r.shape) = if p .loop then c.loops.length else 0 := by
    rw [List.countP_map]
    split
    · next hp => exact List.countP_eq_length.mpr fun x _ => hp
    · next hp => exact List.countP_eq_zero.mpr fun x _ => hp
  constructor
  case lands => exact h.lands
  case bounds =>
    intro r hr
    rcases List.mem_append.mp hr with hr | hr
    · exact ⟨(h.forward.bounds r hr).2.1, (h.forward.bounds r hr).2.2.1⟩
    · exact (hloop hr).2
  case guards =>
    intro r hr hc
    rcases List.mem_append.mp hr with hr | hr
    · exact h.forward.guards r hr hc
    · rw [(hloop hr).1] at hc
      cases hc
  case apart =>
    refine List.pairwise_append.mpr ⟨h.forward.apart, ?_, fun a _ b hb _ hc => ?_⟩
    · refine List.pairwise_of_forall_mem_list fun a ha b _ hc => ?_
      rw [(hloop ha).1] at hc
      cases hc
    · rw [(hloop hb).1] at hc
      cases hc
  case shared => exact hs
  case forward =>
    intro k t hkt hlt
    obtain ⟨i, hi, -⟩ := id hkt
    obtain ⟨r, hr, h1, h2, -⟩ :=
      h.forward.covers k (Array.getElem?_eq_some_iff.mp hi).1 t hkt hlt
    exact ⟨r, List.mem_append_left _ hr, h1.le, h2, (h.forward.bounds r hr).2.2.2⟩
  case backward =>
    intro k t hkt hle
    obtain ⟨i, hi, -⟩ := id hkt
    obtain ⟨l, hl, hkl⟩ := h.loops.covers k (Array.getElem?_eq_some_iff.mp hi).1 t hkt hle
    refine ⟨⟨t, l + 1, .loop⟩, List.mem_append_right _ (List.mem_map.mpr ⟨_, hl, rfl⟩), rfl, rfl, ?_⟩
    dsimp only
    omega
  case wrappers =>
    rw [List.countP_append, hcount, h.forward.wrappers, ← Array.length_toList, List.take_length]
    rfl
  case loops =>
    rw [List.countP_append, hcount, List.countP_eq_zero.mpr, Nat.zero_add]
    · exact h.loops.ncard
    · intro r hr hl
      have := (h.forward.bounds r hr).2.2.2
      cases hs : r.shape <;> simp_all [Shape.isLoop]
  case singles =>
    rw [List.countP_append, hcount, h.forward.ncard]
    rfl
  case few =>
    have hfew := h.few
    rw [List.take_of_length_le (by simp)] at hfew
    rw [List.length_append, List.length_map, Array.length_toList]
    exact hfew

theorem found_of_collect {instrs : Array Instruction} (hasc : Ascending instrs)
    {rs : Array Region} (h : collect instrs = .ok rs) : Found instrs rs.toList := by
  have hs := shared_of_collect h
  obtain ⟨c, hc, h⟩ := bind_eq_ok.mp h
  cases h
  have := (upto_zero instrs).run hasc [] rfl hc
  rw [Array.toList_append] at hs ⊢
  exact this.found hs

end Region

end ClassWasm
