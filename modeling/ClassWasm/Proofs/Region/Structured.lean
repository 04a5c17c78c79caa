/-
  Branches in a tree. `Structured instrs ms a b ns` follows the nodes `ns` from position `a` to `b`
  and says of each instruction that the marks around it, `ms` among them, serve all its branches:
  a branch forward leaves a block, a branch back restarts a loop. It is what everything that walks
  or translates a tree needs of it.
-/
import ClassWasm.Proofs.Region.Tree

namespace ClassWasm

/-- Where a branch can go from inside a loop or a block. -/
inductive Mark where
  | restart (start : Nat)
  | leave (stop : Nat)
deriving DecidableEq

/-- The marks `ms` serve a branch from `k` to `t`. -/
def Served (ms : List Mark) (k t : Nat) : Prop :=
  if k < t then .leave t ∈ ms else .restart t ∈ ms

theorem Served.mono {ms ms' : List Mark} {k t : Nat} (h : Served ms k t) (hs : ms ⊆ ms') :
    Served ms' k t := by
  unfold Served at h ⊢
  split
  · next hlt =>
    rw [if_pos hlt] at h
    exact hs h
  · next hlt =>
    rw [if_neg hlt] at h
    exact hs h

/-- The position that a node starts at. -/
def Node.start : Node → Nat
  | op k => k
  | loop start _ _ => start
  | block start _ _ _ => start

/-- The nodes `ns` go from position `a` to `b`, and every branch in them is served by a loop or
block around it or by `ms`. -/
inductive Structured (instrs : Array Instruction) : List Mark → (a b : Nat) → List Node → Prop
  | nil {ms : List Mark} (a : Nat) : Structured instrs ms a a []
  | op {ms : List Mark} {a b : Nat} {ns : List Node} :
    (∀ t, LeadsTo instrs a t → Served ms a t) → Structured instrs ms (a + 1) b ns →
    Structured instrs ms a b (.op a :: ns)
  | loop {ms : List Mark} {a e b : Nat} {body ns : List Node} : a < e →
    Structured instrs (.restart a :: ms) a e body → Structured instrs ms e b ns →
    Structured instrs ms a b (.loop a e body :: ns)
  | block {ms : List Mark} {a e b : Nat} {kind : BlockKind} {body ns : List Node} :
    kind ≠ .conditional → a < e → Structured instrs (.leave e :: ms) a e body →
    Structured instrs ms e b ns → Structured instrs ms a b (.block a e kind body :: ns)
  | guarded {ms : List Mark} {a e b : Nat} {body ns : List Node} : Guards instrs a e → a < e →
    Structured instrs (.leave e :: ms) (a + 1) e body → Structured instrs ms e b ns →
    Structured instrs ms a b (.block a e .conditional body :: ns)

theorem Structured.tail {instrs : Array Instruction} {ms : List Mark} {a b : Nat} {n : Node}
    {ns : List Node} (h : Structured instrs ms a b (n :: ns)) :
    n.start = a ∧ ∃ e, Structured instrs ms e b ns := by
  cases h with
  | op _ h => exact ⟨rfl, _, h⟩
  | loop _ _ h => exact ⟨rfl, _, h⟩
  | block _ _ _ h => exact ⟨rfl, _, h⟩
  | guarded _ _ _ h => exact ⟨rfl, _, h⟩

theorem Structured.le {instrs : Array Instruction} {ms : List Mark} {a b : Nat} {ns : List Node}
    (h : Structured instrs ms a b ns) : a ≤ b := by
  induction h <;> omega

theorem Structured.lt {instrs : Array Instruction} {ms : List Mark} {a b : Nat} {n : Node}
    {ns : List Node} (h : Structured instrs ms a b (n :: ns)) : a < b := by
  cases h with
  | op _ h => exact h.le
  | loop hlt _ h | block _ hlt _ h | guarded _ hlt _ h => exact hlt.trans_le h.le

namespace Region

/-- A branch from `k` to `t` stands in the region and goes to where its mark does. -/
def Serves (r : Region) (k t : Nat) : Prop :=
  r.start ≤ k ∧ k < r.stop ∧
    if k < t then r.shape ≠ .loop ∧ r.stop = t else r.shape = .loop ∧ r.start = t

theorem Found.serves {instrs : Array Instruction} {rs : List Region} (h : Found instrs rs)
    {k t : Nat} (hk : LeadsTo instrs k t) : ∃ r ∈ rs, r.Serves k t := by
  by_cases hlt : k < t
  · obtain ⟨r, hr, hstart, hstop, hshape⟩ := h.forward k t hk hlt
    refine ⟨r, hr, hstart, hstop ▸ hlt, ?_⟩
    rw [if_pos hlt]
    exact ⟨hshape, hstop⟩
  · obtain ⟨r, hr, hshape, hstart, hstop⟩ := h.backward k t hk (by omega)
    refine ⟨r, hr, by omega, hstop, ?_⟩
    rw [if_neg hlt]
    exact ⟨hshape, hstart⟩

/-- A loop can be started again from inside; everything else can be left. -/
def mark (r : Region) : Mark :=
  match r.shape with
  | .loop => .restart r.start
  | _ => .leave r.stop

theorem mark_loop {r : Region} (h : r.shape = .loop) : r.mark = .restart r.start := by
  unfold mark
  rw [h]

theorem mark_of_ne_loop {r : Region} (h : r.shape ≠ .loop) : r.mark = .leave r.stop := by
  unfold mark
  split
  · next hloop => exact absurd hloop h
  · rfl

theorem Serves.served {r : Region} {k t : Nat} (h : r.Serves k t) (ms : List Mark) :
    Served (r.mark :: ms) k t := by
  obtain ⟨-, -, h⟩ := h
  unfold Served
  split at h
  · next hlt =>
    rw [if_pos hlt, mark_of_ne_loop h.1, h.2]
    exact List.mem_cons_self
  · next hlt =>
    rw [if_neg hlt, mark_loop h.1, h.2]
    exact List.mem_cons_self

end Region

/-- The node of a region in front of others. -/
theorem Structured.region {instrs : Array Instruction} {ms : List Mark} {b : Nat} {r : Region}
    {body ns : List Node} (hlt : r.start < r.stop)
    (hguards : r.shape = .conditional → Guards instrs r.start r.stop)
    (hbody : Structured instrs (r.mark :: ms) r.bodyStart r.stop body)
    (hrest : Structured instrs ms r.stop b ns) :
    Structured instrs ms r.start b (Node.ofRegion r body :: ns) := by
  obtain ⟨start, stop, shape⟩ := r
  cases shape with
  | loop => exact .loop hlt hbody hrest
  | block | wrapper => exact .block (by decide) hlt hbody hrest
  | conditional => exact .guarded (hguards rfl) hlt hbody hrest

namespace Node

theorem Spans.bounds {a b : Nat} {rs : List Region} {ns : List Node} (h : Spans a b rs ns)
    {r : Region} (hr : r ∈ rs) : a ≤ r.start ∧ r.stop ≤ b := by
  induction h with
  | nil => cases hr
  | op _ ih =>
    have := ih hr
    omega
  | @region b r₀ rs rs' body ns hbody hns ih ih' =>
    have := r₀.start_le_bodyStart
    have := hbody.le
    have := hns.le
    rcases List.mem_append.mp hr with hr | hr
    · rcases List.mem_cons.mp hr with rfl | hr
      · omega
      · have := ih hr
        omega
    · have := ih' hr
      omega

theorem Spans.structured {instrs : Array Instruction} {a b : Nat} {rs : List Region}
    {ns : List Node} (h : Spans a b rs ns) {ms : List Mark}
    (hb : ∀ r ∈ rs, r.start < r.stop ∧ (r.shape = .conditional → Guards instrs r.start r.stop))
    (hs : ∀ k, a ≤ k → k < b → ∀ t, LeadsTo instrs k t →
      Served ms k t ∨ ∃ r ∈ rs, r.Serves k t) :
    Structured instrs ms a b ns := by
  induction h generalizing ms with
  | nil a => exact .nil a
  | @op a b rs ns h ih =>
    have hle := h.le
    refine .op (fun t ht => ?_) (ih hb fun k hk => hs k (by omega))
    -- A region inside starts behind `a`, so only a mark can serve it.
    rcases hs a (Nat.le_refl a) (by omega) t ht with hserved | ⟨r, hr, hstart, -⟩
    · exact hserved
    · have := (h.bounds hr).1
      omega
  | @region b r rs rs' body ns hbody hns ih ih' =>
    obtain ⟨hlt, hguards⟩ := hb r List.mem_cons_self
    have hstart := r.start_le_bodyStart
    have hle := hbody.le
    have hle' := hns.le
    refine .region hlt hguards ?_ ?_
    · refine ih (fun r' hr' => hb r' (List.mem_append_left _ (List.mem_cons_of_mem _ hr')))
        fun k hk hk' t ht => ?_
      rcases hs k (by omega) (by omega) t ht with h | ⟨r', hr', hserves⟩
      · exact .inl (h.mono (List.subset_cons_self _ _))
      · rcases List.mem_append.mp hr' with hr' | hr'
        · rcases List.mem_cons.mp hr' with rfl | hr'
          · exact .inl (hserves.served ms)
          · exact .inr ⟨r', hr', hserves⟩
        · have := (hns.bounds hr').1
          have := hserves.1
          omega
    · refine ih' (fun r' hr' => hb r' (List.mem_append_right _ hr')) fun k hk hk' t ht => ?_
      rcases hs k (by omega) hk' t ht with h | ⟨r', hr', hserves⟩
      · exact .inl h
      · rcases List.mem_append.mp hr' with hr' | hr'
        · have hstop : r'.stop ≤ r.stop := by
            rcases List.mem_cons.mp hr' with rfl | hr'
            · exact Nat.le_refl _
            · exact (hbody.bounds hr').2
          have := hserves.2.1
          omega
        · exact .inr ⟨r', hr', hserves⟩

end Node

theorem structureOf_structured {instrs : Array Instruction} (hasc : Ascending instrs)
    {tree : List Node} (h : structureOf instrs = .ok tree) :
    Structured instrs [] 0 instrs.size tree ∧ Lands instrs instrs.size := by
  obtain ⟨rs, hfound, hspans⟩ := structureOf_spans hasc h
  refine ⟨hspans.structured (fun r hr => ⟨(hfound.bounds r hr).1, hfound.guards r hr⟩) ?_,
    hfound.lands⟩
  exact fun k _ _ t ht => .inr (hfound.serves ht)

end ClassWasm
