/-
  How far regions are widened. New starts for the regions are `Admissible` if none is later than
  before, loops stay, the wrappers of one switch stay together and nothing crosses. Of two regions
  that cross, every admissible choice starts the later-ending one no later than the other, so that
  a repair takes no choice away (`lowers_widen`) and one that fails had none (`repairPair_fails`).
  By induction over the passes the regions end up at the greatest admissible starts, or there are
  none: `repair_least_widening`.
-/
import ClassWasm.Proofs.Region.Nesting

namespace ClassWasm

namespace Region

/-! ## Admissible starts -/

/-- New starts by position for the regions `rs`. -/
structure Admissible (rs : List Region) (new : Nat → Int) : Prop where
  le : ∀ i r, rs[i]? = some r → new i ≤ r.start
  loop : ∀ i r, rs[i]? = some r → r.shape = .loop → new i = r.start
  shared : ∀ i j a b o, rs[i]? = some a → rs[j]? = some b → a.shape = .wrapper o →
    b.shape = .wrapper o → new i = new j
  apart : ∀ i j a b, rs[i]? = some a → rs[j]? = some b →
    ¬(new i < new j ∧ new j < a.stop ∧ a.stop < b.stop)

/-- The later-ending one of two regions that cross has to start where the other does, or before. -/
theorem Admissible.le_of_crosses {rs : List Region} {new : Nat → Int} (h : Admissible rs new)
    {i j : Nat} {a b : Region} (ha : rs[i]? = some a) (hb : rs[j]? = some b)
    (hc : crosses a b = true) : new j ≤ a.start := by
  simp only [crosses, Bool.and_eq_true, decide_eq_true_eq] at hc
  have hi := h.le i a ha
  have hj := h.le j b hb
  have hij := h.apart i j a b ha hb
  omega

theorem Shifted.before {rs rs' : List Region} (h : Shifted rs rs') {i : Nat} {r' : Region}
    (hr : rs'[i]? = some r') : ∃ r, rs[i]? = some r ∧ Shifts r r' :=
  getElem?_of_forall₂ (R := fun r' r => Shifts r r') h.flip hr

theorem Shifted.after {rs rs' : List Region} (h : Shifted rs rs') {i : Nat} {r : Region}
    (hr : rs[i]? = some r) : ∃ r', rs'[i]? = some r' ∧ Shifts r r' :=
  getElem?_of_forall₂ h hr

/-- Starts that are admissible after a shift were so before. -/
theorem Admissible.of_shifted {rs rs' : List Region} {new : Nat → Int} (h : Admissible rs' new)
    (hs : Shifted rs rs') : Admissible rs new where
  le i r hr := by
    obtain ⟨r', hr', hsr⟩ := hs.after hr
    have := h.le i r' hr'
    have := hsr.start
    omega
  loop i r hr hl := by
    obtain ⟨r', hr', hsr⟩ := hs.after hr
    rw [h.loop i r' hr' (hsr.loop_iff.mpr hl), hsr.loop hl]
  shared i j a b o ha hb hao hbo := by
    obtain ⟨a', ha', hsa⟩ := hs.after ha
    obtain ⟨b', hb', hsb⟩ := hs.after hb
    exact h.shared i j a' b' o ha' hb' (hsa.wrapper_iff.mpr hao) (hsb.wrapper_iff.mpr hbo)
  apart i j a b ha hb := by
    obtain ⟨a', ha', hsa⟩ := hs.after ha
    obtain ⟨b', hb', hsb⟩ := hs.after hb
    rw [← hsa.stop, ← hsb.stop]
    exact h.apart i j a' b' ha' hb'

/-- Admissible starts stay so after a shift that leaves no region before its new start. -/
theorem Admissible.shifted {rs rs' : List Region} {new : Nat → Int} (h : Admissible rs new)
    (hs : Shifted rs rs') (hle : ∀ i r', rs'[i]? = some r' → new i ≤ r'.start) :
    Admissible rs' new where
  le := hle
  loop i r' hr' hl := by
    obtain ⟨r, hr, hsr⟩ := hs.before hr'
    have hl := hsr.loop_iff.mp hl
    rw [h.loop i r hr hl, hsr.loop hl]
  shared i j a' b' o ha' hb' hao hbo := by
    obtain ⟨a, ha, hsa⟩ := hs.before ha'
    obtain ⟨b, hb, hsb⟩ := hs.before hb'
    exact h.shared i j a b o ha hb (hsa.wrapper_iff.mp hao) (hsb.wrapper_iff.mp hbo)
  apart i j a' b' ha' hb' := by
    obtain ⟨a, ha, hsa⟩ := hs.before ha'
    obtain ⟨b, hb, hsb⟩ := hs.before hb'
    rw [hsa.stop, hsb.stop]
    exact h.apart i j a b ha hb

/-- The start of the region at each position. -/
def startAt (rs : List Region) (i : Nat) : Int := ((rs[i]?).map fun r => (r.start : Int)).getD 0

theorem startAt_of_getElem? {rs : List Region} {i : Nat} {r : Region} (hr : rs[i]? = some r) :
    startAt rs i = r.start := by
  rw [startAt, hr]
  rfl

/-- Regions that lie apart are where they may be. -/
theorem admissible_startAt {rs : List Region} (hs : Shared rs) (ha : Apart rs) :
    Admissible rs (startAt rs) := by
  refine ⟨fun i r hr => (startAt_of_getElem? hr).le, fun i r hr _ => startAt_of_getElem? hr, ?_, ?_⟩
  · intro i j a b o hi hj hao hbo
    have hstart := hs a (List.mem_of_getElem? hi) b (List.mem_of_getElem? hj) o hao hbo
    rw [startAt_of_getElem? hi, startAt_of_getElem? hj, hstart]
  · intro i j a b hi hj hcross
    have hno := ha a (List.mem_of_getElem? hi) b (List.mem_of_getElem? hj)
    rw [startAt_of_getElem? hi, startAt_of_getElem? hj] at hcross
    simp only [crosses, Bool.and_eq_false_iff, decide_eq_false_iff_not] at hno
    omega

/-! ## Repairs -/

/-- What repairs do: shift regions, without taking away a choice of admissible starts. -/
structure Lowers (rs rs' : List Region) : Prop where
  shifted : Shifted rs rs'
  admissible : ∀ new, Admissible rs new → Admissible rs' new

theorem Lowers.refl (rs : List Region) : Lowers rs rs := ⟨.refl rs, fun _ h => h⟩

theorem Lowers.trans {rs rs' rs'' : List Region} (h : Lowers rs rs') (h' : Lowers rs' rs'') :
    Lowers rs rs'' :=
  ⟨h.shifted.trans h'.shifted, fun new hnew => h'.admissible new (h.admissible new hnew)⟩

theorem lowers_widen {rs : Array Region} {i j : Nat} {a b : Region} (hs : Shared rs.toList)
    (ha : rs[i]? = some a) (hb : rs[j]? = some b) (hc : crosses a b = true)
    (hl : b.shape ≠ .loop) : Lowers rs.toList (widen rs j a.start).toList := by
  have hcross := hc
  simp only [crosses, Bool.and_eq_true, decide_eq_true_eq] at hcross
  have hm := moved_widen hb hl hcross.1.1 hs
  refine ⟨hm.shifted, fun new hnew => hnew.shifted hm.shifted fun k r' hr' => ?_⟩
  rw [← Array.getElem?_toList] at ha hb
  have hj := hnew.le_of_crosses ha hb hc
  rcases hm.only k r' hr' with hr | ⟨hstart, r, hr, hk⟩
  · exact hnew.le k r' hr
  · rw [hstart]
    -- Region `j` itself, or a wrapper of its switch, which starts with it.
    rcases hk with rfl | ⟨o, hbo, hro⟩
    · exact hj
    · rwa [hnew.shared k j r b o hr hb hro hbo]

theorem repairPair_lowers {offset : Nat → Nat} {i j : Nat} {r r' : Repair}
    (hs : Shared r.regions.toList) (h : repairPair offset i r j = .ok r') :
    Lowers r.regions.toList r'.regions.toList := by
  unfold repairPair at h
  split at h
  · next a b ha hb =>
    split at h
    · next hc =>
      split at h
      · cases h
      · next hl =>
        cases h
        exact lowers_widen hs ha hb hc hl
    · cases h
      exact .refl _
  · cases h
    exact .refl _

/-- A repair that fails would have to move a loop, which no admissible choice does. -/
theorem repairPair_fails {offset : Nat → Nat} {i j : Nat} {r : Repair} {e : Error}
    (h : repairPair offset i r j = .error e) :
    e.causes = [.irreducible] ∧ ∀ new, ¬ Admissible r.regions.toList new := by
  unfold repairPair at h
  split at h
  · next a b ha hb =>
    split at h
    · next hc =>
      split at h
      · next hl =>
        cases h
        refine ⟨rfl, fun new hnew => ?_⟩
        rw [← Array.getElem?_toList] at ha hb
        have hj := hnew.le_of_crosses ha hb hc
        rw [hnew.loop j b hb hl] at hj
        simp only [crosses, Bool.and_eq_true, decide_eq_true_eq] at hc
        omega
      · cases h
    · cases h
  · cases h

/-- A row of repairs, or several rows, where each of them lowers regions. -/
theorem foldlM_lowers {α : Type} {f : Repair → α → Except Error Repair}
    (hf : ∀ r a r', Shared r.regions.toList → f r a = .ok r' →
      Shared r'.regions.toList ∧ Lowers r.regions.toList r'.regions.toList)
    {l : List α} {r r' : Repair} (hs : Shared r.regions.toList) (h : l.foldlM f r = .ok r') :
    Shared r'.regions.toList ∧ Lowers r.regions.toList r'.regions.toList :=
  foldlM_rel (P := fun r => Shared r.regions.toList)
    (R := fun r r' => Lowers r.regions.toList r'.regions.toList) (fun _ => .refl _)
    (fun _ _ _ => .trans) hf hs h

/-- Where one of them fails, nothing was admissible before the first one. -/
theorem foldlM_fails {α : Type} {f : Repair → α → Except Error Repair}
    (hf : ∀ r a r', Shared r.regions.toList → f r a = .ok r' →
      Shared r'.regions.toList ∧ Lowers r.regions.toList r'.regions.toList)
    (hfail : ∀ r a e, Shared r.regions.toList → f r a = .error e →
      e.causes = [.irreducible] ∧ ∀ new, ¬ Admissible r.regions.toList new)
    {l : List α} {r : Repair} {e : Error} (hs : Shared r.regions.toList)
    (h : l.foldlM f r = .error e) :
    e.causes = [.irreducible] ∧ ∀ new, ¬ Admissible r.regions.toList new := by
  obtain ⟨done, a, x, -, hx, ha⟩ := foldlM_eq_error h
  obtain ⟨hsx, hlowers⟩ := foldlM_lowers hf hs hx
  obtain ⟨he, hno⟩ := hfail x a e hsx ha
  exact ⟨he, fun new hnew => hno new (hlowers.admissible new hnew)⟩

section

variable {offset : Nat → Nat}

theorem repairRow_lowers {i : Nat} {js : List Nat} {r r' : Repair} (hs : Shared r.regions.toList)
    (h : js.foldlM (repairPair offset i) r = .ok r') :
    Shared r'.regions.toList ∧ Lowers r.regions.toList r'.regions.toList :=
  foldlM_lowers (fun _ _ _ hx hy => ⟨(repairPair_spec hx hy).1, repairPair_lowers hx hy⟩) hs h

theorem repairPass_lowers {rs : Array Region} {r : Repair} (hs : Shared rs.toList)
    (h : repairPass offset rs = .ok r) :
    Shared r.regions.toList ∧ Lowers rs.toList r.regions.toList :=
  foldlM_lowers (fun _ _ _ => repairRow_lowers) hs h

theorem repairPass_fails {rs : Array Region} {e : Error} (hs : Shared rs.toList)
    (h : repairPass offset rs = .error e) :
    e.causes = [.irreducible] ∧ ∀ new, ¬ Admissible rs.toList new :=
  foldlM_fails (r := ⟨rs, false⟩) (fun _ _ _ => repairRow_lowers)
    (fun _ _ _ => foldlM_fails
      (fun _ _ _ hx hy => ⟨(repairPair_spec hx hy).1, repairPair_lowers hx hy⟩)
      fun _ _ _ _ => repairPair_fails) hs h

/-! ## Passes until nothing changes -/

/-- Passes that go on as long as one changes something, and what they come to. -/
inductive Repairing (offset : Nat → Nat) : Array Region → Except Error (Array Region) → Prop
  | fails {rs : Array Region} {e : Error} : repairPass offset rs = .error e →
    Repairing offset rs (.error e)
  | done {rs : Array Region} {r : Repair} : repairPass offset rs = .ok r → r.changed = false →
    Repairing offset rs (.ok r.regions)
  | again {rs : Array Region} {r : Repair} {out : Except Error (Array Region)} :
    repairPass offset rs = .ok r → r.changed = true → Repairing offset r.regions out →
    Repairing offset rs out

/-- The passes come to an end before the fuel does. -/
theorem repairing_repairFrom {fuel : Nat} {rs : Array Region} (hs : Shared rs.toList)
    (hfuel : starts rs.toList < fuel) : Repairing offset rs (repairFrom offset fuel rs) := by
  induction fuel generalizing rs with
  | zero => omega
  | succ fuel ih =>
    unfold repairFrom
    cases hr : repairPass offset rs with
    | error e => exact .fails hr
    | ok r =>
      obtain ⟨hsr, hrep⟩ := repairPass_spec hs hr
      change Repairing offset rs (if r.changed then _ else _)
      split
      · next hc =>
        have hlt := hrep.lower rfl hc
        exact .again hr hc (ih hsr (by dsimp only at hlt; omega))
      · next hc => exact .done hr (by simpa using hc)

/-- The regions `out` are those of `rs` at the greatest admissible starts. -/
structure Widest (rs out : List Region) : Prop where
  shifted : Shifted rs out
  admissible : Admissible rs (startAt out)
  greatest : ∀ new, Admissible rs new → ∀ i r, out[i]? = some r → new i ≤ r.start

theorem widest_of_apart {rs : List Region} (hs : Shared rs) (ha : Apart rs) : Widest rs rs :=
  ⟨.refl rs, admissible_startAt hs ha, fun _ hnew i r hr => hnew.le i r hr⟩

/-- What is widest after a repair is so before it. -/
theorem Lowers.widest {rs rs' out : List Region} (h : Lowers rs rs') (hw : Widest rs' out) :
    Widest rs out where
  shifted := h.shifted.trans hw.shifted
  admissible := hw.admissible.of_shifted h.shifted
  greatest new hnew := hw.greatest new (h.admissible new hnew)

/-- What repairs of `rs` may come to. -/
def Outcome (rs : List Region) : Except Error (Array Region) → Prop
  | .ok out => Widest rs out.toList
  | .error e => e.causes = [.irreducible] ∧ ∀ new, ¬ Admissible rs new

theorem Lowers.outcome {rs rs' : List Region} (h : Lowers rs rs')
    {res : Except Error (Array Region)} (ho : Outcome rs' res) : Outcome rs res := by
  cases res with
  | ok out => exact h.widest ho
  | error e => exact ⟨ho.1, fun new hnew => ho.2 new (h.admissible new hnew)⟩

theorem Repairing.outcome {rs : Array Region} {res : Except Error (Array Region)}
    (h : Repairing offset rs res) (hs : Shared rs.toList) : Outcome rs.toList res := by
  induction h with
  | fails hr => exact repairPass_fails hs hr
  | done hr hc =>
    obtain ⟨hsr, hlowers⟩ := repairPass_lowers hs hr
    exact hlowers.outcome (widest_of_apart hsr (apart_of_repairPass hr hc))
  | again hr _ _ ih =>
    obtain ⟨hsr, hlowers⟩ := repairPass_lowers hs hr
    exact hlowers.outcome (ih hsr)

end

/-! ## Another order -/

/-- The same regions in another order. -/
def Relisted (place : Equiv.Perm Nat) (rs listed : List Region) : Prop :=
  ∀ i : Nat, listed[i]? = rs[place i]?

theorem Relisted.symm {place : Equiv.Perm Nat} {rs listed : List Region}
    (h : Relisted place rs listed) : Relisted place.symm listed rs := by
  intro i
  rw [h, Equiv.apply_symm_apply]

theorem Relisted.shared {place : Equiv.Perm Nat} {rs listed : List Region}
    (h : Relisted place rs listed) (hs : Shared rs) : Shared listed := by
  have hmem {r : Region} (hr : r ∈ listed) : r ∈ rs := by
    obtain ⟨i, hi⟩ := List.getElem?_of_mem hr
    exact List.mem_of_getElem? (h i ▸ hi)
  exact fun a ha b hb => hs a (hmem ha) b (hmem hb)

theorem Admissible.relisted {place : Equiv.Perm Nat} {rs listed : List Region} {new : Nat → Int}
    (h : Admissible rs new) (hl : Relisted place rs listed) :
    Admissible listed fun i => new (place i) where
  le i r hr := h.le (place i) r (hl i ▸ hr)
  loop i r hr := h.loop (place i) r (hl i ▸ hr)
  shared i j a b o ha hb := h.shared (place i) (place j) a b o (hl i ▸ ha) (hl j ▸ hb)
  apart i j a b ha hb := h.apart (place i) (place j) a b (hl i ▸ ha) (hl j ▸ hb)

theorem Shifts.eq_of_start {r a b : Region} (ha : Shifts r a) (hb : Shifts r b)
    (h : a.start = b.start) : a = b := by
  have hstop := ha.stop.trans hb.stop.symm
  have hshape := ha.shape
  rw [h, ← hb.shape] at hshape
  cases a
  cases b
  congr

/-- The greatest admissible start of a region is the same wherever in the list it stands. -/
theorem Widest.relisted {place : Equiv.Perm Nat} {rs listed out out' : List Region}
    (h : Widest rs out) (h' : Widest listed out') (hl : Relisted place rs listed) :
    Relisted place out out' := by
  intro i
  cases ha : out[place i]? with
  | none =>
    -- There is no region at this place, neither before nor after.
    rw [List.getElem?_eq_none_iff] at ha ⊢
    have hsize := hl i
    rw [List.getElem?_eq_none (h.shifted.length_eq.trans_le ha), List.getElem?_eq_none_iff] at hsize
    exact h'.shifted.length_eq.symm.trans_le hsize
  | some a =>
    obtain ⟨r, hr, hsa⟩ := h.shifted.before ha
    obtain ⟨b, hb, hsb⟩ := h'.shifted.after ((hl i).trans hr)
    have hle := h'.greatest _ (h.admissible.relisted hl) i b hb
    have hge := h.greatest _ (h'.admissible.relisted hl.symm) (place i) a ha
    rw [startAt_of_getElem? ha] at hle
    rw [Equiv.symm_apply_apply, startAt_of_getElem? hb] at hge
    rw [hb, hsa.eq_of_start hsb (by omega)]

/-! ## Least widening -/

/-- The offset of the instruction at a position, as errors show it. -/
def offsetAt (instrs : Array Instruction) (k : Nat) : Nat :=
  ((instrs[k]?).map Instruction.offset).getD 0

/-- Repairs come to an end, and widen regions no farther than they must; they fail only where no
widening is enough. -/
structure LeastWidening (instrs : Array Instruction) (rs : Array Region) : Prop where
  ends : Repairing (offsetAt instrs) rs (repair instrs rs)
  succeeds : (∃ out, repair instrs rs = .ok out) ↔ ∃ new, Admissible rs.toList new
  widest : ∀ out, repair instrs rs = .ok out → Widest rs.toList out.toList
  fails : ∀ e, repair instrs rs = .error e → e.causes = [.irreducible]

theorem repairing_repair (instrs : Array Instruction) {rs : Array Region}
    (hs : Shared rs.toList) : Repairing (offsetAt instrs) rs (repair instrs rs) := by
  refine repairing_repairFrom hs ?_
  rw [← Array.foldr_toList, Array.toList_map]
  exact Nat.lt_succ_of_le (Nat.le_of_eq (List.sum_eq_foldr ..))

theorem leastWidening (instrs : Array Instruction) {rs : Array Region} (hs : Shared rs.toList) :
    LeastWidening instrs rs := by
  have hends := repairing_repair instrs hs
  have hout := hends.outcome hs
  refine ⟨hends, ⟨?_, ?_⟩, ?_, ?_⟩
  · rintro ⟨out, hres⟩
    rw [hres] at hout
    exact ⟨_, hout.admissible⟩
  · rintro ⟨new, hnew⟩
    cases hres : repair instrs rs with
    | ok out => exact ⟨out, rfl⟩
    | error e =>
      rw [hres] at hout
      exact absurd hnew (hout.2 new)
  · intro out hres
    rw [hres] at hout
    exact hout
  · intro e hres
    rw [hres] at hout
    exact hout.1

/-- The regions of any code are widened as little as possible, in whatever order they are listed. -/
theorem repair_least_widening {instrs : Array Instruction} {rs : Array Region}
    (h : collect instrs = .ok rs) :
    LeastWidening instrs rs ∧ ∀ place listed, Relisted place rs.toList listed.toList →
      LeastWidening instrs listed ∧ ∀ out, repair instrs rs = .ok out →
        ∃ out', repair instrs listed = .ok out' ∧ Relisted place out.toList out'.toList := by
  have hs := shared_of_collect h
  have hleast := leastWidening instrs hs
  refine ⟨hleast, fun place listed hl => ?_⟩
  have hleast' := leastWidening instrs (hl.shared hs)
  refine ⟨hleast', fun out hout => ?_⟩
  have hwidest := hleast.widest out hout
  obtain ⟨out', hout'⟩ := hleast'.succeeds.mpr ⟨_, hwidest.admissible.relisted hl⟩
  exact ⟨out', hout', hwidest.relisted (hleast'.widest out' hout') hl⟩

/-- A block and the two wrappers of a switch that start inside a conditional block and end after
it. -/
def crossingInstrs : Array Instruction :=
  #[⟨0, 3, 0x99, false, .branch (.zero .eq) 24⟩, ⟨3, 3, 0x99, false, .branch (.zero .eq) 23⟩,
    ⟨6, 18, 0xaa, false, .tableSwitch 19 0 [21]⟩, ⟨24, 1, 0x00, false, .nop⟩,
    ⟨25, 1, 0x00, false, .nop⟩, ⟨26, 1, 0x00, false, .nop⟩, ⟨27, 1, 0xb1, false, .ret .void⟩]

def crossingRegions : Array Region :=
  #[⟨0, 3, .conditional⟩, ⟨1, 5, .conditional⟩, ⟨2, 4, .wrapper 0⟩, ⟨2, 6, .wrapper 0⟩]

def widenedRegions : Array Region :=
  #[⟨0, 3, .conditional⟩, ⟨0, 5, .block⟩, ⟨0, 4, .wrapper 0⟩, ⟨0, 6, .wrapper 0⟩]

theorem repair_least_widening_crossing :
    collect crossingInstrs = .ok crossingRegions ∧
      repair crossingInstrs crossingRegions = .ok widenedRegions ∧
      LeastWidening crossingInstrs crossingRegions := by
  have hc : collect crossingInstrs = .ok crossingRegions := ok_of_toOption (by decide +kernel)
  exact ⟨hc, ok_of_toOption (by decide +kernel), (repair_least_widening hc).1⟩

end Region

end ClassWasm
