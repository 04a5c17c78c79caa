/-
  Nesting of regions. A pass of repairs widens regions, and as long as it changes any the sum of
  their starts goes down; when it changes none, no two regions cross. So the passes come to an end
  within their fuel, and the regions of a method body lie inside or beside each other
  (`Nested`) and are still those that its code gives rise to (`Found`).
-/
import ClassWasm.Proofs.Region.Collection

namespace ClassWasm

namespace Region

/-! ## Moving one region -/

/-- `r'` is `r` or starts before it. Loops stay, and what is conditional stays so exactly when it
has not moved. -/
structure Shifts (r r' : Region) : Prop where
  stop : r'.stop = r.stop
  start : r'.start ≤ r.start
  loop : r.shape = .loop → r'.start = r.start
  shape : r'.shape = if r.shape = .conditional ∧ r'.start ≠ r.start then .block else r.shape

theorem Shifts.refl (r : Region) : Shifts r r :=
  ⟨rfl, Nat.le_refl _, fun _ => rfl, (if_neg fun h => h.2 rfl).symm⟩

theorem Shifts.loop_iff {r r' : Region} (h : Shifts r r') : r'.shape = .loop ↔ r.shape = .loop := by
  rw [h.shape]
  split
  · next hc => simp [hc.1]
  · exact Iff.rfl

theorem Shifts.wrapper_iff {r r' : Region} (h : Shifts r r') {o : Nat} :
    r'.shape = .wrapper o ↔ r.shape = .wrapper o := by
  rw [h.shape]
  split
  · next hc => simp [hc.1]
  · exact Iff.rfl

theorem Shifts.trans {a b c : Region} (hab : Shifts a b) (hbc : Shifts b c) : Shifts a c where
  stop := hbc.stop.trans hab.stop
  start := hbc.start.trans hab.start
  loop h := (hbc.loop (hab.loop_iff.mpr h)).trans (hab.loop h)
  shape := by
    have hb := hab.start
    have hc := hbc.start
    rw [hbc.shape, hab.shape]
    -- A region that has moved before it moves again is no longer conditional.
    grind

theorem Shifts.widens {r r' : Region} (h : Shifts r r') : Widens r r' where
  stop := h.stop
  start := h.start
  shape := by
    rw [h.shape]
    split
    · next hc => exact .inr ⟨hc.1, rfl⟩
    · exact .inl rfl
  fixed hr' := by
    have hshape := h.shape
    rcases hr' with hr' | hr'
    · exact h.loop (h.loop_iff.mp hr')
    · by_contra hne
      split at hshape
      · rw [hr'] at hshape
        cases hshape
      · next hc => exact hc ⟨hshape ▸ hr', hne⟩

/-- The regions `rs'` are those of `rs`, each shifted. -/
def Shifted (rs rs' : List Region) : Prop := List.Forall₂ Shifts rs rs'

theorem Shifted.refl (rs : List Region) : Shifted rs rs :=
  List.forall₂_same.mpr fun r _ => .refl r

theorem Shifted.trans {rs rs' rs'' : List Region} (h : Shifted rs rs') (h' : Shifted rs' rs'') :
    Shifted rs rs'' := by
  induction h generalizing rs'' with
  | nil => exact h'
  | cons hs _ ih =>
    cases h' with
    | cons hs' h' => exact .cons (hs.trans hs') (ih h')

theorem Shifted.set {rs : List Region} {j : Nat} {b b' : Region} (hb : rs[j]? = some b)
    (hs : Shifts b b') : Shifted rs (rs.set j b') := by
  induction rs generalizing j with
  | nil => cases hb
  | cons r rs ih =>
    cases j with
    | zero =>
      cases hb
      exact .cons hs (Shifted.refl rs)
    | succ j => exact .cons (.refl r) (ih hb)

/-- The sum of all starts, which every move lowers. -/
def starts (rs : List Region) : Nat := (rs.map Region.start).sum

theorem Shifted.starts_le {rs rs' : List Region} (h : Shifted rs rs') : starts rs' ≤ starts rs := by
  induction h with
  | nil => exact Nat.le_refl _
  | cons hs _ ih =>
    have := hs.start
    simp only [starts, List.map_cons, List.sum_cons] at ih ⊢
    omega

theorem Shifted.starts_lt {rs rs' : List Region} (h : Shifted rs rs') {j : Nat} {r r' : Region}
    (hr : rs[j]? = some r) (hr' : rs'[j]? = some r') (hlt : r'.start < r.start) :
    starts rs' < starts rs := by
  induction h generalizing j with
  | nil => cases hr
  | cons hs hss ih =>
    cases j with
    | zero =>
      cases hr
      cases hr'
      have hle := Shifted.starts_le hss
      simp only [starts, List.map_cons, List.sum_cons] at hle ⊢
      omega
    | succ j =>
      have hlt := ih hr hr'
      have := hs.start
      simp only [starts, List.map_cons, List.sum_cons] at hlt ⊢
      omega

/-- Whether region `r` at position `k` moves along with region `b` at position `j`. -/
def Along (b : Region) (j : Nat) (r : Region) (k : Nat) : Prop :=
  k = j ∨ ∃ o, b.shape = .wrapper o ∧ r.shape = .wrapper o

/-- What it means that region `b` at position `j` has moved to `start`. -/
structure Moved (rs rs' : List Region) (b : Region) (j start : Nat) : Prop where
  shifted : Shifted rs rs'
  shared : Shared rs'
  lower : starts rs' < starts rs
  /-- Nothing else has moved but what moves along, to where `b` has moved. -/
  only : ∀ k r', rs'[k]? = some r' →
    rs[k]? = some r' ∨ r'.start = start ∧ ∃ r, rs[k]? = some r ∧ Along b j r k

/-- A region that is neither loop nor wrapper moves alone, and ends up as a plain block. -/
theorem moved_single {rs : List Region} {j start : Nat} {b : Region} (hb : rs[j]? = some b)
    (hl : b.shape.isSingle) (hlt : start < b.start) (hs : Shared rs) :
    Moved rs (rs.set j ⟨start, b.stop, .block⟩) b j start := by
  have hshifts : Shifts b ⟨start, b.stop, .block⟩ := by
    have hne : start ≠ b.start := Nat.ne_of_lt hlt
    refine ⟨rfl, hlt.le, fun h => ?_, ?_⟩
    · rw [h] at hl
      cases hl
    · cases hc : b.shape with
      | loop | wrapper o => rw [hc] at hl; cases hl
      | block => rfl
      | conditional => exact (if_pos ⟨rfl, hne⟩).symm
  have hshifted := Shifted.set hb hshifts
  have hset : (rs.set j ⟨start, b.stop, .block⟩)[j]? = some ⟨start, b.stop, .block⟩ :=
    List.getElem?_set_self (List.getElem?_eq_some_iff.mp hb).1
  refine ⟨hshifted, fun x hx y hy o hxo hyo => ?_, hshifted.starts_lt hb hset hlt,
    fun k r' hr' => ?_⟩
  · rcases List.mem_or_eq_of_mem_set hx with hx | rfl
    · rcases List.mem_or_eq_of_mem_set hy with hy | rfl
      · exact hs x hx y hy o hxo hyo
      · cases hyo
    · cases hxo
  · by_cases hk : k = j
    · subst hk
      rw [hset] at hr'
      cases hr'
      exact .inr ⟨rfl, b, hb, .inl rfl⟩
    · rw [List.getElem?_set_ne (Ne.symm hk)] at hr'
      exact .inl hr'

/-- A wrapper takes the other wrappers of its switch along. -/
theorem moved_wrappers {rs : List Region} {j start owner : Nat} {b : Region}
    (hb : rs[j]? = some b) (ho : b.shape = .wrapper owner) (hlt : start < b.start)
    (hs : Shared rs) :
    Moved rs (rs.map fun r => if r.shape = .wrapper owner then { r with start } else r) b j
      start := by
  have hshifted : Shifted rs
      (rs.map fun r => if r.shape = .wrapper owner then { r with start } else r) := by
    unfold Shifted
    rw [List.forall₂_map_right_iff, List.forall₂_same]
    intro r hr
    split
    · next hro =>
      have hsame := hs r hr b (List.mem_of_getElem? hb) owner hro ho
      refine ⟨rfl, by dsimp only; omega, fun h => ?_, ?_⟩
      · rw [hro] at h
        cases h
      · dsimp only
        rw [if_neg fun h => ?_]
        rw [hro] at h
        cases h.1
    · exact .refl r
  have hmap : (rs.map fun r => if r.shape = .wrapper owner then { r with start } else r)[j]? =
      some { b with start } := by
    rw [List.getElem?_map, hb, Option.map_some, if_pos ho]
  refine ⟨hshifted, fun x hx y hy o hxo hyo => ?_, hshifted.starts_lt hb hmap hlt,
    fun k r' hr' => ?_⟩
  · obtain ⟨x', hx', rfl⟩ := List.mem_map.mp hx
    obtain ⟨y', hy', rfl⟩ := List.mem_map.mp hy
    have hshape (r : Region) : (if r.shape = .wrapper owner then { r with start } else r).shape =
        r.shape := by
      split <;> rfl
    rw [hshape] at hxo hyo
    -- Either both belong to the switch that moves or neither does.
    by_cases h : o = owner
    · subst h
      rw [if_pos hxo, if_pos hyo]
    · have hne : Shape.wrapper o ≠ .wrapper owner := fun he => h (Shape.wrapper.inj he)
      rw [if_neg (hxo ▸ hne), if_neg (hyo ▸ hne)]
      exact hs x' hx' y' hy' o hxo hyo
  · rw [List.getElem?_map] at hr'
    obtain ⟨r, hr, rfl⟩ := Option.map_eq_some_iff.mp hr'
    split
    · next hro => exact .inr ⟨rfl, r, hr, .inr ⟨owner, ho, hro⟩⟩
    · exact .inl hr

theorem moved_widen {rs : Array Region} {j start : Nat} {b : Region} (hb : rs[j]? = some b)
    (hl : b.shape ≠ .loop) (hlt : start < b.start) (hs : Shared rs.toList) :
    Moved rs.toList (widen rs j start).toList b j start := by
  have hb' : rs.toList[j]? = some b := by simpa using hb
  unfold widen
  rw [hb]
  dsimp only
  split
  · next owner ho =>
    rw [Array.toList_map]
    exact moved_wrappers hb' ho hlt hs
  · next ho =>
    rw [Array.toList_setIfInBounds]
    refine moved_single hb' ?_ hlt hs
    cases hc : b.shape with
    | loop => exact absurd hc hl
    | wrapper o => exact absurd hc (ho o)
    | block => rfl
    | conditional => rfl

/-! ## Passes -/

/-- What repairs may do: shift regions, and say so. -/
structure Repairs (r r' : Repair) : Prop where
  shifted : Shifted r.regions.toList r'.regions.toList
  still : r'.changed = false → r' = r
  lower : r.changed = false → r'.changed = true → starts r'.regions.toList < starts r.regions.toList

theorem Repairs.refl (r : Repair) : Repairs r r :=
  ⟨.refl _, fun _ => rfl, fun h h' => by rw [h] at h'; cases h'⟩

theorem Repairs.trans {a b c : Repair} (hab : Repairs a b) (hbc : Repairs b c) : Repairs a c where
  shifted := hab.shifted.trans hbc.shifted
  still h := by
    obtain rfl := hbc.still h
    exact hab.still h
  lower ha hc := by
    cases hb : b.changed with
    | true => exact hbc.shifted.starts_le.trans_lt (hab.lower ha hb)
    | false =>
      obtain rfl := hab.still hb
      exact hbc.lower ha hc

theorem repairPair_spec {offset : Nat → Nat} {i j : Nat} {r r' : Repair}
    (hs : Shared r.regions.toList) (h : repairPair offset i r j = .ok r') :
    Shared r'.regions.toList ∧ Repairs r r' := by
  unfold repairPair at h
  split at h
  · next a b ha hb =>
    split at h
    · next hc =>
      split at h
      · cases h
      · next hl =>
        cases h
        simp only [crosses, Bool.and_eq_true, decide_eq_true_eq] at hc
        have hm := moved_widen hb hl hc.1.1 hs
        refine ⟨hm.shared, hm.shifted, fun h => ?_, fun _ _ => hm.lower⟩
        cases h
    · cases h
      exact ⟨hs, .refl r⟩
  · cases h
    exact ⟨hs, .refl r⟩

/-- A pair that was looked at and left alone does not cross. -/
theorem not_crosses_of_repairPair {offset : Nat → Nat} {i j : Nat} {r : Repair}
    (h : repairPair offset i r j = .ok r) (hc : r.changed = false) {a b : Region}
    (ha : r.regions[i]? = some a) (hb : r.regions[j]? = some b) : crosses a b = false := by
  unfold repairPair at h
  rw [ha, hb] at h
  dsimp only at h
  split at h
  · split at h
    · cases h
    · rw [← Except.ok.inj h] at hc
      cases hc
  · next hn => simpa using hn

/-- No region starts inside another and ends after it. -/
def Apart (rs : List Region) : Prop := ∀ a ∈ rs, ∀ b ∈ rs, crosses a b = false

theorem repairPass_spec {offset : Nat → Nat} {rs : Array Region} {r : Repair}
    (hs : Shared rs.toList) (h : repairPass offset rs = .ok r) :
    Shared r.regions.toList ∧ Repairs ⟨rs, false⟩ r := by
  refine foldlM_rel (P := fun r => Shared r.regions.toList) Repairs.refl
    (fun _ _ _ => Repairs.trans) ?_ hs h
  intro x i y hx hy
  exact foldlM_rel (P := fun r => Shared r.regions.toList) Repairs.refl
    (fun _ _ _ => Repairs.trans) (fun x j y hx hy => repairPair_spec hx hy) hx hy

theorem repairPair_still {offset : Nat → Nat} {i j : Nat} {r r' : Repair}
    (h : repairPair offset i r j = .ok r') (hc : r'.changed = false) : r' = r := by
  unfold repairPair at h
  split at h
  · split at h
    · split at h <;> cases h
      cases hc
    · cases h
      rfl
  · cases h
    rfl

/-- A pass that changes nothing has seen every pair. -/
theorem apart_of_repairPass {offset : Nat → Nat} {rs : Array Region} {r : Repair}
    (h : repairPass offset rs = .ok r) (hc : r.changed = false) : Apart r.regions.toList := by
  have hrow {x y : Repair} {i : Nat} {js : List Nat}
      (hxy : js.foldlM (repairPair offset i) x = .ok y) (hy : y.changed = false) :=
    foldlM_still (fun _ _ _ => repairPair_still) hxy hy
  obtain ⟨rfl, hrows⟩ := foldlM_still (fun _ _ _ hxy hy => (hrow hxy hy).1) h hc
  intro a ha b hb
  obtain ⟨i, hi, rfl⟩ := List.getElem_of_mem ha
  obtain ⟨j, hj, rfl⟩ := List.getElem_of_mem hb
  simp only [Array.length_toList] at hi hj
  have hpairs := (hrow (hrows i (List.mem_range.mpr hi)) rfl).2
  exact not_crosses_of_repairPair (hpairs j (List.mem_range.mpr hj)) rfl
    (Array.getElem?_eq_getElem hi) (Array.getElem?_eq_getElem hj)

theorem repairFrom_spec {offset : Nat → Nat} {fuel : Nat} {rs rs' : Array Region}
    (hs : Shared rs.toList) (hfuel : starts rs.toList < fuel)
    (h : repairFrom offset fuel rs = .ok rs') :
    Shifted rs.toList rs'.toList ∧ Shared rs'.toList ∧ Apart rs'.toList := by
  induction fuel generalizing rs with
  | zero => omega
  | succ fuel ih =>
    obtain ⟨r, hr, h⟩ := bind_eq_ok.mp h
    obtain ⟨hsr, hrep⟩ := repairPass_spec hs hr
    split at h
    · next hc =>
      have hlt := hrep.lower rfl hc
      obtain ⟨hw, hrest⟩ := ih hsr (by dsimp only at hlt; omega) h
      exact ⟨hrep.shifted.trans hw, hrest⟩
    · next hc =>
      cases h
      exact ⟨hrep.shifted, hsr, apart_of_repairPass hr (by simpa using hc)⟩

theorem repair_spec {instrs : Array Instruction} {rs rs' : Array Region} (hs : Shared rs.toList)
    (h : repair instrs rs = .ok rs') :
    Shifted rs.toList rs'.toList ∧ Shared rs'.toList ∧ Apart rs'.toList := by
  refine repairFrom_spec hs ?_ h
  rw [← Array.foldr_toList, Array.toList_map]
  exact Nat.lt_succ_of_le (Nat.le_of_eq (List.sum_eq_foldr ..))

/-! ## Guards and order -/

theorem demote_start (rs : Array Region) (c : Region) : (demote rs c).start = c.start := by
  unfold demote
  split <;> rfl

theorem demote_stop (rs : Array Region) (c : Region) : (demote rs c).stop = c.stop := by
  unfold demote
  split <;> rfl

theorem widens_demote (rs : Array Region) (c : Region) : Widens c (demote rs c) := by
  refine ⟨demote_stop rs c, (demote_start rs c).le, ?_, fun _ => demote_start rs c⟩
  unfold demote
  split
  · next h => exact .inr ⟨h.1, rfl⟩
  · exact .inl rfl

/-- A block that is still conditional has no shorter region at its guard. -/
theorem stop_le_of_demote {rs : Array Region} {c r : Region}
    (hc : (demote rs c).shape = .conditional) (hr : r ∈ rs) (hs : r.start = c.start) :
    c.stop ≤ r.stop := by
  unfold demote at hc
  split at hc
  · cases hc
  · next hn =>
    by_contra hlt
    refine hn ⟨hc, Array.any_eq_true'.mpr ⟨r, hr, ?_⟩⟩
    rw [decide_eq_true_eq]
    exact ⟨hs, by omega⟩

theorem precedes_trans (a b c : Region) (hab : precedes a b) (hbc : precedes b c) :
    precedes a c := by
  simp only [precedes] at *
  grind

theorem precedes_total (a b : Region) : precedes a b || precedes b a := by
  simp only [precedes]
  grind

/-- Regions inside or beside each other, each before those it holds. -/
structure Nested (rs : List Region) : Prop where
  sorted : rs.Pairwise fun a b => a.start ≤ b.start ∧ (a.stop ≤ b.start ∨ b.stop ≤ a.stop)
  /-- Behind a conditional region no other one starts at its guard. -/
  innermost : rs.Pairwise fun a b => a.shape = .conditional → a.start ≠ b.start

end Region

open Region

theorem regions_eq_ok {instrs : Array Instruction} {ms : Array Region}
    (h : (collect instrs >>= repair instrs).toOption = some ms) :
    regions instrs = .ok ((ms.map (demote ms)).toList.mergeSort precedes) := by
  obtain ⟨cs, hc, hr⟩ := bind_eq_ok.mp (ok_of_toOption h)
  exact bind_eq_ok.mpr ⟨cs, hc, bind_eq_ok.mpr ⟨ms, hr, rfl⟩⟩

theorem regions_spec {instrs : Array Instruction} (hasc : Ascending instrs) {rs : List Region}
    (h : regions instrs = .ok rs) : Found instrs rs ∧ Nested rs := by
  obtain ⟨cs, hcs, h⟩ := bind_eq_ok.mp h
  obtain ⟨ms, hms, h⟩ := bind_eq_ok.mp h
  cases h
  have hfound := found_of_collect hasc hcs
  obtain ⟨hw, hshared, hapart⟩ := repair_spec hfound.shared hms
  have hmem {r : Region} (hr : r ∈ (ms.map (demote ms)).toList.mergeSort precedes) :
      ∃ m ∈ ms, demote ms m = r := by
    rw [List.mem_mergeSort, Array.mem_toList_iff, Array.mem_map] at hr
    exact hr
  have hperm := List.mergeSort_perm (ms.map (demote ms)).toList precedes
  have hfinal : Found instrs ((ms.map (demote ms)).toList.mergeSort precedes) := by
    have hwidens := hw.imp fun _ _ => Shifts.widens
    refine Found.perm (Found.widens (hfound.widens hwidens hshared) ?_ ?_) hperm
    · rw [Array.toList_map, List.forall₂_map_right_iff, List.forall₂_same]
      exact fun r _ => widens_demote ms r
    · intro a ha b hb o hao hbo
      rw [Array.toList_map] at ha hb
      obtain ⟨a', ha', rfl⟩ := List.mem_map.mp ha
      obtain ⟨b', hb', rfl⟩ := List.mem_map.mp hb
      rw [(widens_demote ms a').shape_eq (by rw [hao]; exact fun h => by cases h)] at hao
      rw [(widens_demote ms b').shape_eq (by rw [hbo]; exact fun h => by cases h)] at hbo
      rw [demote_start, demote_start]
      exact hshared a' ha' b' hb' o hao hbo
  have hsorted := List.pairwise_mergeSort precedes_trans precedes_total (ms.map (demote ms)).toList
  refine ⟨hfinal, ?_, ?_⟩
  · refine hsorted.imp_of_mem fun {a b} ha hb hab => ?_
    obtain ⟨a', ha', rfl⟩ := hmem ha
    obtain ⟨b', hb', rfl⟩ := hmem hb
    have hcross := hapart a' (by simpa using ha') b' (by simpa using hb')
    simp only [crosses, precedes, demote_start, demote_stop] at hcross hab ⊢
    grind
  · refine (hsorted.and hfinal.apart).imp_of_mem fun {a b} ha hb hab hc hs => ?_
    obtain ⟨hab, hne⟩ := hab
    obtain ⟨a', ha', rfl⟩ := hmem ha
    obtain ⟨b', hb', rfl⟩ := hmem hb
    have hstop := stop_le_of_demote hc hb' (by simpa [demote_start] using hs.symm)
    -- Of two regions over the same range the conditional one ranks last.
    have hrank : (demote ms a').shape.rank ≤ (demote ms b').shape.rank := by
      simp only [precedes, demote_start, demote_stop] at hab hs
      grind
    refine hne hc ?_ hs
    rw [hc] at hrank
    cases hb : (demote ms b').shape <;> simp_all [Shape.rank]

end ClassWasm
