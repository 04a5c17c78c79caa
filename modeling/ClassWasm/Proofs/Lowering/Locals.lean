/-
  The locals of a lowered function. `Sound` says that they have the types they were asked for and
  that no two uses share one; `Grows` says how they change while a function is lowered: what has a
  local keeps it, and what is new lies behind everything there was. So a fact about the locals at
  the end of lowering can be had at the place where a local is first used.
-/
import ClassWasm.Lowering.Locals
import ClassWasm.Proofs.Results

namespace ClassWasm.Lowering.Locals

open Wasm (ValType LocalRun)

/-- Locals have the types of what they hold, and hold one thing each. -/
structure Sound (l : Locals) : Prop where
  slots : ∀ key i, l.slots.lookup key = some i → l.types[i]? = some (.ofKind key.2)
  scratch : ∀ p ∈ l.scratch, l.types[p.2]? = some p.1
  slots_apart : ∀ key key' i, l.slots.lookup key = some i → l.slots.lookup key' = some i →
    key = key'
  scratch_apart : (l.scratch.map Prod.snd).Nodup
  slots_scratch : ∀ key i, l.slots.lookup key = some i → ∀ p ∈ l.scratch, p.2 ≠ i

/-- A local that holds neither a variable nor scratch values. -/
structure Owned (l : Locals) (i : Nat) : Prop where
  lt : i < l.types.size
  slots : ∀ key, l.slots.lookup key ≠ some i
  scratch : ∀ p ∈ l.scratch, p.2 ≠ i

structure Grows (l l' : Locals) : Prop where
  params : l'.params = l.params
  size : l.types.size ≤ l'.types.size
  types : ∀ (i : Nat) t, l.types[i]? = some t → l'.types[i]? = some t
  slots : ∀ key i, l.slots.lookup key = some i → l'.slots.lookup key = some i
  new_slots : ∀ key i, l'.slots.lookup key = some i →
    l.slots.lookup key = some i ∨ l.types.size ≤ i
  scratch : l.scratch <+: l'.scratch
  new_scratch : ∀ p ∈ l'.scratch, p ∈ l.scratch ∨ l.types.size ≤ p.2

theorem Grows.refl (l : Locals) : Grows l l :=
  ⟨rfl, Nat.le_refl _, fun _ _ h => h, fun _ _ h => h, fun _ _ h => .inl h, List.prefix_refl _,
    fun _ h => .inl h⟩

theorem Grows.trans {a b c : Locals} (hab : Grows a b) (hbc : Grows b c) : Grows a c where
  params := hbc.params.trans hab.params
  size := hab.size.trans hbc.size
  types i t h := hbc.types i t (hab.types i t h)
  slots key i h := hbc.slots key i (hab.slots key i h)
  new_slots key i h := by
    rcases hbc.new_slots key i h with h | h
    · exact hab.new_slots key i h
    · exact .inr (hab.size.trans h)
  scratch := hab.scratch.trans hbc.scratch
  new_scratch p h := by
    rcases hbc.new_scratch p h with h | h
    · exact hab.new_scratch p h
    · exact .inr (hab.size.trans h)

theorem Owned.grows {l l' : Locals} {i : Nat} (h : Owned l i) (hg : Grows l l') : Owned l' i where
  lt := h.lt.trans_le hg.size
  slots key hk := by
    rcases hg.new_slots key i hk with hk | hk
    · exact h.slots key hk
    · exact absurd h.lt (by omega)
  scratch p hp := by
    rcases hg.new_scratch p hp with hp | hp
    · exact h.scratch p hp
    · have := h.lt
      omega

theorem lt_size_of_type {l : Locals} {i : Nat} {t : ValType} (h : l.types[i]? = some t) :
    i < l.types.size := (Array.getElem?_eq_some_iff.mp h).1

/-- Places below 2^32 are told apart by the index that is handed out. -/
theorem toNat_index {l : Locals} (hfew : l.types.size ≤ 2 ^ 32) {i : Nat}
    (hi : i < l.types.size) : (UInt32.ofNat i).toNat = i :=
  UInt32.toNat_ofNat_of_lt' (hi.trans_le hfew)

/-! ## Fresh locals -/

theorem getElem?_push_of_some {α : Type} {xs : Array α} {i : Nat} {a b : α} (h : xs[i]? = some a) :
    (xs.push b)[i]? = some a := by
  have hlt := (Array.getElem?_eq_some_iff.mp h).1
  rw [Array.getElem?_push, if_neg (by omega), h]

theorem fresh_grows (t : ValType) (l : Locals) : Grows l (l.fresh t).2 :=
  ⟨rfl, by simp [fresh], fun _ _ h => getElem?_push_of_some h, fun _ _ h => h, fun _ _ h => .inl h,
    List.prefix_refl _, fun _ h => .inl h⟩

theorem fresh_type (t : ValType) (l : Locals) :
    (l.fresh t).2.types[l.types.size]? = some t := by simp [fresh]

theorem fresh_sound {l : Locals} (h : Sound l) (t : ValType) : Sound (l.fresh t).2 where
  slots key i hk := (fresh_grows t l).types _ _ (h.slots key i hk)
  scratch p hp := (fresh_grows t l).types _ _ (h.scratch p hp)
  slots_apart := h.slots_apart
  scratch_apart := h.scratch_apart
  slots_scratch := h.slots_scratch

theorem fresh_owned {l : Locals} (h : Sound l) (t : ValType) :
    Owned (l.fresh t).2 l.types.size where
  lt := by simp [fresh]
  slots key hk := absurd (lt_size_of_type (h.slots key _ hk)) (by omega)
  scratch p hp he := absurd (lt_size_of_type (h.scratch p hp)) (by omega)

/-! ## Variables -/

/-- Gives an owned local to a variable that has none for values of this kind. -/
theorem sound_addSlot {l : Locals} (key : Nat × Kind) {i : Nat} (h : Sound l) (ho : Owned l i)
    (ht : l.types[i]? = some (.ofKind key.2)) :
    Sound { l with slots := (key, i) :: l.slots } := by
  -- The new entry is found under its own key, every other key finds what it did before.
  have hcases {key' : Nat × Kind} {j : Nat}
      (hk : List.lookup key' ((key, i) :: l.slots) = some j) :
      key' = key ∧ j = i ∨ key' ≠ key ∧ l.slots.lookup key' = some j := by
    rw [List.lookup_cons] at hk
    by_cases he : key' = key
    · subst he
      simp at hk
      exact .inl ⟨rfl, hk.symm⟩
    · rw [beq_eq_false_iff_ne.mpr he] at hk
      exact .inr ⟨he, hk⟩
  refine ⟨fun key' j hk => ?_, h.scratch, fun key₁ key₂ j h₁ h₂ => ?_, h.scratch_apart,
    fun key' j hk => ?_⟩
  · rcases hcases hk with ⟨rfl, rfl⟩ | ⟨-, hk⟩
    · exact ht
    · exact h.slots key' j hk
  · rcases hcases h₁ with ⟨he₁, hj₁⟩ | ⟨-, hold₁⟩ <;>
      rcases hcases h₂ with ⟨he₂, hj₂⟩ | ⟨-, hold₂⟩
    · rw [he₁, he₂]
    · exact absurd (hj₁ ▸ hold₂) (ho.slots key₂)
    · exact absurd (hj₂ ▸ hold₁) (ho.slots key₁)
    · exact h.slots_apart key₁ key₂ j hold₁ hold₂
  · rcases hcases hk with ⟨rfl, rfl⟩ | ⟨-, hk⟩
    · exact ho.scratch
    · exact h.slots_scratch key' j hk

theorem slot_spec {l : Locals} (h : Sound l) (s : Nat) (k : Kind) :
    Sound (l.slot s k).2 ∧ Grows l (l.slot s k).2 ∧
      (∃ i, (l.slot s k).2.slots.lookup (s, k) = some i ∧ (l.slot s k).1 = .ofNat i) ∧
      (l.slot s k).2.types.size ≤ l.types.size + 1 := by
  unfold slot
  split
  · next i hi => exact ⟨h, .refl l, ⟨i, hi, rfl⟩, Nat.le_succ _⟩
  · next hnone =>
    have hsound := fresh_sound h (.ofKind k)
    have howned := fresh_owned h (.ofKind k)
    have hgrows := fresh_grows (.ofKind k) l
    refine ⟨sound_addSlot (s, k) hsound howned (fresh_type _ l), ⟨rfl, hgrows.size, hgrows.types,
      fun key i hk => ?_, fun key i hk => ?_, hgrows.scratch, hgrows.new_scratch⟩, ?_, ?_⟩
    · dsimp only
      rw [List.lookup_cons]
      have hne : key ≠ (s, k) := by
        rintro rfl
        rw [hnone] at hk
        cases hk
      rw [beq_eq_false_iff_ne.mpr hne]
      exact hk
    · dsimp only at hk
      rw [List.lookup_cons] at hk
      split at hk
      · cases hk
        exact .inr (Nat.le_refl _)
      · exact .inl hk
    · exact ⟨l.types.size, by simp, rfl⟩
    · simp [fresh]

/-! ## Scratch locals -/

/-- The scratch local with number `n` of type `t` is `i`. -/
def IsTemp (l : Locals) (t : ValType) (n i : Nat) : Prop := (l.scratchOf t)[n]? = some i

theorem IsTemp.mem {l : Locals} {t : ValType} {n i : Nat} (h : IsTemp l t n i) :
    (t, i) ∈ l.scratch := by
  obtain ⟨p, hp, he⟩ := List.mem_map.mp (List.mem_of_getElem? h)
  obtain ⟨hm, ht⟩ := List.mem_filter.mp hp
  obtain ⟨u, j⟩ := p
  simp only [decide_eq_true_eq] at ht
  rwa [← ht, ← he]

theorem IsTemp.grows {l l' : Locals} {t : ValType} {n i : Nat} (h : IsTemp l t n i)
    (hg : Grows l l') : IsTemp l' t n i := by
  have hprefix : l.scratchOf t <+: l'.scratchOf t := (hg.scratch.filter _).map _
  obtain ⟨rest, hr⟩ := hprefix
  unfold IsTemp at h ⊢
  rw [← hr, List.getElem?_append_left (List.getElem?_eq_some_iff.mp h).1]
  exact h

/-- Scratch locals with other numbers are other locals. -/
theorem IsTemp.number_eq {l : Locals} (hs : Sound l) {t : ValType} {n m i : Nat}
    (h : IsTemp l t n i) (h' : IsTemp l t m i) : n = m := by
  have hnodup : (l.scratchOf t).Nodup := hs.scratch_apart.sublist (List.filter_sublist.map _)
  obtain ⟨hn, he⟩ := List.getElem?_eq_some_iff.mp h
  obtain ⟨hm, he'⟩ := List.getElem?_eq_some_iff.mp h'
  exact (List.Nodup.getElem_inj_iff hnodup).mp (he.trans he'.symm)

theorem IsTemp.type {l : Locals} (hs : Sound l) {t : ValType} {n i : Nat} (h : IsTemp l t n i) :
    l.types[i]? = some t := hs.scratch _ h.mem

/-- Gives an owned local to scratch values. -/
theorem sound_addScratch {l : Locals} {t : ValType} {i : Nat} (h : Sound l) (ho : Owned l i)
    (ht : l.types[i]? = some t) : Sound { l with scratch := l.scratch ++ [(t, i)] } := by
  refine ⟨h.slots, fun p hp => ?_, h.slots_apart, ?_, fun key j hk p hp => ?_⟩
  · rcases List.mem_append.mp hp with hp | hp
    · exact h.scratch p hp
    · rw [List.mem_singleton.mp hp]
      exact ht
  · dsimp only
    rw [List.map_append]
    refine List.nodup_append.mpr ⟨h.scratch_apart, by simp, fun a ha b hb => ?_⟩
    obtain ⟨p, hp, rfl⟩ := List.mem_map.mp ha
    rw [List.map_singleton, List.mem_singleton] at hb
    rw [hb]
    exact ho.scratch p hp
  · rcases List.mem_append.mp hp with hp | hp
    · exact h.slots_scratch key j hk p hp
    · rw [List.mem_singleton.mp hp]
      intro he
      rw [← he] at hk
      exact ho.slots key hk

theorem addScratch_spec {l : Locals} (h : Sound l) (t : ValType) (n : Nat) :
    Sound (l.addScratch t n) ∧ Grows l (l.addScratch t n) ∧
      ((l.addScratch t n).scratchOf t).length = (l.scratchOf t).length + n ∧
      (l.addScratch t n).types.size = l.types.size + n := by
  induction n generalizing l with
  | zero => exact ⟨h, .refl l, rfl, rfl⟩
  | succ n ih =>
    have hsound := sound_addScratch (fresh_sound h t) (fresh_owned h t) (fresh_type t l)
    have hgrows := fresh_grows t l
    have hstep : Grows l { (l.fresh t).2 with scratch := l.scratch ++ [(t, l.types.size)] } := by
      refine ⟨rfl, hgrows.size, hgrows.types, hgrows.slots, hgrows.new_slots,
        List.prefix_append _ _, fun p hp => ?_⟩
      rcases List.mem_append.mp hp with hp | hp
      · exact .inl hp
      · exact .inr (by rw [List.mem_singleton.mp hp])
    obtain ⟨hs, hg, hlen, hsize⟩ := ih hsound
    refine ⟨hs, hstep.trans hg, hlen.trans ?_, hsize.trans ?_⟩
    · simp [scratchOf, fresh]
      omega
    · simp [fresh]
      omega

theorem temp_spec {l : Locals} (h : Sound l) (t : ValType) (n : Nat) :
    Sound (l.temp t n).2 ∧ Grows l (l.temp t n).2 ∧
      (∃ i, IsTemp (l.temp t n).2 t n i ∧ (l.temp t n).1 = .ofNat i) ∧
      (l.temp t n).2.types.size ≤ l.types.size + (n + 1) := by
  obtain ⟨hs, hg, hlen, hsize⟩ := addScratch_spec h t (n + 1 - (l.scratchOf t).length)
  refine ⟨hs, hg, ⟨_, ?_, rfl⟩, ?_⟩
  · unfold IsTemp temp
    dsimp only
    rw [List.getD_eq_getElem?_getD, List.getElem?_eq_getElem (by omega), Option.getD_some]
  · unfold temp
    dsimp only
    omega

/-! ## Parameters -/

/-- The variables that parameters are stored in from variable `s` on. -/
def paramSlots (s : Nat) : List Kind → List (Nat × Kind)
  | [] => []
  | k :: ks => (s, k) :: paramSlots (s + if k.isWide then 2 else 1) ks

theorem length_paramSlots (s : Nat) (ks : List Kind) : (paramSlots s ks).length = ks.length := by
  induction ks generalizing s with
  | nil => rfl
  | cons k ks ih => exact congrArg (· + 1) (ih _)

/-- One more parameter, in variable `s`. -/
def addParam (ls : Locals × Nat) (k : Kind) : Locals × Nat :=
  ({ (ls.1.fresh (.ofKind k)).2 with slots := ((ls.2, k), ls.1.types.size) :: ls.1.slots },
    ls.2 + if k.isWide then 2 else 1)

/-- The locals `l'` are `l` and one more for each of the parameters from variable `s` on. -/
structure Takes (l l' : Locals) (s : Nat) (ks : List Kind) : Prop where
  params : l'.params = l.params
  scratch : l'.scratch = l.scratch
  types : l'.types = l.types ++ (ks.map ValType.ofKind).toArray
  slots : ∀ key i, l'.slots.lookup key = some i ↔ l.slots.lookup key = some i ∨
    ∃ j, (paramSlots s ks)[j]? = some key ∧ i = l.types.size + j

theorem addParam_fold (ks : List Kind) {l : Locals} {s : Nat} (h : Sound l)
    (hs : ∀ key i, l.slots.lookup key = some i → key.1 < s) :
    Sound (ks.foldl addParam (l, s)).1 ∧ Takes l (ks.foldl addParam (l, s)).1 s ks := by
  induction ks generalizing l s with
  | nil =>
    refine ⟨h, rfl, rfl, by simp, fun key i => ⟨.inl, ?_⟩⟩
    rintro (hk | ⟨j, hj, -⟩)
    · exact hk
    · cases hj
  | cons k ks ih =>
    have hlookup (key : Nat × Kind) (i : Nat) :
        List.lookup key (((s, k), l.types.size) :: l.slots) = some i ↔
          l.slots.lookup key = some i ∨ key = (s, k) ∧ i = l.types.size := by
      rw [List.lookup_cons]
      by_cases he : key = (s, k)
      · subst he
        have hnone : ¬ l.slots.lookup (s, k) = some i := fun hk => Nat.lt_irrefl _ (hs _ _ hk)
        simp [hnone, eq_comm]
      · rw [beq_eq_false_iff_ne.mpr he]
        simp [he]
    have hsound := sound_addSlot (s, k) (fresh_sound h (.ofKind k))
      (fresh_owned h (.ofKind k)) (fresh_type _ l)
    obtain ⟨hs', ht⟩ := ih (s := s + if k.isWide then 2 else 1) hsound fun key i hk => by
      have : s < s + if k.isWide then 2 else 1 := by split <;> omega
      rcases (hlookup key i).mp hk with hk | ⟨rfl, -⟩
      · exact (hs key i hk).trans this
      · exact this
    refine ⟨hs', ht.params, ht.scratch, ?_, fun key i => ?_⟩
    · refine ht.types.trans ?_
      simp [fresh]
    · refine (ht.slots key i).trans ?_
      have hsize : (l.fresh (.ofKind k)).2.types.size = l.types.size + 1 := by simp [fresh]
      dsimp only
      rw [hsize]
      refine (or_congr_left (hlookup key i)).trans ?_
      rw [or_assoc]
      refine or_congr_right ⟨?_, ?_⟩
      · rintro (⟨rfl, rfl⟩ | ⟨j, hj, rfl⟩)
        · exact ⟨0, rfl, rfl⟩
        · exact ⟨j + 1, hj, by omega⟩
      · rintro ⟨j, hj, rfl⟩
        cases j with
        | zero =>
          cases hj
          exact .inl ⟨rfl, rfl⟩
        | succ j => exact .inr ⟨j, hj, by omega⟩

theorem ofParams_spec (ks : List Kind) : Sound (ofParams ks) ∧ (ofParams ks).params = ks.length ∧
    (ofParams ks).scratch = [] ∧ (ofParams ks).types = (ks.map ValType.ofKind).toArray ∧
    ∀ key i, (ofParams ks).slots.lookup key = some i ↔ (paramSlots 0 ks)[i]? = some key := by
  have hempty : Sound ⟨ks.length, #[], [], []⟩ := by
    refine ⟨fun _ _ h => ?_, fun _ h => ?_, fun _ _ _ h => ?_, .nil, fun _ _ h => ?_⟩ <;> cases h
  obtain ⟨hs, ht⟩ := addParam_fold ks (s := 0) hempty fun _ _ h => by cases h
  refine ⟨hs, ht.params, ht.scratch, ht.types.trans (by simp), fun key i => ?_⟩
  refine (ht.slots key i).trans ⟨?_, fun h => .inr ⟨i, h, by simp⟩⟩
  rintro (h | ⟨j, hj, rfl⟩)
  · cases h
  · simpa using hj

/-! ## Declarations -/

/-- The locals that runs declare, one by one. -/
def expand (rs : List LocalRun) : List ValType := rs.flatMap fun r => .replicate r.count.toNat r.type

theorem expand_runs {ts : List ValType} (h : ts.length < 2 ^ 32) : expand (runs ts) = ts := by
  induction ts with
  | nil => rfl
  | cons t ts ih =>
    rw [List.length_cons] at h
    have hts := ih (by omega)
    unfold runs
    split
    · next r rs hr =>
      rw [hr, expand, List.flatMap_cons] at hts
      have hlen := congrArg List.length hts
      rw [List.length_append, List.length_replicate] at hlen
      have hcount : (r.count + 1).toNat = r.count.toNat + 1 := by
        rw [UInt32.toNat_add]
        exact Nat.mod_eq_of_lt (by simp only [UInt32.reduceToNat]; omega)
      split
      · next ht =>
        rw [expand, List.flatMap_cons, ← hts, ht]
        dsimp only
        rw [hcount, List.replicate_succ, List.cons_append]
      · rw [expand, List.flatMap_cons, List.flatMap_cons, hts]
        rfl
    · next hr =>
      rw [hr] at hts
      rw [← hts]
      rfl

theorem expand_declarations {l : Locals} (h : l.types.size < 2 ^ 32) :
    expand l.declarations = l.types.toList.drop l.params := by
  refine expand_runs ?_
  rw [List.length_drop, Array.length_toList]
  omega

end ClassWasm.Lowering.Locals
