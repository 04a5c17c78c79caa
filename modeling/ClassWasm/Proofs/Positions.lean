/-
  Positions in code. Offsets of decoded instructions ascend, so that an offset names at most one
  position, and the table of offsets finds exactly the positions of instructions.
-/
import ClassWasm.Proofs.Decoding

namespace ClassWasm

/-- The instruction at position `k` is at offset `o`. -/
def StartsAt (instrs : Array Instruction) (k : Nat) (o : Int) : Prop :=
  ∃ i, instrs[k]? = some i ∧ (i.offset : Int) = o

/-- The instruction at position `k` has a branch to position `t`. -/
def LeadsTo (instrs : Array Instruction) (k t : Nat) : Prop :=
  ∃ i, instrs[k]? = some i ∧ ∃ d ∈ i.op.branches, StartsAt instrs t (i.absolute d)

/-- Offsets ascend, as those of decoded instructions do. -/
def Ascending (instrs : Array Instruction) : Prop :=
  instrs.toList.Pairwise fun i j => i.offset < j.offset

theorem ascending_of_decode {pool : Pool} {code : Bytes} {instrs : Array Instruction}
    (h : decode pool code = .ok instrs) : Ascending instrs := (decode_tiles h).pairwise

theorem StartsAt.lt_size {instrs : Array Instruction} {k : Nat} {o : Int}
    (h : StartsAt instrs k o) : k < instrs.size := by
  obtain ⟨i, hi, -⟩ := h
  exact (Array.getElem?_eq_some_iff.mp hi).1

theorem Ascending.offset_lt {instrs : Array Instruction} (h : Ascending instrs) {j k : Nat}
    {a b : Instruction} (ha : instrs[j]? = some a) (hb : instrs[k]? = some b) (hjk : j < k) :
    a.offset < b.offset := by
  obtain ⟨hj, rfl⟩ := Array.getElem?_eq_some_iff.mp ha
  obtain ⟨hk, rfl⟩ := Array.getElem?_eq_some_iff.mp hb
  exact List.pairwise_iff_getElem.mp h j k (by simpa using hj) (by simpa using hk) hjk

/-- No two positions have one offset. -/
theorem StartsAt.unique {instrs : Array Instruction} (h : Ascending instrs) {j k : Nat} {o : Int}
    (hj : StartsAt instrs j o) (hk : StartsAt instrs k o) : j = k := by
  obtain ⟨a, ha, hao⟩ := hj
  obtain ⟨b, hb, hbo⟩ := hk
  rcases Nat.lt_trichotomy j k with hlt | heq | hgt
  · have := h.offset_lt ha hb hlt
    omega
  · exact heq
  · have := h.offset_lt hb ha hgt
    omega

namespace OffsetTable

/-- Notes the position of one instruction. -/
private def note (t : Array (Option Nat)) (ik : Instruction × Nat) : Array (Option Nat) :=
  t.setIfInBounds ik.1.offset (some ik.2)

private theorem foldl_note_other {l : List (Instruction × Nat)} {t : Array (Option Nat)} {o : Nat}
    (h : ∀ ik ∈ l, ik.1.offset ≠ o) : (l.foldl note t)[o]? = t[o]? := by
  induction l generalizing t with
  | nil => rfl
  | cons ik l ih =>
    rw [List.foldl_cons, ih fun x hx => h x (List.mem_cons_of_mem _ hx)]
    simp [note, h ik List.mem_cons_self]

private theorem foldl_note_mem {l : List (Instruction × Nat)} {t : Array (Option Nat)}
    (hl : l.Pairwise fun a b => a.1.offset < b.1.offset) {i : Instruction} {k : Nat}
    (hik : (i, k) ∈ l) (hi : i.offset < t.size) : (l.foldl note t)[i.offset]? = some (some k) := by
  induction l generalizing t with
  | nil => cases hik
  | cons jk l ih =>
    rw [List.pairwise_cons] at hl
    rw [List.foldl_cons]
    rcases List.mem_cons.mp hik with rfl | hik
    · rw [foldl_note_other fun x hx => Nat.ne_of_gt (hl.1 x hx)]
      simp [note, hi]
    · exact ih hl.2 hik (by simpa [note] using hi)

theorem ofInstructions_entries (instrs : Array Instruction) :
    ∃ size, (∀ i ∈ instrs.toList, Ascending instrs → i.offset < size) ∧
      (ofInstructions instrs).entries =
        instrs.toList.zipIdx.foldl note (Array.replicate size none) := by
  refine ⟨_, ?_, rfl⟩
  intro i hi hasc
  obtain ⟨k, hk, rfl⟩ := List.getElem_of_mem hi
  simp only [Array.length_toList] at hk
  have hlast : instrs.size - 1 < instrs.size := by omega
  rw [Array.back?_eq_getElem?, Array.getElem?_eq_getElem hlast]
  rcases Nat.lt_or_ge k (instrs.size - 1) with hlt | hge
  · have := hasc.offset_lt (Array.getElem?_eq_getElem hk) (Array.getElem?_eq_getElem hlast) hlt
    simp only [Array.getElem_toList]
    omega
  · have hke : k = instrs.size - 1 := by omega
    subst hke
    simp

/-- The table of ascending instructions finds exactly their positions. -/
theorem find?_ofInstructions {instrs : Array Instruction} (h : Ascending instrs) {o : Int}
    {k : Nat} : (ofInstructions instrs).find? o = some k ↔ StartsAt instrs k o := by
  obtain ⟨size, hsize, he⟩ := ofInstructions_entries instrs
  have hz : instrs.toList.zipIdx.Pairwise fun a b => a.1.offset < b.1.offset := by
    have hfst : (instrs.toList.zipIdx.map Prod.fst).Pairwise fun i j => i.offset < j.offset := by
      rw [List.zipIdx_map_fst]
      exact h
    rwa [List.pairwise_map] at hfst
  have hmem {i : Instruction} {k : Nat} :
      (i, k) ∈ instrs.toList.zipIdx ↔ instrs[k]? = some i := by
    rw [List.mem_zipIdx_iff_getElem?]
    simp
  have hnoted {i : Instruction} {k : Nat} (hi : instrs[k]? = some i) :
      (instrs.toList.zipIdx.foldl note (Array.replicate size none))[i.offset]? =
        some (some k) := by
    refine foldl_note_mem hz (hmem.mpr hi) ?_
    rw [Array.size_replicate]
    exact hsize i (List.mem_of_getElem? (by simpa using hi : instrs.toList[k]? = some i)) h
  unfold find?
  rw [he]
  constructor
  · intro hf
    split at hf
    · cases hf
    · next hneg =>
      by_cases hex : ∃ ik ∈ instrs.toList.zipIdx, ik.1.offset = o.toNat
      · obtain ⟨⟨i, j⟩, hij, hio⟩ := hex
        have hj := hmem.mp hij
        rw [← hio, hnoted hj] at hf
        cases hf
        exact ⟨i, hj, by dsimp only at hio; omega⟩
      · rw [foldl_note_other fun ik hik hio => hex ⟨ik, hik, hio⟩, Array.getElem?_replicate] at hf
        split at hf <;> cases hf
  · rintro ⟨i, hi, rfl⟩
    rw [if_neg (by omega), Int.toNat_natCast, hnoted hi]
    rfl

end OffsetTable

end ClassWasm
