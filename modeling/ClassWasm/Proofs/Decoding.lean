/-
  Decoded code. A reader that succeeds has consumed a number of bytes, and `Reads` says what it
  then knows of its value and that number. From it: instructions lie one behind the other, none of
  them is empty, a branch takes at least three bytes for each of its targets, and operands are
  within the range that their opcode gives them.
-/
import ClassWasm.Instruction.Decode
import ClassWasm.Proofs.Results

namespace ClassWasm

/-! ## Readers -/

namespace Reader

variable {ε ε' α β : Type}

/-- Where `r` succeeds it has consumed a number of bytes that stands in the relation `Q` to its
value. -/
def Reads (r : Reader ε α) (Q : α → Nat → Prop) : Prop :=
  ∀ c a c', r c = .ok (a, c') →
    ∃ n, c'.offset = c.offset + n ∧ c.rest.length = c'.rest.length + n ∧ Q a n

theorem Reads.mono {r : Reader ε α} {Q Q' : α → Nat → Prop} (h : Reads r Q)
    (hQ : ∀ a n, Q a n → Q' a n) : Reads r Q' := by
  intro c a c' hr
  obtain ⟨n, h1, h2, h3⟩ := h c a c' hr
  exact ⟨n, h1, h2, hQ a n h3⟩

theorem reads_pure (a : α) {Q : α → Nat → Prop} (h : Q a 0) :
    Reads (pure a : Reader ε α) Q := by
  intro c a' c' hr
  cases hr
  exact ⟨0, rfl, rfl, h⟩

theorem reads_throw (e : ε) {Q : α → Nat → Prop} : Reads (throw e : Reader ε α) Q := by
  intro c a c' hr
  cases hr

theorem Reads.bind {r : Reader ε α} {f : α → Reader ε β} {Q : α → Nat → Prop}
    {Q' : β → Nat → Prop} (h : Reads r Q)
    (hf : ∀ a n, Q a n → Reads (f a) fun b m => Q' b (n + m)) : Reads (r >>= f) Q' := by
  intro c b c' hr
  change (r c >>= fun p => f p.1 p.2) = .ok (b, c') at hr
  cases hra : r c with
  | error e => rw [hra] at hr; cases hr
  | ok p =>
    obtain ⟨a, d⟩ := p
    rw [hra] at hr
    obtain ⟨n, h1, h2, h3⟩ := h c a d hra
    obtain ⟨m, h4, h5, h6⟩ := hf a n h3 d b c' hr
    exact ⟨n + m, by omega, by omega, h6⟩

theorem Reads.map {r : Reader ε α} {f : α → β} {Q : α → Nat → Prop} {Q' : β → Nat → Prop}
    (h : Reads r Q) (hf : ∀ a n, Q a n → Q' (f a) n) : Reads (f <$> r) Q' := by
  rw [map_eq_pure_bind]
  exact h.bind fun a n hq => reads_pure _ (by simpa using hf a n hq)

theorem Reads.mapError {r : Reader ε α} {Q : α → Nat → Prop} (h : Reads r Q) (f : ε → ε') :
    Reads (r.mapError f) Q := by
  intro c a c' hr
  refine h c a c' ?_
  unfold Reader.mapError at hr
  cases hrc : r c with
  | error e => rw [hrc] at hr; cases hr
  | ok p => rw [hrc] at hr; cases hr; rfl

theorem reads_ofExcept (x : Except ε α) : Reads (ofExcept x) fun _ n => n = 0 := by
  intro c a c' hr
  cases x with
  | error e => cases hr
  | ok b => cases hr; exact ⟨0, rfl, rfl, rfl⟩

/-- `n` values in a row take `n` times the bytes of one. -/
theorem reads_listFrom {r : Nat → Reader ε α} {k : Nat} (h : ∀ i, Reads (r i) fun _ n => n = k)
    (i n : Nat) : Reads (listFrom r i n) fun as m => as.length = n ∧ m = k * n := by
  induction n generalizing i with
  | zero => exact reads_pure _ (by simp)
  | succ n ih =>
    unfold listFrom
    refine (h i).bind fun a m hm => (ih (i + 1)).bind fun as l hl => reads_pure _ ?_
    refine ⟨by simp [hl.1], ?_⟩
    rw [hm, hl.2, Nat.mul_succ]
    omega

end Reader

namespace Cursor

open Reader

theorem reads_u8 : Reads u8 fun _ n => n = 1 := by
  rintro ⟨rest, o⟩ a c' hr
  unfold u8 at hr
  rcases rest with _ | ⟨x, rest⟩
  · cases hr
  · cases hr
    exact ⟨1, rfl, rfl, rfl⟩

theorem reads_u16 : Reads u16 fun _ n => n = 2 := by
  rintro ⟨rest, o⟩ a c' hr
  unfold u16 at hr
  rcases rest with _ | ⟨x, _ | ⟨y, rest⟩⟩
  · cases hr
  · cases hr
  · cases hr
    exact ⟨2, rfl, rfl, rfl⟩

theorem reads_u32 : Reads u32 fun _ n => n = 4 := by
  rintro ⟨rest, o⟩ a c' hr
  unfold u32 at hr
  rcases rest with _ | ⟨x, _ | ⟨y, _ | ⟨z, _ | ⟨w, rest⟩⟩⟩⟩
  iterate 4 cases hr
  cases hr
  exact ⟨4, rfl, rfl, rfl⟩

theorem reads_u64 : Reads u64 fun _ n => n = 8 := by
  rintro ⟨rest, o⟩ a c' hr
  unfold u64 at hr
  split at hr
  · next heq =>
    cases hr
    exact ⟨8, rfl, congrArg List.length heq, rfl⟩
  · cases hr

theorem reads_i8 : Reads i8 fun _ n => n = 1 := reads_u8.map fun _ _ h => h

theorem reads_i16 : Reads i16 fun _ n => n = 2 := reads_u16.map fun _ _ h => h

theorem reads_i32 : Reads i32 fun _ n => n = 4 := reads_u32.map fun _ _ h => h

theorem reads_i64 : Reads i64 fun _ n => n = 8 := reads_u64.map fun _ _ h => h

theorem reads_take (k : Nat) : Reads (take k) fun _ n => n = k := by
  rintro ⟨rest, o⟩ a c' hr
  unfold take at hr
  dsimp only at hr
  split at hr
  · next hk =>
    cases hr
    rw [List.length_take] at hk
    exact ⟨k, rfl, by simp only [List.length_drop]; omega, rfl⟩
  · cases hr

end Cursor

/-! ## Operations -/

/-- What an opcode says of its operands: a local variable holds values of some kind, and a table
of a switch ends within the range of keys. -/
def Operation.WellFormed : Operation → Prop
  | load k _ | store k _ => k ≠ .void
  | tableSwitch _ low ts => low.toInt + ts.length ≤ 2 ^ 31
  | _ => True

namespace Instruction

open Reader

/-- An operation that fits into an instruction of `n` bytes. -/
def FitsIn (op : Operation) (n : Nat) : Prop := op.WellFormed ∧ 3 * op.branches.length ≤ n

/-- What `layout` promises of the operations it makes, before their operands are read. -/
def Layout.Fits : Layout → Prop
  | plain op => FitsIn op 1
  | byte make => ∀ v, FitsIn (make v) 2
  | short make => ∀ v, FitsIn (make v) 3
  | word make => ∀ v, FitsIn (make v) 5
  | slot make => ∀ v, FitsIn (make v) 2
  | field make => ∀ v, FitsIn (make v) 3
  | _ => True

theorem slotKind_ne_void (n : Nat) : slotKind n ≠ .void := by
  unfold slotKind
  split <;> decide

theorem Layout.fits_ite {c : Prop} [Decidable c] {l r : Layout} (hl : l.Fits) (hr : r.Fits) :
    (if c then l else r).Fits := by
  split
  · exact hl
  · exact hr

theorem arithLayout_fits (n : Nat) : (arithLayout n).Fits := by
  unfold arithLayout
  dsimp only
  split <;> refine Layout.fits_ite ?_ ?_ <;>
    simp [Layout.Fits, FitsIn, Operation.WellFormed, Operation.branches]

theorem layout_fits (opcode : UInt8) : (layout opcode).Fits := by
  unfold layout
  dsimp only
  repeat' apply Layout.fits_ite
  all_goals
    first
      | exact arithLayout_fits _
      | simp [Layout.Fits, FitsIn, Operation.WellFormed, Operation.branches, slotKind_ne_void,
          branchLayout, bitLayout]

theorem reads_operand {α : Type} {r : Reader Shortage α} {Q : α → Nat → Prop} (h : Reads r Q)
    (name : Text) (offset : Nat) : Reads (operand name offset r) Q := h.mapError _

theorem reads_resolve {α : Type} (name : Text) (offset : Nat) (x : Except Pool.Error α) :
    Reads (resolve name offset x) fun _ n => n = 0 := reads_ofExcept _

theorem reads_constant (pool : Pool) (opcode : UInt8) (offset : Nat) (index : PoolIndex) :
    Reads (constant pool opcode offset index) fun op n => n = 0 ∧ FitsIn op 1 := by
  unfold constant
  refine (reads_resolve _ _ _).bind fun e n hn => ?_
  subst hn
  split
  · exact reads_pure _ ⟨rfl, trivial, Nat.zero_le _⟩
  · exact reads_pure _ ⟨rfl, trivial, Nat.zero_le _⟩
  · exact reads_throw _

theorem reads_wideConstant (pool : Pool) (opcode : UInt8) (offset : Nat) (index : PoolIndex) :
    Reads (wideConstant pool opcode offset index) fun op n => n = 0 ∧ FitsIn op 1 := by
  unfold wideConstant
  refine (reads_resolve _ _ _).bind fun e n hn => ?_
  subst hn
  split
  · exact reads_pure _ ⟨rfl, trivial, Nat.zero_le _⟩
  · exact reads_pure _ ⟨rfl, trivial, Nat.zero_le _⟩
  · exact reads_throw _

theorem reads_switchItems {α : Type} {r : Reader Shortage α} {size : Nat}
    (h : Reads r fun _ n => n = size) (name what : Text) (offset count : Nat) :
    Reads (switchItems name what offset count size r)
      fun as n => as.length = count ∧ n = size * count := by
  intro c a c' hr
  unfold switchItems at hr
  split at hr
  · cases hr
  · exact reads_operand (reads_listFrom (fun _ => h) 0 count) name offset c a c' hr

theorem reads_tableSwitch (offset : Nat) :
    Reads (tableSwitch offset) fun op n => FitsIn op (n + 1) := by
  unfold tableSwitch
  have head : Reads (operand "tableswitch" offset do
      let _ ← Cursor.take (padding offset)
      let default ← Cursor.i32
      let low ← Cursor.i32
      let high ← Cursor.i32
      pure (default, low, high)) fun _ n => 12 ≤ n := by
    refine reads_operand ?_ _ _
    refine (Cursor.reads_take _).bind fun _ _ _ => ?_
    refine Cursor.reads_i32.bind fun _ _ _ => ?_
    refine Cursor.reads_i32.bind fun _ _ _ => ?_
    refine Cursor.reads_i32.bind fun _ _ _ => ?_
    exact reads_pure _ (by omega)
  refine head.bind fun p n hn => ?_
  obtain ⟨default, low, high⟩ := p
  dsimp only
  split
  · exact reads_throw _
  · next hle =>
    refine (reads_switchItems Cursor.reads_i32 _ _ _ _).bind fun ts m hm => reads_pure _ ?_
    have hlow : low.toInt ≤ high.toInt := by
      rw [← Int32.le_iff_toInt_le]
      exact Int32.not_lt.mp hle
    have hhigh : high.toInt < 2 ^ 31 := Int32.toInt_lt high
    refine ⟨?_, ?_⟩
    · simp only [Operation.WellFormed]
      omega
    · simp only [Operation.branches, List.length_cons]
      omega

theorem reads_lookupPair : Reads lookupPair fun _ n => n = 8 :=
  Cursor.reads_i32.bind fun _ _ _ => Cursor.reads_i32.bind fun _ _ _ => reads_pure _ (by omega)

theorem reads_lookupSwitch (offset : Nat) :
    Reads (lookupSwitch offset) fun op n => FitsIn op (n + 1) := by
  unfold lookupSwitch
  have head : Reads (operand "lookupswitch" offset do
      let _ ← Cursor.take (padding offset)
      let default ← Cursor.i32
      let count ← Cursor.i32
      pure (default, count)) fun _ n => 8 ≤ n := by
    refine reads_operand ?_ _ _
    refine (Cursor.reads_take _).bind fun _ _ _ => ?_
    refine Cursor.reads_i32.bind fun _ _ _ => ?_
    refine Cursor.reads_i32.bind fun _ _ _ => ?_
    exact reads_pure _ (by omega)
  refine head.bind fun p n hn => ?_
  obtain ⟨default, count⟩ := p
  dsimp only
  split
  · exact reads_throw _
  · refine (reads_switchItems reads_lookupPair _ _ _ _).bind fun cases m hm => reads_pure _ ?_
    refine ⟨trivial, ?_⟩
    simp only [Operation.branches, List.length_cons, List.length_map]
    omega

theorem FitsIn.mono {op : Operation} {m n : Nat} (h : FitsIn op m) (hmn : m ≤ n) : FitsIn op n :=
  ⟨h.1, h.2.trans hmn⟩

theorem reads_operation (pool : Pool) (offset : Nat) (opcode : UInt8) :
    Reads (operation pool offset opcode) fun op n => FitsIn op (n + 1) := by
  have fits := layout_fits opcode
  unfold operation
  dsimp only
  cases hl : layout opcode with rw [hl] at fits
  | plain op => exact reads_pure _ fits
  | byte make =>
    exact (reads_operand Cursor.reads_i8 _ _).map fun v n hn => (fits v).mono (by omega)
  | short make =>
    exact (reads_operand Cursor.reads_i16 _ _).map fun v n hn => (fits v).mono (by omega)
  | word make =>
    exact (reads_operand Cursor.reads_i32 _ _).map fun v n hn => (fits v).mono (by omega)
  | slot make =>
    refine (reads_operand Cursor.reads_u8 _ _).bind fun v n hn => reads_pure _ ?_
    exact (fits _).mono (by omega)
  | increment =>
    refine (reads_operand Cursor.reads_u8 _ _).bind fun v n hn => ?_
    exact (reads_operand Cursor.reads_i8 _ _).bind fun d m hm =>
      reads_pure _ ⟨trivial, Nat.zero_le _⟩
  | constant8 =>
    refine (reads_operand Cursor.reads_u8 _ _).bind fun v n hn => ?_
    exact (reads_constant pool opcode offset _).mono fun op m h => h.2.mono (by omega)
  | constant16 =>
    refine (reads_operand Cursor.reads_u16 _ _).bind fun v n hn => ?_
    exact (reads_constant pool opcode offset _).mono fun op m h => h.2.mono (by omega)
  | wideConstant =>
    refine (reads_operand Cursor.reads_u16 _ _).bind fun v n hn => ?_
    exact (reads_wideConstant pool opcode offset _).mono fun op m h => h.2.mono (by omega)
  | field make =>
    refine (reads_operand Cursor.reads_u16 _ _).bind fun v n hn => ?_
    exact (reads_resolve _ _ _).map fun r m hm => (fits r).mono (by omega)
  | method =>
    refine (reads_operand Cursor.reads_u16 _ _).bind fun v n hn => ?_
    exact (reads_resolve _ _ _).map fun r m hm => ⟨trivial, Nat.zero_le _⟩
  | tableSwitch => exact reads_tableSwitch offset
  | lookupSwitch => exact reads_lookupSwitch offset
  | unsupported reason => exact reads_throw _

theorem reads_wideOperation (offset : Nat) (opcode : UInt8) :
    Reads (wideOperation offset opcode) fun op n => FitsIn op (n + 2) := by
  have fits := layout_fits opcode
  unfold wideOperation
  dsimp only
  cases hl : layout opcode with rw [hl] at fits
  | slot make =>
    exact (reads_operand Cursor.reads_u16 _ _).map fun v n hn => (fits v).mono (by omega)
  | increment =>
    refine (reads_operand Cursor.reads_u16 _ _).bind fun v n hn => ?_
    exact (reads_operand Cursor.reads_i16 _ _).bind fun d m hm =>
      reads_pure _ ⟨trivial, Nat.zero_le _⟩
  | _ => exact reads_throw _

/-- An instruction starts where the cursor stands and reaches to where it stands next. -/
theorem next_eq_ok {pool : Pool} {c c' : Cursor} {i : Instruction}
    (h : next pool c = .ok (i, c')) :
    i.offset = c.offset ∧ c'.offset = i.offset + i.size ∧
      c.rest.length = c'.rest.length + i.size ∧ 1 ≤ i.size ∧ FitsIn i.op i.size := by
  -- The state is read twice, so the offsets before and after are named here, not in `Reads`.
  have inner {r : Reader Error Operation} {k : Nat} (wide : Bool) (opcode : UInt8) {d : Cursor}
      (hr : Reads r fun op n => FitsIn op (n + k)) (hk : 1 ≤ k)
      (hd : d.offset = c.offset + k ∧ c.rest.length = d.rest.length + k)
      (hi : (do
        let op ← r
        pure (⟨c.offset, (← get).offset - c.offset, opcode, wide, op⟩ : Instruction) :
          Reader Error Instruction) d = .ok (i, c')) :
      i.offset = c.offset ∧ c'.offset = i.offset + i.size ∧
        c.rest.length = c'.rest.length + i.size ∧ 1 ≤ i.size ∧ FitsIn i.op i.size := by
    change (r d >>= fun p => .ok (⟨c.offset, p.2.offset - c.offset, opcode, wide, p.1⟩, p.2)) =
      .ok (i, c') at hi
    cases hrd : r d with
    | error e => rw [hrd] at hi; cases hi
    | ok p =>
      rw [hrd] at hi
      cases hi
      obtain ⟨n, h1, h2, h3⟩ := hr d p.1 p.2 hrd
      have hn : p.2.offset - c.offset = n + k := by omega
      dsimp only
      rw [hn]
      exact ⟨rfl, by omega, by omega, by omega, h3⟩
  obtain ⟨rest, o⟩ := c
  rcases rest with _ | ⟨first, rest⟩
  · cases h
  by_cases hw : first = wideOpcode
  · subst hw
    rcases rest with _ | ⟨opcode, rest⟩
    · cases h
    · exact inner true opcode (d := ⟨rest, o + 2⟩) (reads_wideOperation o opcode) (by omega)
        ⟨rfl, rfl⟩ h
  · have h' : (if first = wideOpcode then _ else _ : Reader Error Instruction) ⟨rest, o + 1⟩ =
      .ok (i, c') := h
    rw [if_neg hw] at h'
    exact inner false first (d := ⟨rest, o + 1⟩) (reads_operation pool o first) (by omega)
      ⟨rfl, rfl⟩ h'

/-! ## Whole bodies -/

/-- Instructions that lie one behind the other from offset `a` to offset `b`. -/
def Tiles (a b : Nat) : List Instruction → Prop
  | [] => a = b
  | i :: is => i.offset = a ∧ 1 ≤ i.size ∧ FitsIn i.op i.size ∧ Tiles (a + i.size) b is

theorem decodeFrom_tiles {pool : Pool} {fuel : Nat} {c : Cursor} {done instrs : Array Instruction}
    (hf : c.rest.length ≤ fuel) (h : decodeFrom pool done fuel c = .ok instrs) :
    ∃ is, instrs.toList = done.toList ++ is ∧ Tiles c.offset (c.offset + c.rest.length) is := by
  induction fuel generalizing c done with
  | zero =>
    cases h
    have hnil : c.rest = [] := List.length_eq_zero_iff.mp (by omega)
    exact ⟨[], by simp, by simp [Tiles, hnil]⟩
  | succ fuel ih =>
    unfold decodeFrom at h
    split at h
    · next hnil =>
      cases h
      exact ⟨[], by simp, by simp [Tiles, hnil]⟩
    · split at h
      · cases h
      · next i c' hi =>
        obtain ⟨h1, h2, h3, h4, h5⟩ := next_eq_ok hi
        obtain ⟨is, e, ht⟩ := ih (by omega) h
        refine ⟨i :: is, by simp [e], h1, h4, h5, ?_⟩
        rw [h2, h1] at ht
        convert ht using 1
        omega

theorem Tiles.bounds {a b : Nat} {is : List Instruction} (h : Tiles a b is) {i : Instruction}
    (hi : i ∈ is) : a ≤ i.offset ∧ FitsIn i.op i.size := by
  induction is generalizing a with
  | nil => cases hi
  | cons j is ih =>
    obtain ⟨h1, h2, h3, h4⟩ := h
    rcases List.mem_cons.mp hi with rfl | hi
    · exact ⟨h1 ▸ Nat.le_refl _, h3⟩
    · have := ih h4 hi
      exact ⟨by omega, this.2⟩

theorem Tiles.pairwise {a b : Nat} {is : List Instruction} (h : Tiles a b is) :
    is.Pairwise fun i j => i.offset < j.offset := by
  induction is generalizing a with
  | nil => exact .nil
  | cons i is ih =>
    obtain ⟨h1, h2, h3, h4⟩ := h
    refine .cons (fun j hj => ?_) (ih h4)
    have := (h4.bounds hj).1
    omega

/-- The targets of all instructions, three bytes each, fit into the code beside one byte for every
instruction that has none. -/
theorem Tiles.targets_le {a b : Nat} {is : List Instruction} (h : Tiles a b is) :
    a + 3 * (is.map fun i => i.op.branches.length).sum ≤ b ∧ a + is.length ≤ b := by
  induction is generalizing a with
  | nil => simp [Tiles] at h; simp [h]
  | cons i is ih =>
    obtain ⟨h1, h2, ⟨-, h3⟩, h4⟩ := h
    have := ih h4
    simp only [List.map_cons, List.sum_cons, List.length_cons]
    omega

end Instruction

theorem decode_tiles {pool : Pool} {code : Bytes} {instrs : Array Instruction}
    (h : decode pool code = .ok instrs) : Instruction.Tiles 0 code.length instrs.toList := by
  obtain ⟨is, e, ht⟩ := Instruction.decodeFrom_tiles (c := ⟨code, 0⟩) (Nat.le_refl _) h
  rw [e]
  simpa using ht

end ClassWasm
