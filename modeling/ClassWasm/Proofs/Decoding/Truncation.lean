/-
  Method bodies that are cut off. `CutsAt` says of a reader that what it makes of some bytes it makes
  of the first of them too, as long as those that it takes are among them, and that it runs short
  otherwise. All readers of instructions are such (`cutsAt_next`), so a cut between two instructions
  leaves those before it and a cut anywhere else is reported as missing bytes (`decode_cut`).
-/
import ClassWasm.Proofs.ClassFile.Truncation
import ClassWasm.Proofs.Decoding

namespace ClassWasm

/-! ## Readers -/

namespace Reader

variable {ε ε' α β : Type} {short : ε → Prop} {short' : ε' → Prop}

/-- What `r` makes of bytes, it makes of those that it takes, and with fewer of them it runs
short. -/
structure CutsAt (short : ε → Prop) (r : Reader ε α) : Prop where
  shrinks : ∀ c a d, r c = .ok (a, d) → d.rest.length ≤ c.rest.length
  cuts : ∀ more c a d, r (c.followedBy more) = .ok (a, d) →
    (∃ d', r c = .ok (a, d') ∧ d = d'.followedBy more) ∨
      d.rest.length < more.length ∧ ∃ e, r c = .error e ∧ short e

/-- A reader that takes `k` bytes and needs no more than these. -/
theorem cutsAt_of_width {r : Reader ε α} {k : Nat} (hreads : Reads r fun _ n => n = k)
    (hcuts : CutsShort short r) (henough : ∀ c, k ≤ c.rest.length → ∃ p, r c = .ok p) :
    CutsAt short r where
  shrinks c a d h := by
    obtain ⟨n, -, hlength, -⟩ := hreads c a d h
    omega
  cuts more c a d h := by
    obtain ⟨n, -, hlength, rfl⟩ := hreads _ a d h
    have hlength : (c.rest ++ more).length = d.rest.length + n := hlength
    rw [List.length_append] at hlength
    rcases hcuts more c _ h with ⟨⟨b, d'⟩, hr, heq⟩ | ⟨e, hr, he⟩
    · cases heq
      exact .inl ⟨d', hr, rfl⟩
    · refine .inr ⟨?_, e, hr, he⟩
      by_contra hfits
      obtain ⟨p, hp⟩ := henough c (by omega)
      rw [hr] at hp
      cases hp

theorem cutsAt_ofExcept (x : Except ε α) : CutsAt short (ofExcept x) where
  shrinks c a d h := by
    obtain ⟨b, -, hpair⟩ := map_eq_ok h
    cases hpair
    exact Nat.le_refl _
  cuts more c a d h := by
    obtain ⟨b, hx, hpair⟩ := map_eq_ok h
    cases hpair
    refine .inl ⟨c, ?_, rfl⟩
    rw [ofExcept, hx]
    rfl

theorem cutsAt_pure (a : α) : CutsAt short (pure a) := cutsAt_ofExcept (.ok a)

theorem cutsAt_throw (e : ε) : CutsAt short (throw e : Reader ε α) := cutsAt_ofExcept (.error e)

theorem CutsAt.bind {r : Reader ε α} {f : α → Reader ε β} (h : CutsAt short r)
    (hf : ∀ a, CutsAt short (f a)) : CutsAt short (r >>= f) where
  shrinks c b d hrun := by
    obtain ⟨⟨a, c₁⟩, hr, hrest⟩ := bind_eq_ok.mp hrun
    exact ((hf a).shrinks c₁ b d hrest).trans (h.shrinks c a c₁ hr)
  cuts more c b d hrun := by
    obtain ⟨⟨a, c₁⟩, hr, hrest⟩ := bind_eq_ok.mp hrun
    rcases h.cuts more c a c₁ hr with ⟨c₂, hr', rfl⟩ | ⟨hlong, e, hr', he⟩
    · rcases (hf a).cuts more c₂ b d hrest with ⟨d', hrest', rfl⟩ | ⟨hlong, e, hrest', he⟩
      · exact .inl ⟨d', bind_eq_ok.mpr ⟨(a, c₂), hr', hrest'⟩, rfl⟩
      · refine .inr ⟨hlong, e, ?_, he⟩
        change (r c >>= fun p => f p.1 p.2) = _
        rw [hr']
        exact hrest'
    · -- What runs short in front stays short, since what follows gives nothing back.
      refine .inr ⟨((hf a).shrinks c₁ b d hrest).trans_lt hlong, e, ?_, he⟩
      change (r c >>= fun p => f p.1 p.2) = _
      rw [hr']
      rfl

theorem CutsAt.map {r : Reader ε α} (h : CutsAt short r) (f : α → β) : CutsAt short (f <$> r) := by
  rw [map_eq_pure_bind]
  exact h.bind fun a => cutsAt_pure (f a)

theorem CutsAt.mapError {r : Reader ε α} (h : CutsAt short r) {f : ε → ε'}
    (hf : ∀ e, short e → short' (f e)) : CutsAt short' (r.mapError f) where
  shrinks c a d hrun := h.shrinks c a d (mapError_eq_ok hrun)
  cuts more c a d hrun := by
    rcases h.cuts more c a d (mapError_eq_ok hrun) with ⟨d', hr, rfl⟩ | ⟨hlong, e, hr, he⟩
    · refine .inl ⟨d', ?_, rfl⟩
      rw [Reader.mapError, hr]
      rfl
    · refine .inr ⟨hlong, f e, ?_, hf e he⟩
      rw [Reader.mapError, hr]
      rfl

theorem CutsAt.listFrom {r : Nat → Reader ε α} (h : ∀ i, CutsAt short (r i)) (i n : Nat) :
    CutsAt short (listFrom r i n) := by
  induction n generalizing i with
  | zero => exact cutsAt_pure []
  | succ n ih => exact (h i).bind fun a => (ih (i + 1)).bind fun as => cutsAt_pure (a :: as)

/-- A reader may use where it stands, as long as it does not look at what is left. -/
theorem cutsAt_get {f : Cursor → Reader ε α} (h : ∀ c, CutsAt short (f c))
    (hf : ∀ more c, f (c.followedBy more) = f c) : CutsAt short (get >>= f) where
  shrinks c a d hrun := (h c).shrinks c a d hrun
  cuts more c a d hrun := by
    have hrun : f (c.followedBy more) (c.followedBy more) = .ok (a, d) := hrun
    rw [hf] at hrun
    exact (h c).cuts more c a d hrun

end Reader

namespace Cursor

open Reader

theorem cutsAt_u8 : CutsAt (fun _ => True) u8 := by
  refine cutsAt_of_width reads_u8 cutsShort_u8 ?_
  rintro ⟨_ | ⟨a, rest⟩, o⟩ h
  · simp at h
  · exact ⟨_, rfl⟩

theorem cutsAt_u16 : CutsAt (fun _ => True) u16 := by
  refine cutsAt_of_width reads_u16 cutsShort_u16 ?_
  rintro ⟨_ | ⟨a, _ | ⟨b, rest⟩⟩, o⟩ h
  iterate 2 simp at h
  exact ⟨_, rfl⟩

theorem cutsAt_u32 : CutsAt (fun _ => True) u32 := by
  refine cutsAt_of_width reads_u32 cutsShort_u32 ?_
  rintro ⟨_ | ⟨a, _ | ⟨b, _ | ⟨d, _ | ⟨e, rest⟩⟩⟩⟩, o⟩ h
  iterate 4 simp at h
  exact ⟨_, rfl⟩

theorem cutsAt_take (n : Nat) : CutsAt (fun _ => True) (take n) := by
  refine cutsAt_of_width (reads_take n) (cutsShort_take n) fun c h => ⟨_, if_pos ?_⟩
  exact List.length_take_of_le h

theorem cutsAt_i8 : CutsAt (fun _ => True) i8 := cutsAt_u8.map _

theorem cutsAt_i16 : CutsAt (fun _ => True) i16 := cutsAt_u16.map _

theorem cutsAt_i32 : CutsAt (fun _ => True) i32 := cutsAt_u32.map _

end Cursor

/-! ## Operands -/

namespace Instruction

open Reader

/-- The error says that bytes are missing. -/
def Error.Truncated (e : Error) : Prop := .truncated ∈ e.causes

theorem cutsAt_operand {α : Type} {r : Reader Shortage α} (h : CutsAt (fun _ => True) r)
    (name : Text) (offset : Nat) : CutsAt Error.Truncated (operand name offset r) :=
  h.mapError fun _ _ => List.mem_singleton_self _

theorem cutsAt_resolve {α : Type} (name : Text) (offset : Nat) (x : Except Pool.Error α) :
    CutsAt Error.Truncated (resolve name offset x) := cutsAt_ofExcept _

theorem cutsAt_constant (pool : Pool) (opcode : UInt8) (offset : Nat) (index : PoolIndex) :
    CutsAt Error.Truncated (constant pool opcode offset index) := by
  refine (cutsAt_resolve _ _ _).bind fun e => ?_
  split
  · exact cutsAt_pure _
  · exact cutsAt_pure _
  · exact cutsAt_throw _

theorem cutsAt_wideConstant (pool : Pool) (opcode : UInt8) (offset : Nat) (index : PoolIndex) :
    CutsAt Error.Truncated (wideConstant pool opcode offset index) := by
  refine (cutsAt_resolve _ _ _).bind fun e => ?_
  split
  · exact cutsAt_pure _
  · exact cutsAt_pure _
  · exact cutsAt_throw _

/-- The items of a switch run short where their count says so, before the first of them is read. -/
theorem cutsAt_switchItems {α : Type} {r : Reader Shortage α} {size : Nat}
    (hreads : Reads r fun _ n => n = size) (hcuts : CutsAt (fun _ => True) r) (name what : Text)
    (offset count : Nat) :
    CutsAt Error.Truncated (switchItems name what offset count size r) where
  shrinks c as d h := by
    obtain ⟨n, -, hlength, -⟩ := reads_switchItems hreads name what offset count c as d h
    omega
  cuts more c as d h := by
    obtain ⟨n, -, hlength, -, hn⟩ :=
      reads_switchItems hreads name what offset count (c.followedBy more) as d h
    have hlength : (c.rest ++ more).length = d.rest.length + n := hlength
    rw [List.length_append] at hlength
    unfold switchItems at h ⊢
    split at h
    · cases h
    · by_cases hshort : (c.rest.take (count * size)).length < count * size
      · rw [if_pos hshort]
        rw [List.length_take] at hshort
        rw [Nat.mul_comm] at hn
        exact .inr ⟨by omega, _, rfl, List.mem_singleton_self _⟩
      · rw [if_neg hshort]
        exact (cutsAt_operand (.listFrom (fun _ => hcuts) 0 count) name offset).cuts more c as d h

theorem cutsAt_tableSwitch (offset : Nat) : CutsAt Error.Truncated (tableSwitch offset) := by
  refine (cutsAt_operand ?_ _ _).bind ?_
  · refine (Cursor.cutsAt_take _).bind fun _ => ?_
    refine Cursor.cutsAt_i32.bind fun default => ?_
    refine Cursor.cutsAt_i32.bind fun low => ?_
    exact Cursor.cutsAt_i32.bind fun high => cutsAt_pure _
  · rintro ⟨default, low, high⟩
    dsimp only
    split
    · exact cutsAt_throw _
    · exact (cutsAt_switchItems Cursor.reads_i32 Cursor.cutsAt_i32 _ _ _ _).bind fun _ =>
        cutsAt_pure _

theorem cutsAt_lookupPair : CutsAt (fun _ => True) lookupPair :=
  Cursor.cutsAt_i32.bind fun _ => Cursor.cutsAt_i32.bind fun _ => cutsAt_pure _

theorem cutsAt_lookupSwitch (offset : Nat) : CutsAt Error.Truncated (lookupSwitch offset) := by
  refine (cutsAt_operand ?_ _ _).bind ?_
  · refine (Cursor.cutsAt_take _).bind fun _ => ?_
    refine Cursor.cutsAt_i32.bind fun default => ?_
    exact Cursor.cutsAt_i32.bind fun count => cutsAt_pure _
  · rintro ⟨default, count⟩
    dsimp only
    split
    · exact cutsAt_throw _
    · exact (cutsAt_switchItems reads_lookupPair cutsAt_lookupPair _ _ _ _).bind fun _ =>
        cutsAt_pure _

theorem cutsAt_operation (pool : Pool) (offset : Nat) (opcode : UInt8) :
    CutsAt Error.Truncated (operation pool offset opcode) := by
  unfold operation
  dsimp only
  cases layout opcode with
  | plain op => exact cutsAt_pure _
  | byte make => exact (cutsAt_operand Cursor.cutsAt_i8 _ _).map _
  | short make => exact (cutsAt_operand Cursor.cutsAt_i16 _ _).map _
  | word make => exact (cutsAt_operand Cursor.cutsAt_i32 _ _).map _
  | slot make => exact (cutsAt_operand Cursor.cutsAt_u8 _ _).bind fun _ => cutsAt_pure _
  | increment =>
    refine (cutsAt_operand Cursor.cutsAt_u8 _ _).bind fun slot => ?_
    exact (cutsAt_operand Cursor.cutsAt_i8 _ _).bind fun delta => cutsAt_pure _
  | constant8 =>
    exact (cutsAt_operand Cursor.cutsAt_u8 _ _).bind fun index => cutsAt_constant _ _ _ _
  | constant16 =>
    exact (cutsAt_operand Cursor.cutsAt_u16 _ _).bind fun index => cutsAt_constant _ _ _ _
  | wideConstant =>
    exact (cutsAt_operand Cursor.cutsAt_u16 _ _).bind fun index => cutsAt_wideConstant _ _ _ _
  | field make =>
    exact (cutsAt_operand Cursor.cutsAt_u16 _ _).bind fun index => (cutsAt_resolve _ _ _).map _
  | method =>
    exact (cutsAt_operand Cursor.cutsAt_u16 _ _).bind fun index => (cutsAt_resolve _ _ _).map _
  | tableSwitch => exact cutsAt_tableSwitch offset
  | lookupSwitch => exact cutsAt_lookupSwitch offset
  | unsupported reason => exact cutsAt_throw _

theorem cutsAt_wideOperation (offset : Nat) (opcode : UInt8) :
    CutsAt Error.Truncated (wideOperation offset opcode) := by
  unfold wideOperation
  dsimp only
  cases layout opcode with
  | slot make => exact (cutsAt_operand Cursor.cutsAt_u16 _ _).map _
  | increment =>
    refine (cutsAt_operand Cursor.cutsAt_u16 _ _).bind fun slot => ?_
    exact (cutsAt_operand Cursor.cutsAt_i16 _ _).bind fun delta => cutsAt_pure _
  | _ => exact cutsAt_throw _

/-- An instruction that is there as a whole is read as before, and one that is cut off is missed. -/
theorem cutsAt_next (pool : Pool) : CutsAt Error.Truncated (next pool) := by
  have hfirst : CutsAt Error.Truncated (Cursor.u8.mapError Error.noOpcode) :=
    Cursor.cutsAt_u8.mapError fun _ _ => List.mem_singleton_self _
  refine cutsAt_get (fun start => hfirst.bind fun first => ?_) fun _ _ => rfl
  split
  · refine (cutsAt_operand Cursor.cutsAt_u8 _ _).bind fun opcode => ?_
    refine (cutsAt_wideOperation start.offset opcode).bind fun op => ?_
    exact cutsAt_get (fun _ => cutsAt_pure _) fun _ _ => rfl
  · refine (cutsAt_operation pool start.offset first).bind fun op => ?_
    exact cutsAt_get (fun _ => cutsAt_pure _) fun _ _ => rfl

/-! ## Whole bodies -/

/-- Where an instruction ends. -/
def stop (i : Instruction) : Nat := i.offset + i.size

/-- The instructions that end at `k` or before. -/
def upTo (k : Nat) (is : List Instruction) : List Instruction := is.filter fun i => i.stop ≤ k

/-- Whether a cut at `k` falls in front of all instructions, which start at `a`, or right behind
one of them. -/
def Boundary (a : Nat) (is : List Instruction) (k : Nat) : Prop := k = a ∨ ∃ i ∈ is, i.stop = k

theorem Tiles.lt_stop {a b : Nat} {is : List Instruction} (h : Tiles a b is) {i : Instruction}
    (hi : i ∈ is) : a < i.stop := by
  induction is generalizing a with
  | nil => cases hi
  | cons j is ih =>
    obtain ⟨hoffset, hsize, -, hrest⟩ := h
    rcases List.mem_cons.mp hi with rfl | hi
    · unfold stop
      omega
    · have := ih hrest hi
      omega

theorem Tiles.upTo_start {a b : Nat} {is : List Instruction} (h : Tiles a b is) : upTo a is = [] :=
  List.filter_eq_nil_iff.mpr fun i hi => by
    have := h.lt_stop hi
    simpa using this

theorem boundary_cons {a b k : Nat} {i : Instruction} {is : List Instruction} (hstop : i.stop = b)
    (hk : k ≠ a) : Boundary a (i :: is) k ↔ Boundary b is k := by
  unfold Boundary
  rw [List.exists_mem_cons_iff, hstop]
  exact ⟨fun h => h.elim (fun h => (hk h).elim) (Or.imp_left Eq.symm),
    fun h => .inr (h.imp_left Eq.symm)⟩

theorem decodeFrom_nil {pool : Pool} {done : Array Instruction} {c : Cursor} (h : c.rest = [])
    (fuel : Nat) : decodeFrom pool done fuel c = .ok done := by
  cases fuel with
  | zero => rfl
  | succ fuel => rw [decodeFrom, h]

theorem decodeFrom_cons {pool : Pool} {done : Array Instruction} {c : Cursor} (h : c.rest ≠ [])
    (fuel : Nat) : decodeFrom pool done (fuel + 1) c =
      match next pool c with
      | .error e => .error e
      | .ok (i, d) => decodeFrom pool (done.push i) fuel d := by
  rw [decodeFrom]
  split
  · contradiction
  · rfl

/-- What the bytes left in `c` are decoded to, where `is` are the instructions that stand there
without the cut behind `c`: those in front of the cut, or nothing if it goes through one. -/
structure CutLeaves (pool : Pool) (done : Array Instruction) (fuel : Nat) (c : Cursor)
    (is : List Instruction) : Prop where
  between : Boundary c.offset is (c.offset + c.rest.length) →
    decodeFrom pool done fuel c = .ok (done ++ (upTo (c.offset + c.rest.length) is).toArray)
  through : ¬ Boundary c.offset is (c.offset + c.rest.length) →
    ∃ e, decodeFrom pool done fuel c = .error e ∧ e.Truncated

section

variable {pool : Pool} {done : Array Instruction} {fuel : Nat} {c : Cursor} {b : Nat}
  {is : List Instruction}

/-- A cut in front of all. -/
theorem cutLeaves_nil (hnil : c.rest = []) (h : Tiles c.offset b is) :
    CutLeaves pool done fuel c is where
  between _ := by
    rw [decodeFrom_nil hnil, hnil, List.length_nil, Nat.add_zero, h.upTo_start]
    simp
  through hout := by
    rw [hnil] at hout
    exact (hout (.inl rfl)).elim

/-- A cut that the first instruction comes before. -/
theorem CutLeaves.cons {i : Instruction} {d : Cursor} (hrest : c.rest ≠ [])
    (hi : next pool c = .ok (i, d)) (h : CutLeaves pool (done.push i) fuel d is) :
    CutLeaves pool done (fuel + 1) c (i :: is) := by
  obtain ⟨hoffset, hstop, hlength, -, -⟩ := next_eq_ok hi
  have hpos := List.length_pos_of_ne_nil hrest
  have hcut : c.offset + c.rest.length = d.offset + d.rest.length := by omega
  have hrun : decodeFrom pool done (fuel + 1) c = decodeFrom pool (done.push i) fuel d := by
    rw [decodeFrom_cons hrest, hi]
  have hboundary : Boundary c.offset (i :: is) (d.offset + d.rest.length) ↔
      Boundary d.offset is (d.offset + d.rest.length) := boundary_cons hstop.symm (by omega)
  constructor
  · intro hbetween
    rw [hcut] at hbetween ⊢
    have hfirst : i.stop ≤ d.offset + d.rest.length := by
      unfold stop
      omega
    rw [hrun, h.between (hboundary.mp hbetween)]
    simp [upTo, hfirst]
  · intro hthrough
    rw [hcut] at hthrough
    rw [hrun]
    exact h.through (mt hboundary.mpr hthrough)

/-- A cut through the first instruction. -/
theorem cutLeaves_through {i : Instruction} {e : Error} (hrest : c.rest ≠ [])
    (he : next pool c = .error e) (htruncated : e.Truncated)
    (hlong : c.offset + c.rest.length < i.stop) (h : Tiles i.stop b is) :
    CutLeaves pool done (fuel + 1) c (i :: is) where
  between hbetween := by
    have hpos := List.length_pos_of_ne_nil hrest
    rw [boundary_cons rfl (by omega)] at hbetween
    rcases hbetween with hstart | ⟨j, hj, hstop⟩
    · omega
    · have := h.lt_stop hj
      omega
  through _ := ⟨e, by rw [decodeFrom_cons hrest, he], htruncated⟩

end

/-- With a cut behind `c`, decoding gives what stands in front of the cut. -/
theorem decodeFrom_cut {pool : Pool} {more : Bytes} {fuel fuel' : Nat} {c : Cursor}
    {done instrs : Array Instruction} (hfuel : c.rest.length + more.length ≤ fuel)
    (hfuel' : c.rest.length ≤ fuel')
    (h : decodeFrom pool done fuel (c.followedBy more) = .ok instrs) :
    ∃ is, instrs.toList = done.toList ++ is ∧
      Tiles c.offset (c.offset + (c.rest.length + more.length)) is ∧
      CutLeaves pool done fuel' c is := by
  induction hn : c.rest.length using Nat.strong_induction_on generalizing c done fuel fuel' with
  | _ n ih =>
    subst hn
    have hwhole : (c.followedBy more).rest.length = c.rest.length + more.length :=
      List.length_append
    obtain ⟨is, hinstrs, htiles⟩ := decodeFrom_tiles (hwhole ▸ hfuel) h
    rw [hwhole] at htiles
    by_cases hnil : c.rest = []
    · exact ⟨is, hinstrs, htiles, cutLeaves_nil hnil htiles⟩
    have hpos := List.length_pos_of_ne_nil hnil
    obtain ⟨fuel, rfl⟩ : ∃ m, fuel = m + 1 := ⟨fuel - 1, by omega⟩
    obtain ⟨fuel', rfl⟩ : ∃ m, fuel' = m + 1 := ⟨fuel' - 1, by omega⟩
    rw [decodeFrom_cons (by simp [Cursor.followedBy, hnil])] at h
    split at h
    · cases h
    · next i d hi =>
      obtain ⟨hoffset, hstop, hlength, hsize, hfits⟩ := next_eq_ok hi
      rw [hwhole] at hlength
      have hoffset : i.offset = c.offset := hoffset
      rcases (cutsAt_next pool).cuts more c i d hi with ⟨d, hi', rfl⟩ | ⟨hlong, e, hi', he⟩
      · obtain ⟨-, hstop', hlength', -, -⟩ := next_eq_ok hi'
        have hfuel : d.rest.length + more.length ≤ fuel := by
          rw [Cursor.followedBy, List.length_append] at hlength
          omega
        have hfuel' : d.rest.length ≤ fuel' := by omega
        obtain ⟨js, hjs, hrest, hleaves⟩ := ih d.rest.length (by omega) hfuel hfuel' h rfl
        refine ⟨i :: js, by simp [hjs], ⟨hoffset, hsize, hfits, ?_⟩, hleaves.cons hnil hi'⟩
        rw [hstop', hoffset] at hrest
        convert hrest using 1
        omega
      · obtain ⟨js, hjs, hrest⟩ := decodeFrom_tiles (by omega) h
        have hend : d.offset + d.rest.length = c.offset + (c.rest.length + more.length) := by omega
        rw [hend, hstop] at hrest
        refine ⟨i :: js, by simp [hjs], ⟨hoffset, hsize, hfits, hoffset ▸ hrest⟩, ?_⟩
        refine cutLeaves_through hnil hi' he ?_ hrest
        unfold stop
        omega

/-! ## Instructions and their places -/

/-- The instructions cover the code: they lie one behind the other, none is empty, and the last one
ends where the code does. -/
structure Covers (is : List Instruction) (length : Nat) : Prop where
  first : ∀ i ∈ is.head?, i.offset = 0
  adjacent : is.IsChain fun i j => i.stop = j.offset
  nonempty : ∀ i ∈ is, 1 ≤ i.size
  last : (is.getLast?.map stop).getD 0 = length

theorem Tiles.isChain {a b : Nat} {is : List Instruction} (h : Tiles a b is) :
    (∀ i ∈ is.head?, i.offset = a) ∧ is.IsChain (fun i j => i.stop = j.offset) ∧
      (∀ i ∈ is, 1 ≤ i.size) ∧ (is.getLast?.map stop).getD a = b := by
  induction is generalizing a with
  | nil => exact ⟨nofun, .nil, nofun, h⟩
  | cons i is ih =>
    obtain ⟨hoffset, hsize, -, hrest⟩ := h
    obtain ⟨hfirst, hchain, hsizes, hlast⟩ := ih hrest
    refine ⟨?_, List.isChain_cons.mpr ⟨fun j hj => ?_, hchain⟩,
      List.forall_mem_cons.mpr ⟨hsize, hsizes⟩, ?_⟩
    · rintro j hj
      cases hj
      exact hoffset
    · rw [hfirst j hj, stop, hoffset]
    · rw [List.getLast?_cons, Option.map_some, Option.getD_some]
      cases hend : is.getLast? with
      | none =>
        rw [hend] at hlast
        rw [Option.getD_none, stop, hoffset]
        exact hlast
      | some j =>
        rw [hend] at hlast
        exact hlast

end Instruction

/-- Decoded instructions cover the code. Cut off at a place between two of them, or at either end,
the code is decoded to the instructions in front of the cut; cut off anywhere else, it fails since
bytes are missing. -/
theorem decode_cut {pool : Pool} {code : Bytes} {instrs : Array Instruction}
    (h : decode pool code = .ok instrs) :
    Instruction.Covers instrs.toList code.length ∧
      ∀ k ≤ code.length,
        ((∃ is, decode pool (code.take k) = .ok is) ↔ Instruction.Boundary 0 instrs.toList k) ∧
        (∀ is, decode pool (code.take k) = .ok is →
          is.toList = Instruction.upTo k instrs.toList) ∧
        ∀ e, decode pool (code.take k) = .error e → e.Truncated := by
  obtain ⟨hfirst, hchain, hsizes, hlast⟩ := (decode_tiles h).isChain
  refine ⟨⟨hfirst, hchain, hsizes, hlast⟩, fun k hk => ?_⟩
  have htaken : (code.take k).length = k := List.length_take_of_le hk
  have hwhole : (⟨code, 0⟩ : Cursor) = Cursor.followedBy ⟨code.take k, 0⟩ (code.drop k) := by
    rw [Cursor.followedBy, List.take_append_drop]
  unfold decode at h
  rw [hwhole] at h
  obtain ⟨is, hinstrs, -, hleaves⟩ := Instruction.decodeFrom_cut
    (by rw [← List.length_append, List.take_append_drop]) (Nat.le_refl _) h
  have hinstrs : instrs.toList = is := by simpa using hinstrs
  subst hinstrs
  have hbetween := hleaves.between
  have hthrough := hleaves.through
  rw [Nat.zero_add, htaken] at hbetween hthrough
  have hdecode : decode pool (code.take k) =
      Instruction.decodeFrom pool #[] k ⟨code.take k, 0⟩ := by rw [decode, htaken]
  rw [hdecode]
  by_cases hk : Instruction.Boundary 0 instrs.toList k
  · have hok := hbetween hk
    rw [hok]
    refine ⟨⟨fun _ => hk, fun _ => ⟨_, rfl⟩⟩, fun is his => ?_, nofun⟩
    cases his
    simp
  · obtain ⟨e, he, htruncated⟩ := hthrough hk
    rw [he]
    refine ⟨⟨nofun, fun hk' => (hk hk').elim⟩, nofun, fun e' he' => ?_⟩
    cases he'
    exact htruncated

/-- `iload_0; tableswitch; return`, where two bytes of padding bring the operands of the switch to a
multiple of four. -/
def paddedCode : Bytes :=
  [0x1a, 0xaa, 0, 0, 0, 0, 0, 19, 0, 0, 0, 7, 0, 0, 0, 7, 0, 0, 0, 19, 0xb1]

def paddedInstrs : Array Instruction :=
  #[⟨0, 1, 0x1a, false, .load .int 0⟩, ⟨1, 19, 0xaa, false, .tableSwitch 19 7 [19]⟩,
    ⟨20, 1, 0xb1, false, .ret .void⟩]

theorem decode_paddedCode : decode ⟨#[]⟩ paddedCode = .ok paddedInstrs :=
  ok_of_toOption (by decide +kernel)

/-- Cut off behind the load, the load is left; cut off in the padding, the switch is missed. -/
theorem decode_cut_padded :
    decode ⟨#[]⟩ paddedCode = .ok paddedInstrs ∧
      (∃ is, decode ⟨#[]⟩ (paddedCode.take 1) = .ok is ∧
        is.toList = [⟨0, 1, 0x1a, false, .load .int 0⟩]) ∧
      ∃ e, decode ⟨#[]⟩ (paddedCode.take 3) = .error e ∧ e.Truncated := by
  obtain ⟨-, hcut⟩ := decode_cut decode_paddedCode
  refine ⟨decode_paddedCode, ?_, ?_⟩
  · obtain ⟨hbetween, hkept, -⟩ := hcut 1 (by decide)
    obtain ⟨is, his⟩ := hbetween.mpr (.inr ⟨_, List.mem_cons_self, rfl⟩)
    exact ⟨is, his, hkept is his⟩
  · obtain ⟨hbetween, -, herror⟩ := hcut 3 (by decide)
    have hthrough : ¬ ∃ is, decode ⟨#[]⟩ (paddedCode.take 3) = .ok is := by
      rw [hbetween]
      simp [Instruction.Boundary, Instruction.stop, paddedInstrs]
    obtain ⟨e, he⟩ := exists_error_iff.mpr hthrough
    exact ⟨e, he, herror e he⟩

end ClassWasm
