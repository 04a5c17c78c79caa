/-
  Reading a pool on demand gives what reading all of it and checking it afterwards gives.

  The reader checks an entry as soon as it has it, and for that it may have to read further entries,
  each of which is checked in turn. `fill` bounds this recursion, but the bound never decides: with
  as many steps as there are empty slots, `fill` is the only solution of the recursion without a
  bound (`eq_advance_iff`). Whatever the order of checks, entries come in the order of the file, and
  what has been resolved stays resolved while the pool grows (`fill_reads`). Conversely, where the
  whole pool is resolved, no check fails on the way to it (`fill_completes`).
-/
import ClassWasm.ConstantPool.Reader
import ClassWasm.Proofs.Results

namespace ClassWasm

theorem Entry.length_slots_pos (e : Entry) : 0 < e.slots.length := by
  unfold slots
  split <;> simp

namespace Pool

/-! ## All entries, and then their references -/

/-- The entries between two cursors, each of them behind its tag. -/
inductive InOrder : Cursor → List Entry → Cursor → Prop
  | nil (c : Cursor) : InOrder c [] c
  | cons {c c₁ c₂ c' : Cursor} {code : UInt8} {e : Entry} {es : List Entry} :
    Cursor.u8 c = .ok (code, c₁) → Entry.read ⟨code⟩ c₁ = .ok (e, c₂) → InOrder c₂ es c' →
    InOrder c (e :: es) c'

/-- The pool that holds the entries in order. -/
def ofEntries (es : List Entry) : Pool := ⟨(none :: es.flatMap Entry.slots).toArray⟩

/-- The required index leads to an entry with one of the required tags. -/
def Meets (p : Pool) (r : Entry.Requirement) : Prop :=
  ∃ e, p.get r.index = .ok e ∧ e.tag ∈ r.tags

/-- All that the entry requires is there. -/
def Resolves (p : Pool) (e : Entry) : Prop :=
  ∃ rs, e.requirements? = some rs ∧ ∀ r ∈ rs, p.Meets r

/-- What a pool is when it is read in two passes: first the number of slots and entries that fill
exactly so many, then a check of all that the entries require. -/
def ReadsInPasses (c : Cursor) (p : Pool) (c' : Cursor) : Prop :=
  ∃ count c₁ es, Cursor.u16 c = .ok (count, c₁) ∧ 1 ≤ count.toNat ∧ InOrder c₁ es c' ∧
    p = ofEntries es ∧ p.size = count.toNat ∧ ∀ e ∈ es, p.Resolves e

theorem InOrder.append {c c₁ c₂ : Cursor} {es fs : List Entry} (h : InOrder c es c₁)
    (h' : InOrder c₁ fs c₂) : InOrder c (es ++ fs) c₂ := by
  induction h with
  | nil => exact h'
  | cons htag hread _ ih => exact .cons htag hread (ih h')

/-! ## Pools that grow -/

theorem push_slots (p : Pool) (e : Entry) :
    (p.push e).slots.toList = p.slots.toList ++ e.slots := by
  unfold push Entry.slots
  split <;> simp

theorem size_lt_push (p : Pool) (e : Entry) : p.size < (p.push e).size := by
  have hlength := congrArg List.length (push_slots p e)
  have hpos := e.length_slots_pos
  simp only [Array.length_toList, List.length_append] at hlength
  unfold size
  omega

theorem get_eq_ok {p : Pool} {index : PoolIndex} {e : Entry} :
    p.get index = .ok e ↔ index ≠ 0 ∧ p.slots.toList[index.toNat]? = some (some e) := by
  unfold get
  rw [Array.getElem?_toList]
  split
  · next h => exact ⟨nofun, fun h' => absurd h h'.1⟩
  · next h =>
    split
    · next e' he =>
      rw [he]
      refine ⟨fun h' => ?_, fun h' => ?_⟩
      · cases h'
        exact ⟨h, rfl⟩
      · cases h'.2
        rfl
    · next hne =>
      refine ⟨nofun, fun h' => ?_⟩
      exact absurd h'.2 (hne e)

theorem expect_of_get {p : Pool} {i : PoolIndex} {e : Entry} {tags : List Tag}
    (h : p.get i = .ok e) (htag : e.tag ∈ tags) : p.expect i tags = .ok e := by
  unfold expect
  rw [h]
  exact if_pos htag

theorem meets_iff_expect {p : Pool} {r : Entry.Requirement} :
    p.Meets r ↔ ∃ e, p.expect r.index r.tags = .ok e := by
  unfold Meets expect
  cases p.get r.index with
  | error reason => exact ⟨fun ⟨_, h, _⟩ => (nomatch h), fun ⟨_, h⟩ => (nomatch h)⟩
  | ok e =>
    dsimp only
    split
    · next htag => exact ⟨fun _ => ⟨e, rfl⟩, fun _ => ⟨e, rfl, htag⟩⟩
    · next htag =>
      refine ⟨fun ⟨_, h, htag'⟩ => ?_, fun ⟨_, h⟩ => (nomatch h)⟩
      cases h
      exact absurd htag' htag

/-- What is resolved stays so when slots are added. -/
theorem Meets.mono {p q : Pool} {r : Entry.Requirement} (h : p.Meets r)
    (hpq : p.slots.toList <+: q.slots.toList) : q.Meets r := by
  obtain ⟨e, he, htag⟩ := h
  obtain ⟨hne, he⟩ := get_eq_ok.mp he
  obtain ⟨more, hmore⟩ := hpq
  refine ⟨e, get_eq_ok.mpr ⟨hne, ?_⟩, htag⟩
  rw [← hmore, List.getElem?_append_left (List.getElem?_eq_some_iff.mp he).1, he]

theorem Meets.index_lt {p : Pool} {r : Entry.Requirement} (h : p.Meets r) :
    r.index.toNat < p.size := by
  obtain ⟨e, he, -⟩ := h
  exact (List.getElem?_eq_some_iff.mp (get_eq_ok.mp he).2).1

theorem Resolves.mono {p q : Pool} {e : Entry} (h : p.Resolves e)
    (hpq : p.slots.toList <+: q.slots.toList) : q.Resolves e := by
  obtain ⟨rs, hrs, hmeets⟩ := h
  exact ⟨rs, hrs, fun r hr => (hmeets r hr).mono hpq⟩

/-- Slots that are there already show what will be in them. -/
theorem Meets.restrict {p q : Pool} {r : Entry.Requirement} (h : q.Meets r)
    (hpq : p.slots.toList <+: q.slots.toList) (hlt : r.index.toNat < p.size) : p.Meets r := by
  obtain ⟨e, he, htag⟩ := h
  obtain ⟨hne, he⟩ := get_eq_ok.mp he
  obtain ⟨more, hmore⟩ := hpq
  refine ⟨e, get_eq_ok.mpr ⟨hne, ?_⟩, htag⟩
  rwa [← hmore, List.getElem?_append_left hlt] at he

namespace Filling

/-- `es` have been read on the way from `f` to `f'`. -/
structure Grows (f : Filling) (es : List Entry) (f' : Filling) : Prop where
  count : f'.count = f.count
  slots : f'.pool.slots.toList = f.pool.slots.toList ++ es.flatMap Entry.slots
  inOrder : InOrder f.cursor es f'.cursor
  bounded : f.pool.size ≤ f.count → f'.pool.size ≤ f'.count

/-- Entries have been read on the way from `f` to `f'`, and all that they require is there. -/
def Reads (f f' : Filling) : Prop :=
  ∃ es, f.Grows es f' ∧ ∀ e ∈ es, f'.pool.Resolves e

section

variable {f f' f'' : Filling} {es fs : List Entry}

theorem Grows.subset (h : f.Grows es f') : f.pool.slots.toList <+: f'.pool.slots.toList :=
  ⟨_, h.slots.symm⟩

theorem Grows.size_le (h : f.Grows es f') : f.pool.size ≤ f'.pool.size := by
  simpa [Pool.size] using h.subset.length_le

theorem Grows.trans (h : f.Grows es f') (h' : f'.Grows fs f'') : f.Grows (es ++ fs) f'' where
  count := h'.count.trans h.count
  slots := by rw [h'.slots, h.slots, List.flatMap_append, List.append_assoc]
  inOrder := h.inOrder.append h'.inOrder
  bounded hf := h'.bounded (h.bounded hf)

theorem Reads.refl (f : Filling) : f.Reads f :=
  ⟨[], ⟨rfl, by simp, .nil _, id⟩, nofun⟩

theorem Reads.trans (h : f.Reads f') (h' : f'.Reads f'') : f.Reads f'' := by
  obtain ⟨es, hgrows, hes⟩ := h
  obtain ⟨fs, hgrows', hfs⟩ := h'
  refine ⟨es ++ fs, hgrows.trans hgrows', fun e he => ?_⟩
  rcases List.mem_append.mp he with he | he
  · exact (hes e he).mono hgrows'.subset
  · exact hfs e he

/-- The next entry, and where it leads. -/
theorem next_eq_ok {own : Nat} {e : Entry} : f.next = .ok (own, e, f') ↔
    ∃ code c, Cursor.u8 f.cursor = .ok (code, c) ∧ Entry.read ⟨code⟩ c = .ok (e, f'.cursor) ∧
      (f.pool.push e).size ≤ f.count ∧ own = f.pool.size ∧
      f' = ⟨f.count, f.pool.push e, f'.cursor⟩ := by
  unfold next
  constructor
  · intro h
    obtain ⟨⟨code, c⟩, hcode, h⟩ := bind_eq_ok.mp h
    obtain ⟨⟨e', c'⟩, he, h⟩ := bind_eq_ok.mp h
    dsimp only at h he
    split at h
    · cases h
    · next hroom =>
      cases h
      exact ⟨code, c, mapError_eq_ok hcode, mapError_eq_ok he, by omega, rfl, rfl⟩
  · rintro ⟨code, c, hcode, he, hroom, rfl, hf'⟩
    simp only [hcode, he, Except.mapError, bind, Except.bind]
    rw [if_neg (by omega), ← hf']

theorem next_grows {own : Nat} {e : Entry} (h : f.next = .ok (own, e, f')) : f.Grows [e] f' := by
  obtain ⟨code, c, hcode, he, hroom, -, hf'⟩ := next_eq_ok.mp h
  rw [hf']
  refine ⟨rfl, ?_, .cons hcode he (.nil _), fun _ => hroom⟩
  rw [push_slots]
  simp

end

/-! ## The recursion -/

/-- Reads on until the slot at `index` is filled or all slots are, and leaves further entries to
`await`. -/
def advance (await : Nat → Filling → Except Error Filling) (index : Nat) (f : Filling) :
    Except Error Filling :=
  if f.pool.size ≤ index ∧ f.pool.size < f.count then
    match f.next with
    | .error reason => .error reason
    | .ok (own, e, f') =>
      match check await e f' with
      | .error reason => .error (.invalidEntry own e.tag reason)
      | .ok f' => await index f'
  else .ok f

/-- The number of empty slots. -/
def room (f : Filling) : Nat := f.count - f.pool.size

section

variable {await : Nat → Filling → Except Error Filling} {f f' : Filling} {index : Nat}

theorem fill_succ (n : Nat) : fill (n + 1) = advance (fill n) := rfl

/-- Either there is nothing to read, or an entry is read, all that it requires is found, and reading
goes on from there. -/
theorem advance_eq_ok : advance await index f = .ok f' ↔
    (f.pool.size ≤ index ∧ f.pool.size < f.count ∧ ∃ own e g g', f.next = .ok (own, e, g) ∧
      check await e g = .ok g' ∧ await index g' = .ok f') ∨
    (¬ (f.pool.size ≤ index ∧ f.pool.size < f.count) ∧ f' = f) := by
  unfold advance
  constructor
  · intro h
    split at h
    · next hgo =>
      split at h
      · cases h
      · next own e g hnext =>
        split at h
        · cases h
        · next g' hcheck => exact .inl ⟨hgo.1, hgo.2, own, e, g, g', hnext, hcheck, h⟩
    · next hstop =>
      cases h
      exact .inr ⟨hstop, rfl⟩
  · rintro (⟨hindex, hcount, own, e, g, g', hnext, hcheck, hawait⟩ | ⟨hstop, rfl⟩)
    · rw [if_pos ⟨hindex, hcount⟩, hnext]
      dsimp only
      rw [hcheck]
      exact hawait
    · rw [if_neg hstop]

theorem require_reads {r : Entry.Requirement}
    (hawait : ∀ index f f', await index f = .ok f' → f.Reads f') (h : require await f r = .ok f') :
    f.Reads f' ∧ f'.pool.Meets r := by
  unfold require at h
  split at h
  · cases h
  · next g hg =>
    obtain ⟨e, he, rfl⟩ := map_eq_ok h
    exact ⟨hawait _ _ _ hg, meets_iff_expect.mpr ⟨e, he⟩⟩

theorem requireAll_reads {rs : List Entry.Requirement}
    (hawait : ∀ index f f', await index f = .ok f' → f.Reads f')
    (h : rs.foldlM (require await) f = .ok f') :
    f.Reads f' ∧ ∀ r ∈ rs, f'.pool.Meets r := by
  induction rs generalizing f with
  | nil =>
    cases h
    exact ⟨.refl _, nofun⟩
  | cons r rs ih =>
    obtain ⟨g, hg, h⟩ := bind_eq_ok.mp h
    obtain ⟨hfg, hr⟩ := require_reads hawait hg
    obtain ⟨⟨es, hgrows, hes⟩, hrs⟩ := ih h
    refine ⟨hfg.trans ⟨es, hgrows, hes⟩, fun r' hr' => ?_⟩
    rcases List.mem_cons.mp hr' with rfl | hr'
    · exact hr.mono hgrows.subset
    · exact hrs r' hr'

theorem check_eq {e : Entry} {rs : List Entry.Requirement} (h : e.requirements? = some rs) :
    check await e f = rs.foldlM (require await) f := by
  unfold check
  rw [h]

/-- Only method handles can be of a kind for which nothing is known to be required. -/
theorem requirements_of_check {e : Entry} (h : check await e f = .ok f') :
    ∃ rs, e.requirements? = some rs := by
  cases hrs : e.requirements? with
  | some rs => exact ⟨rs, rfl⟩
  | none =>
    cases e with
    | methodHandle kind reference =>
      unfold check at h
      rw [hrs] at h
      cases h
    | _ => cases hrs

theorem check_reads {e : Entry} (hawait : ∀ index f f', await index f = .ok f' → f.Reads f')
    (h : check await e f = .ok f') : f.Reads f' ∧ f'.pool.Resolves e := by
  obtain ⟨rs, hrs⟩ := requirements_of_check h
  rw [check_eq hrs] at h
  obtain ⟨hreads, hmeets⟩ := requireAll_reads hawait h
  exact ⟨hreads, rs, hrs, hmeets⟩

theorem advance_reads (hawait : ∀ index f f', await index f = .ok f' → f.Reads f')
    (h : advance await index f = .ok f') : f.Reads f' := by
  rcases advance_eq_ok.mp h with ⟨-, -, own, e, g, g', hnext, hcheck, hrest⟩ | ⟨-, rfl⟩
  · obtain ⟨⟨es, hgrows, hes⟩, he⟩ := check_reads hawait hcheck
    have hfirst : f.Reads g' := by
      refine ⟨_, (next_grows hnext).trans hgrows, fun e' he' => ?_⟩
      rcases List.mem_cons.mp he' with rfl | he'
      · exact he
      · exact hes e' he'
    exact hfirst.trans (hawait _ _ _ hrest)
  · exact .refl _

/-- Entries come in order, and all that they require is there at the end. -/
theorem fill_reads {n : Nat} (h : fill n index f = .ok f') : f.Reads f' := by
  induction n generalizing index f f' with
  | zero =>
    cases h
    exact .refl f
  | succ n ih => exact advance_reads (fun _ _ _ => ih) h

/-! ## The recursion ends -/

theorem Reads.room_le (h : f.Reads f') : f'.room ≤ f.room := by
  obtain ⟨es, hgrows, -⟩ := h
  have hcount := hgrows.count
  have hsize := hgrows.size_le
  unfold room
  omega

theorem room_lt_of_next {own : Nat} {e : Entry} (h : f.next = .ok (own, e, f')) :
    f'.room < f.room := by
  obtain ⟨code, c, -, -, hroom, -, hf'⟩ := next_eq_ok.mp h
  have hlt := size_lt_push f.pool e
  rw [hf']
  unfold room
  dsimp only
  omega

theorem advance_of_full (h : f.room = 0) : advance await index f = .ok f := by
  unfold advance
  unfold room at h
  rw [if_neg (by omega)]

/-- Ways of reading on that agree where fewer than `k` slots are empty make the same checks
there. -/
theorem requireAll_congr {n k : Nat} {rs : List Entry.Requirement}
    (hagree : ∀ index g, g.room < k → await index g = fill n index g) (hf : f.room < k) :
    rs.foldlM (require await) f = rs.foldlM (require (fill n)) f := by
  induction rs generalizing f with
  | nil => rfl
  | cons r rs ih =>
    have hrequire : require await f r = require (fill n) f r := by
      unfold require
      rw [hagree _ f hf]
    rw [List.foldlM_cons, List.foldlM_cons, hrequire]
    cases hg : require (fill n) f r with
    | error reason => rfl
    | ok g =>
      obtain ⟨hreads, -⟩ := require_reads (fun _ _ _ => fill_reads) hg
      exact ih (hreads.room_le.trans_lt hf)

theorem check_congr {n k : Nat} {e : Entry}
    (hagree : ∀ index g, g.room < k → await index g = fill n index g) (hf : f.room < k) :
    check await e f = check (fill n) e f := by
  unfold check
  split
  · exact requireAll_congr hagree hf
  · rfl
  · rfl

theorem advance_congr {n : Nat}
    (hagree : ∀ index g, g.room < f.room → await index g = fill n index g) :
    advance await index f = advance (fill n) index f := by
  unfold advance
  split
  · cases hnext : f.next with
    | error reason => rfl
    | ok result =>
      obtain ⟨own, e, g⟩ := result
      have hg := room_lt_of_next hnext
      dsimp only
      rw [check_congr hagree hg]
      cases hg' : check (fill n) e g with
      | error reason => rfl
      | ok g' =>
        obtain ⟨hreads, -⟩ := check_reads (fun _ _ _ => fill_reads) hg'
        exact hagree index g' (hreads.room_le.trans_lt hg)
  · rfl

/-- Reading on reaches the slot, or the end. -/
theorem fill_reaches {n : Nat} (hf : f.room ≤ n) (h : fill n index f = .ok f') :
    index < f'.pool.size ∨ f'.room = 0 := by
  induction n generalizing f with
  | zero =>
    cases h
    exact .inr (by omega)
  | succ n ih =>
    rcases advance_eq_ok.mp h with ⟨-, -, own, e, g, g', hnext, hcheck, hrest⟩ | ⟨hstop, rfl⟩
    · have hlt := room_lt_of_next hnext
      have hle := (check_reads (fun _ _ _ => fill_reads) hcheck).1.room_le
      exact ih (by omega) hrest
    · unfold room
      omega

/-- Where the bound is not below the number of empty slots, it does not matter. -/
theorem fill_congr {n m : Nat} (hn : f.room ≤ n) (hm : f.room ≤ m) :
    fill n index f = fill m index f := by
  induction m generalizing n index f with
  | zero =>
    cases n with
    | zero => rfl
    | succ n => exact advance_of_full (by omega)
  | succ m ih =>
    cases n with
    | zero => exact (advance_of_full (by omega)).symm
    | succ n => exact advance_congr fun index g hg => ih (by omega) (by omega)

theorem eq_fill_of_eq_advance (h : await = advance await) {n : Nat} (hf : f.room ≤ n) :
    await index f = fill n index f := by
  induction n generalizing index f with
  | zero =>
    rw [h, advance_of_full (by omega)]
    rfl
  | succ n ih =>
    rw [h, fill_succ]
    exact advance_congr fun index g hg => ih (by omega)

/-- The recursion without a bound has one solution. -/
theorem eq_advance_iff : await = advance await ↔ await = fun index f => fill f.room index f := by
  constructor
  · intro h
    funext index f
    exact eq_fill_of_eq_advance h le_rfl
  · rintro rfl
    funext index f
    cases hroom : f.room with
    | zero =>
      rw [advance_of_full hroom]
      rfl
    | succ n =>
      refine (advance_congr fun index g hg => ?_).symm
      exact fill_congr le_rfl (by omega)

/-! ## No check fails on the way to a resolved pool -/

/-- The entries that are left lead from `f` to the pool `p` and the cursor `c`. -/
def Toward (p : Pool) (c : Cursor) (f : Filling) : Prop :=
  ∃ es, p.slots.toList = f.pool.slots.toList ++ es.flatMap Entry.slots ∧ InOrder f.cursor es c ∧
    p.size = f.count

variable {p : Pool} {c : Cursor}

theorem Toward.subset (h : Toward p c f) : f.pool.slots.toList <+: p.slots.toList := by
  obtain ⟨es, hes, -⟩ := h
  exact ⟨_, hes.symm⟩

theorem Toward.eq_of_full (h : Toward p c f) (hfull : f.room = 0) : f.pool = p ∧ f.cursor = c := by
  obtain ⟨es, hes, horder, hcount⟩ := h
  have hlength := congrArg List.length hes
  simp only [Array.length_toList, List.length_append] at hlength
  unfold room at hfull
  cases horder with
  | nil =>
    rw [List.flatMap_nil, List.append_nil] at hes
    exact ⟨congrArg Pool.mk (Array.toList_inj.mp hes.symm), rfl⟩
  | @cons _ _ _ _ _ e es _ _ _ =>
    have hpos := Entry.length_slots_pos e
    unfold size at hcount hfull
    simp only [List.flatMap_cons, List.length_append] at hlength
    omega

theorem Toward.next (h : Toward p c f) (hroom : 0 < f.room) :
    ∃ own e f', f.next = .ok (own, e, f') ∧ Toward p c f' ∧ some e ∈ p.slots.toList := by
  obtain ⟨es, hes, horder, hcount⟩ := h
  cases horder with
  | nil =>
    have : p.size = f.pool.size := by
      simpa [size] using congrArg List.length hes
    unfold room at hroom
    omega
  | @cons _ c₁ c₂ _ code e es hcode he horder =>
    have hslots : p.slots.toList = (f.pool.push e).slots.toList ++ es.flatMap Entry.slots := by
      rw [hes, push_slots]
      simp
    have hsize : (f.pool.push e).size ≤ f.count := by
      have := congrArg List.length hslots
      unfold size at hcount ⊢
      simp only [Array.length_toList, List.length_append] at this
      omega
    refine ⟨f.pool.size, e, ⟨f.count, f.pool.push e, c₂⟩, ?_, ⟨es, hslots, horder, hcount⟩, ?_⟩
    · exact next_eq_ok.mpr ⟨code, c₁, hcode, he, hsize, rfl, rfl⟩
    · rw [hslots, push_slots]
      unfold Entry.slots
      split <;> simp

theorem require_completes {n : Nat}
    (hfill : ∀ index f, Toward p c f → f.room ≤ n → ∃ f', fill n index f = .ok f' ∧ Toward p c f')
    {r : Entry.Requirement} (hr : p.Meets r) (hf : Toward p c f) (hroom : f.room ≤ n) :
    ∃ f', require (fill n) f r = .ok f' ∧ Toward p c f' := by
  obtain ⟨f', hf', htoward⟩ := hfill r.index.toNat f hf hroom
  have hindex : r.index.toNat < f'.pool.size := by
    rcases fill_reaches hroom hf' with hlt | hfull
    · exact hlt
    · rw [(htoward.eq_of_full hfull).1]
      exact hr.index_lt
  obtain ⟨e, he⟩ := meets_iff_expect.mp (hr.restrict htoward.subset hindex)
  refine ⟨f', ?_, htoward⟩
  unfold require
  rw [hf']
  dsimp only
  rw [he]
  rfl

theorem requireAll_completes {n : Nat}
    (hfill : ∀ index f, Toward p c f → f.room ≤ n → ∃ f', fill n index f = .ok f' ∧ Toward p c f')
    {rs : List Entry.Requirement} (hrs : ∀ r ∈ rs, p.Meets r) (hf : Toward p c f)
    (hroom : f.room ≤ n) :
    ∃ f', rs.foldlM (require (fill n)) f = .ok f' ∧ Toward p c f' := by
  induction rs generalizing f with
  | nil => exact ⟨f, rfl, hf⟩
  | cons r rs ih =>
    obtain ⟨g, hg, htoward⟩ := require_completes hfill (hrs r List.mem_cons_self) hf hroom
    have hgroom := (require_reads (fun _ _ _ => fill_reads) hg).1.room_le
    obtain ⟨f', hf', htoward'⟩ :=
      ih (fun r' hr' => hrs r' (List.mem_cons_of_mem _ hr')) htoward (hgroom.trans hroom)
    exact ⟨f', bind_eq_ok.mpr ⟨g, hg, hf'⟩, htoward'⟩

/-- A pool whose entries are all resolved can be read, whatever is checked first. -/
theorem fill_completes (hp : ∀ e, some e ∈ p.slots.toList → p.Resolves e) {n : Nat} (index : Nat)
    (hf : Toward p c f) (hroom : f.room ≤ n) :
    ∃ f', fill n index f = .ok f' ∧ Toward p c f' := by
  induction n generalizing index f with
  | zero => exact ⟨f, rfl, hf⟩
  | succ n ih =>
    by_cases hgo : f.pool.size ≤ index ∧ f.pool.size < f.count
    · obtain ⟨own, e, g, hnext, hg, he⟩ := hf.next (by unfold room; omega)
      have hgroom : g.room ≤ n := by
        have := room_lt_of_next hnext
        omega
      obtain ⟨rs, hrs, hmeets⟩ := hp e he
      obtain ⟨g', hg', htoward⟩ := requireAll_completes (fun k _ => ih k) hmeets hg hgroom
      have hreads := (requireAll_reads (fun _ _ _ => fill_reads) hg').1
      obtain ⟨f', hf', htoward'⟩ := ih index htoward (hreads.room_le.trans hgroom)
      rw [← check_eq hrs] at hg'
      exact ⟨f', advance_eq_ok.mpr (.inl ⟨hgo.1, hgo.2, own, e, g, g', hnext, hg', hf'⟩), htoward'⟩
    · exact ⟨f, advance_eq_ok.mpr (.inr ⟨hgo, rfl⟩), hf⟩

end

end Filling

/-! ## Whole pools -/

/-- A pool, read with `await` for the entries that checks want. -/
def readWith (await : Nat → Filling → Except Error Filling) : Reader Error Pool := fun c => do
  let (count, c) ← (Cursor.u16 c).mapError .noCount
  if count = 0 then .error .zeroCount
  else
    let f ← await count.toNat ⟨count.toNat, .empty, c⟩
    .ok (f.pool, f.cursor)

open Filling

theorem room_start_le (count : Nat) (c : Cursor) : room ⟨count, .empty, c⟩ ≤ count :=
  Nat.sub_le ..

theorem read_eq_readWith : read = readWith fun index f => fill f.room index f := by
  funext c
  unfold read readWith
  cases Cursor.u16 c with
  | error s => rfl
  | ok result =>
    obtain ⟨count, c₁⟩ := result
    dsimp only [Except.mapError, bind, Except.bind]
    rw [fill_congr (room_start_le count.toNat c₁) le_rfl]

theorem mem_ofEntries {es : List Entry} {e : Entry} :
    some e ∈ (ofEntries es).slots.toList ↔ e ∈ es := by
  have hslots (e' : Entry) : some e ∈ e'.slots ↔ e = e' := by
    unfold Entry.slots
    split <;> simp
  simp [ofEntries, List.mem_flatMap, hslots]

theorem inPasses_of_read {c c' : Cursor} {p : Pool} (h : read c = .ok (p, c')) :
    ReadsInPasses c p c' := by
  obtain ⟨⟨count, c₁⟩, hcount, h⟩ := bind_eq_ok.mp h
  dsimp only at h
  split at h
  · cases h
  · next hzero =>
    obtain ⟨f, hf, h⟩ := bind_eq_ok.mp h
    cases h
    have hpos : 1 ≤ count.toNat := by
      rw [Nat.one_le_iff_ne_zero]
      exact fun h => hzero (UInt16.toNat_inj.mp h)
    obtain ⟨es, hgrows, hes⟩ := fill_reads hf
    have hpool : f.pool = ofEntries es := congrArg Pool.mk (Array.toList_inj.mp hgrows.slots)
    have hsize : f.pool.size = count.toNat := by
      have hle : f.pool.size ≤ f.count := hgrows.bounded hpos
      have hcount : f.count = count.toNat := hgrows.count
      have hreached := fill_reaches (room_start_le count.toNat c₁) hf
      unfold room at hreached
      omega
    exact ⟨count, c₁, es, mapError_eq_ok hcount, hpos, hgrows.inOrder, hpool, hsize, hes⟩

theorem read_of_inPasses {c c' : Cursor} {p : Pool} (h : ReadsInPasses c p c') :
    read c = .ok (p, c') := by
  obtain ⟨count, c₁, es, hcount, hpos, horder, rfl, hsize, hes⟩ := h
  have htoward : Toward (ofEntries es) c' ⟨count.toNat, .empty, c₁⟩ := ⟨es, rfl, horder, hsize⟩
  obtain ⟨f, hf, hend⟩ :=
    fill_completes (fun e he => hes e (mem_ofEntries.mp he)) count.toNat htoward
      (room_start_le count.toNat c₁)
  have hfull : f.room = 0 := by
    have hle : f.pool.size ≤ (ofEntries es).size := hend.subset.length_le
    have hreached := fill_reaches (room_start_le count.toNat c₁) hf
    omega
  obtain ⟨hpool, hcursor⟩ := hend.eq_of_full hfull
  unfold read
  rw [hcount]
  dsimp only [Except.mapError, bind, Except.bind]
  rw [if_neg, hf, ← hpool, ← hcursor]
  rintro rfl
  cases hpos

theorem read_eq_ok_iff {c c' : Cursor} {p : Pool} : read c = .ok (p, c') ↔ ReadsInPasses c p c' :=
  ⟨inPasses_of_read, read_of_inPasses⟩

/-- Reading on demand ends, since only one way of reading on satisfies its recursion, and it gives
what reading in two passes gives. -/
theorem read_iff_passes :
    (∃ await, (∀ await', await' = advance await' ↔ await' = await) ∧ read = readWith await) ∧
      ∀ c p c', read c = .ok (p, c') ↔ ReadsInPasses c p c' :=
  ⟨⟨_, fun _ => eq_advance_iff, read_eq_readWith⟩, fun _ _ _ => read_eq_ok_iff⟩

end Pool

end ClassWasm
