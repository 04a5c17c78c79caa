/-
  Class files that are cut off. Where a reader succeeds on some bytes, it does the same on the first
  of them as long as they last, and where they do not last it says so: `CutsShort` is that property
  of readers, closed under sequencing, so a line per parser carries it from the numbers of fixed
  width to whole class files. Main result: no proper beginning of a class file is one, and all of
  them are reported as truncated (`parse_truncated`).
-/
import ClassWasm.Proofs.ClassFile.Nesting

namespace ClassWasm

section

variable {ε ε' α β : Type} {short : ε → Prop} {short' : ε' → Prop}

/-! ## Results on the whole and on its beginning -/

/-- Where `x` succeeds, `y` gives what corresponds to its value, or runs short. -/
def CutShort (short : ε → Prop) (R : α → α → Prop) (x y : Except ε α) : Prop :=
  ∀ a, x = .ok a → (∃ b, y = .ok b ∧ R a b) ∨ ∃ e, y = .error e ∧ short e

theorem cutShort_ok {R : α → α → Prop} {a b : α} (h : R a b) :
    CutShort short R (.ok a) (.ok b) := by
  intro a' ha
  cases ha
  exact .inl ⟨b, rfl, h⟩

theorem cutShort_error {R : α → α → Prop} {e : ε} {y : Except ε α} :
    CutShort short R (.error e) y := nofun

theorem CutShort.bind {R : α → α → Prop} {S : β → β → Prop} {x y : Except ε α}
    {f g : α → Except ε β} (h : CutShort short R x y)
    (hf : ∀ a b, R a b → CutShort short S (f a) (g b)) :
    CutShort short S (x >>= f) (y >>= g) := by
  intro c hc
  obtain ⟨a, ha, hc⟩ := bind_eq_ok.mp hc
  rcases h a ha with ⟨b, rfl, hab⟩ | ⟨e, rfl, he⟩
  · exact hf a b hab c hc
  · exact .inr ⟨e, rfl, he⟩

theorem CutShort.mapError {R : α → α → Prop} {x y : Except ε α} (h : CutShort short R x y)
    {f : ε → ε'} (hf : ∀ e, short e → short' (f e)) :
    CutShort short' R (x.mapError f) (y.mapError f) := by
  intro a ha
  rcases h a (mapError_eq_ok ha) with ⟨b, rfl, hab⟩ | ⟨e, rfl, he⟩
  · exact .inl ⟨b, rfl, hab⟩
  · exact .inr ⟨f e, rfl, hf e he⟩

end

/-- The cursor with bytes added behind those that are left. -/
def Cursor.followedBy (c : Cursor) (more : Bytes) : Cursor := ⟨c.rest ++ more, c.offset⟩

/-! ## Readers -/

namespace Reader

variable {ε ε' α β : Type} {short : ε → Prop} {short' : ε' → Prop}

/-- What `r` makes of bytes, it makes of the first of them too, unless it runs short. -/
def CutsShort (short : ε → Prop) (r : Reader ε α) : Prop :=
  ∀ (more : Bytes) (c : Cursor), CutShort short (fun p q => p = (q.1, q.2.followedBy more))
    (r (c.followedBy more)) (r c)

theorem cutsShort_ofExcept (x : Except ε α) : CutsShort short (ofExcept x) := by
  intro more c
  cases x with
  | error e => exact cutShort_error
  | ok a => exact cutShort_ok rfl

theorem cutsShort_pure (a : α) : CutsShort short (pure a) := cutsShort_ofExcept (.ok a)

theorem cutsShort_throw (e : ε) : CutsShort short (throw e : Reader ε α) :=
  cutsShort_ofExcept (.error e)

theorem CutsShort.bind {r : Reader ε α} {f : α → Reader ε β} (h : CutsShort short r)
    (hf : ∀ a, CutsShort short (f a)) : CutsShort short (r >>= f) := by
  intro more c
  refine (h more c).bind ?_
  rintro _ ⟨a, d⟩ rfl
  exact hf a more d

theorem CutsShort.map {r : Reader ε α} (h : CutsShort short r) (f : α → β) :
    CutsShort short (f <$> r) := by
  rw [map_eq_pure_bind]
  exact h.bind fun a => cutsShort_pure (f a)

theorem CutsShort.mapError {r : Reader ε α} (h : CutsShort short r) {f : ε → ε'}
    (hf : ∀ e, short e → short' (f e)) : CutsShort short' (r.mapError f) :=
  fun more c => (h more c).mapError hf

theorem CutsShort.listFrom {r : Nat → Reader ε α} (h : ∀ i, CutsShort short (r i)) (i n : Nat) :
    CutsShort short (listFrom r i n) := by
  induction n generalizing i with
  | zero => exact cutsShort_pure []
  | succ n ih => exact (h i).bind fun a => (ih (i + 1)).bind fun as => cutsShort_pure (a :: as)

end Reader

namespace Cursor

open Reader

theorem cutsShort_u8 : CutsShort (fun _ => True) u8 := by
  rintro more ⟨_ | ⟨a, rest⟩, offset⟩
  · exact fun _ _ => .inr ⟨_, rfl, trivial⟩
  · exact cutShort_ok rfl

theorem cutsShort_u16 : CutsShort (fun _ => True) u16 := by
  rintro more ⟨_ | ⟨a, _ | ⟨b, rest⟩⟩, offset⟩
  iterate 2 exact fun _ _ => .inr ⟨_, rfl, trivial⟩
  exact cutShort_ok rfl

theorem cutsShort_u32 : CutsShort (fun _ => True) u32 := by
  rintro more ⟨_ | ⟨a, _ | ⟨b, _ | ⟨d, _ | ⟨e, rest⟩⟩⟩⟩, offset⟩
  iterate 4 exact fun _ _ => .inr ⟨_, rfl, trivial⟩
  exact cutShort_ok rfl

theorem cutsShort_u64 : CutsShort (fun _ => True) u64 := by
  rintro more ⟨_ | ⟨a, _ | ⟨b, _ | ⟨d, _ | ⟨e, _ | ⟨f, _ | ⟨g, _ | ⟨h, _ | ⟨i, rest⟩⟩⟩⟩⟩⟩⟩⟩, offset⟩
  iterate 8 exact fun _ _ => .inr ⟨_, rfl, trivial⟩
  exact cutShort_ok rfl

theorem cutsShort_take (n : Nat) : CutsShort (fun _ => True) (take n) := by
  intro more c
  by_cases hn : n ≤ c.rest.length
  · have htake : (c.followedBy more).rest.take n = c.rest.take n :=
      List.take_append_of_le_length hn
    have hdrop : (c.followedBy more).rest.drop n = c.rest.drop n ++ more :=
      List.drop_append_of_le_length hn
    have hlength : (c.rest.take n).length = n := List.length_take_of_le hn
    unfold take
    rw [htake, hdrop]
    dsimp only
    rw [if_pos hlength, if_pos hlength]
    exact cutShort_ok rfl
  · refine fun _ _ => .inr ⟨c.shortage n, if_neg ?_, trivial⟩
    rw [List.length_take]
    omega

theorem sub_eq (n : Nat) (c : Cursor) :
    sub n c = (take n c).map fun (bs, c') => (⟨bs, c.offset⟩, c') := by
  unfold sub takeInt
  rw [if_neg (by omega), Int.toNat_natCast]

theorem cutsShort_sub (n : Nat) : CutsShort (fun _ => True) (sub n) := by
  intro more c p hp
  rw [sub_eq] at hp ⊢
  obtain ⟨taken, htaken, rfl⟩ := map_eq_ok hp
  rcases cutsShort_take n more c taken htaken with ⟨q, hq, rfl⟩ | ⟨s, hs, -⟩
  · rw [hq]
    exact .inl ⟨_, rfl, rfl⟩
  · rw [hs]
    exact .inr ⟨_, rfl, trivial⟩

end Cursor

/-! ## Pools -/

open Reader

namespace Entry

/-- The error says that bytes are missing. -/
def ReadError.Truncated (e : ReadError) : Prop := .truncated ∈ e.causes

theorem cutsShort_lift {α : Type} {r : Reader Shortage α} (h : CutsShort (fun _ => True) r) :
    CutsShort ReadError.Truncated (liftM r : Reader ReadError α) :=
  h.mapError fun _ _ => List.mem_cons_self

theorem sequential_cutsShort : Sequential (CutsShort ReadError.Truncated) where
  ofExcept := cutsShort_ofExcept
  bind := CutsShort.bind
  u8 := cutsShort_lift Cursor.cutsShort_u8
  u16 := cutsShort_lift Cursor.cutsShort_u16
  u32 := cutsShort_lift Cursor.cutsShort_u32
  i32 := cutsShort_lift (Cursor.cutsShort_u32.map _)
  u64 := cutsShort_lift Cursor.cutsShort_u64
  i64 := cutsShort_lift (Cursor.cutsShort_u64.map _)
  take n := cutsShort_lift (Cursor.cutsShort_take n)

end Entry

namespace Pool

/-- The error says, among other things, that bytes are missing. -/
def Error.Truncated (e : Error) : Prop := .truncated ∈ e.causes

theorem Error.truncated_noCount (s : Shortage) : (noCount s).Truncated := List.mem_cons_self

theorem Error.truncated_noTag (index : Nat) (s : Shortage) : (noTag index s).Truncated :=
  List.mem_cons_self

theorem Error.truncated_unreadable (tag : Tag) (index : Nat) {e : Entry.ReadError}
    (h : e.Truncated) : (unreadable tag index e).Truncated := h

namespace Filling

variable {more : Bytes}

/-- The pool so far with bytes added behind those that are left. -/
def followedBy (f : Filling) (more : Bytes) : Filling := { f with cursor := f.cursor.followedBy more }

theorem next_cutShort (f : Filling) :
    CutShort Error.Truncated (fun p q => p = (q.1, q.2.1, q.2.2.followedBy more))
      (f.followedBy more).next f.next := by
  unfold next
  refine ((Cursor.cutsShort_u8 more f.cursor).mapError fun s _ => Error.truncated_noTag _ s).bind ?_
  rintro _ ⟨code, c⟩ rfl
  refine ((Entry.sequential_cutsShort.read ⟨code⟩ more c).mapError fun e =>
    Error.truncated_unreadable _ _).bind ?_
  rintro _ ⟨e, c'⟩ rfl
  change CutShort _ _ (if (f.pool.push e).size > f.count then _ else _)
    (if (f.pool.push e).size > f.count then _ else _)
  split
  · exact cutShort_error
  · exact cutShort_ok rfl

/-- `await` does on the beginning of the bytes what it does on all of them. -/
def AwaitsCut (more : Bytes) (await : Nat → Filling → Except Error Filling) : Prop :=
  ∀ index f, CutShort Error.Truncated (fun g g' => g = g'.followedBy more)
    (await index (f.followedBy more)) (await index f)

section

variable {await : Nat → Filling → Except Error Filling} (h : AwaitsCut more await)

include h

theorem require_cutShort (r : Entry.Requirement) (f : Filling) :
    CutShort Error.Truncated (fun g g' => g = g'.followedBy more)
      (require await (f.followedBy more) r) (require await f r) := by
  intro g hg
  unfold require at hg ⊢
  split at hg
  · cases hg
  · next g₁ hg₁ =>
    rcases h _ _ _ hg₁ with ⟨g', hg', rfl⟩ | ⟨e, he, htruncated⟩
    · obtain ⟨entry, hentry, rfl⟩ := map_eq_ok hg
      have hentry : g'.pool.expect r.index r.tags = .ok entry := hentry
      rw [hg']
      dsimp only
      rw [hentry]
      exact .inl ⟨g', rfl, rfl⟩
    · rw [he]
      exact .inr ⟨_, rfl, List.mem_cons_of_mem _ htruncated⟩

theorem requireAll_cutShort (rs : List Entry.Requirement) (f : Filling) :
    CutShort Error.Truncated (fun g g' => g = g'.followedBy more)
      (rs.foldlM (require await) (f.followedBy more)) (rs.foldlM (require await) f) := by
  induction rs generalizing f with
  | nil => exact cutShort_ok rfl
  | cons r rs ih =>
    rw [List.foldlM_cons, List.foldlM_cons]
    refine (require_cutShort h r f).bind ?_
    rintro _ g rfl
    exact ih g

theorem check_cutShort (e : Entry) (f : Filling) :
    CutShort Error.Truncated (fun g g' => g = g'.followedBy more)
      (check await e (f.followedBy more)) (check await e f) := by
  unfold check
  split
  · exact requireAll_cutShort h _ f
  · exact cutShort_error
  · exact cutShort_ok rfl

end

theorem fill_cutShort (n : Nat) : AwaitsCut more (fill n) := by
  induction n with
  | zero => exact fun _ _ => cutShort_ok rfl
  | succ n ih =>
    intro index f g hg
    unfold fill at hg ⊢
    split at hg
    · next hgo =>
      rw [if_pos (by exact hgo)]
      split at hg
      · cases hg
      · next hnext =>
        rcases next_cutShort f _ hnext with ⟨⟨own, e, f₁⟩, hnext', heq⟩ | ⟨reason, hnext', hshort⟩
        · cases heq
          rw [hnext']
          dsimp only at hg ⊢
          split at hg
          · cases hg
          · next hcheck =>
            rcases check_cutShort ih e f₁ _ hcheck with
              ⟨f₂, hcheck', rfl⟩ | ⟨reason, hcheck', hshort⟩
            · rw [hcheck']
              exact ih index f₂ g hg
            · rw [hcheck']
              exact .inr ⟨_, rfl, hshort⟩
        · rw [hnext']
          exact .inr ⟨_, rfl, hshort⟩
    · next hstop =>
      cases hg
      rw [if_neg (by exact hstop)]
      exact .inl ⟨f, rfl, rfl⟩

end Filling

theorem cutsShort_read : CutsShort Error.Truncated read := by
  intro more c
  unfold read
  refine ((Cursor.cutsShort_u16 more c).mapError fun s _ => Error.truncated_noCount s).bind ?_
  rintro _ ⟨count, c'⟩ rfl
  dsimp only
  split
  · exact cutShort_error
  · refine (Filling.fill_cutShort count.toNat count.toNat ⟨count.toNat, .empty, c'⟩).bind ?_
    rintro _ f rfl
    exact cutShort_ok rfl

end Pool

/-! ## Class files -/

namespace ClassFile

/-- The error says, among other things, that bytes are missing. -/
def Error.Truncated (e : Error) : Prop := .truncated ∈ e.causes

theorem Error.truncated_pool {e : Pool.Error} (h : e.Truncated) : (pool e).Truncated := h

namespace Parser

theorem cutsShort_within (place : Place) {α : Type} {r : Reader Error α}
    (h : CutsShort Error.Truncated r) : CutsShort Error.Truncated (within place r) :=
  h.mapError fun _ htruncated => htruncated

theorem cutsShort_reading (what : Text) {α : Type} {r : Reader Shortage α}
    (h : CutsShort (fun _ => True) r) : CutsShort Error.Truncated (reading what r) :=
  h.mapError fun _ _ => List.mem_cons_self

theorem cutsShort_resolving (what : Text) {α : Type} (x : Except Pool.Error α) :
    CutsShort Error.Truncated (resolving what x) :=
  cutsShort_ofExcept _

theorem cutsShort_body (name : Text) (length : UInt32) :
    CutsShort Error.Truncated (body name length) := by
  intro more c p hp
  unfold body at hp ⊢
  split at hp
  · next hsub =>
    cases hp
    rcases Cursor.cutsShort_sub _ more c _ hsub with ⟨q, hq, rfl⟩ | ⟨s, hs, -⟩
    · rw [hq]
      exact .inl ⟨q, rfl, rfl⟩
    · rw [hs]
      exact .inr ⟨_, rfl, List.mem_cons_self⟩
  · cases hp

/-- An attribute whose bytes are all there is read as before, whatever is in it. -/
theorem cutsShort_oneAttribute (pool : Pool) (nested : Reader Error Attributes) (i : Nat) :
    CutsShort Error.Truncated (oneAttribute pool nested i) := by
  refine (cutsShort_reading _ Cursor.cutsShort_u16).bind fun nameIndex => ?_
  refine (cutsShort_resolving _ _).bind fun name => ?_
  refine (cutsShort_reading _ Cursor.cutsShort_u32).bind fun length => ?_
  exact (cutsShort_body name length).bind fun body => cutsShort_within _ (cutsShort_ofExcept _)

theorem cutsShort_attributes (pool : Pool) (depth : Nat) :
    CutsShort Error.Truncated (attributes pool depth) := by
  cases depth with
  | zero => exact fun _ _ => cutShort_error
  | succ depth =>
    refine (cutsShort_reading _ Cursor.cutsShort_u16).bind fun count => ?_
    exact CutsShort.listFrom (cutsShort_oneAttribute pool _) 0 _

theorem cutsShort_member (pool : Pool) (depth : Nat) :
    CutsShort Error.Truncated (member pool depth) := by
  refine (cutsShort_reading _ Cursor.cutsShort_u16).bind fun access => ?_
  refine (cutsShort_reading _ Cursor.cutsShort_u16).bind fun nameIndex => ?_
  refine (cutsShort_reading _ Cursor.cutsShort_u16).bind fun descriptorIndex => ?_
  refine (cutsShort_resolving _ _).bind fun name => ?_
  refine (cutsShort_resolving _ _).bind fun descriptor => ?_
  exact (cutsShort_within _ (cutsShort_attributes pool depth)).bind fun _ => cutsShort_pure _

theorem cutsShort_fields (pool : Pool) (depth : Nat) :
    CutsShort Error.Truncated (fields pool depth) := by
  refine (cutsShort_reading _ Cursor.cutsShort_u16).bind fun count =>
    CutsShort.listFrom (fun i => ?_) 0 _
  refine (cutsShort_within _ (cutsShort_member pool depth)).bind fun m => ?_
  refine (cutsShort_within _ ?_).bind fun _ => cutsShort_pure _
  exact (cutsShort_ofExcept _).bind fun _ => cutsShort_pure _

theorem cutsShort_methods (pool : Pool) (depth : Nat) :
    CutsShort Error.Truncated (methods pool depth) := by
  refine (cutsShort_reading _ Cursor.cutsShort_u16).bind fun count =>
    CutsShort.listFrom (fun i => ?_) 0 _
  refine (cutsShort_within _ (cutsShort_member pool depth)).bind fun m => ?_
  refine (cutsShort_within _ ?_).bind fun _ => cutsShort_pure _
  exact (cutsShort_ofExcept _).bind fun _ => cutsShort_pure _

theorem cutsShort_interface (pool : Pool) (i : Nat) :
    CutsShort Error.Truncated (interface pool i) := by
  refine (cutsShort_reading _ Cursor.cutsShort_u16).bind fun index => ?_
  exact (cutsShort_resolving _ _).bind fun _ => cutsShort_pure _

theorem cutsShort_header : CutsShort Error.Truncated header := by
  unfold header
  refine (cutsShort_reading _ Cursor.cutsShort_u32).bind fun magic => ?_
  split
  · exact cutsShort_throw _
  · refine (cutsShort_reading _ Cursor.cutsShort_u16).bind fun minor => ?_
    exact (cutsShort_reading _ Cursor.cutsShort_u16).bind fun major => cutsShort_pure _

theorem cutsShort_afterSuperclass (pool : Pool) (depth : Nat)
    (make : List PoolIndex → List Field → List Method → Attributes → ClassFile) :
    CutsShort Error.Truncated (afterSuperclass pool depth make) := by
  refine (cutsShort_reading _ Cursor.cutsShort_u16).bind fun count => ?_
  refine (CutsShort.listFrom (cutsShort_interface pool) 0 _).bind fun interfaces => ?_
  refine (cutsShort_within _ (cutsShort_fields pool depth)).bind fun fields => ?_
  refine (cutsShort_within _ (cutsShort_methods pool depth)).bind fun methods => ?_
  exact (cutsShort_within _ (cutsShort_attributes pool depth)).bind fun attributes =>
    cutsShort_pure _

theorem cutsShort_classFile (depth : Nat) : CutsShort Error.Truncated (classFile depth) := by
  rw [classFile_eq]
  refine cutsShort_header.bind fun versions => ?_
  refine (cutsShort_within _ (Pool.cutsShort_read.mapError fun _ => Error.truncated_pool)).bind
    fun pool => ?_
  refine (cutsShort_reading _ Cursor.cutsShort_u16).bind fun access => ?_
  refine (cutsShort_reading _ Cursor.cutsShort_u16).bind fun thisClass => ?_
  refine (cutsShort_resolving _ _).bind fun _ => ?_
  refine (cutsShort_reading _ Cursor.cutsShort_u16).bind fun superClass => ?_
  dsimp only
  split
  · exact (cutsShort_resolving _ _).bind fun _ => cutsShort_afterSuperclass pool depth _
  · exact cutsShort_afterSuperclass pool depth _

end Parser

/-- What is left of a class file when bytes are cut off its end is no class file, and the reason
given is that bytes are missing. So no class file is a proper beginning of another. -/
theorem parse_truncated {bytes : Bytes} {file : ClassFile} (h : parse bytes = .ok file)
    {start : Bytes} (hstart : start <+: bytes) (hne : start ≠ bytes) :
    (∃ e, parse start = .error e ∧ .truncated ∈ e.causes) ∧
      ∀ file', parse start ≠ .ok file' := by
  obtain ⟨more, rfl⟩ := hstart
  have hmore : more ≠ [] := fun hnil => hne (by rw [hnil, List.append_nil])
  have htruncated : ∃ e, parse start = .error e ∧ .truncated ∈ e.causes := by
    obtain ⟨⟨file', c⟩, hfile, h⟩ := bind_eq_ok.mp h
    rcases Parser.cutsShort_classFile _ more ⟨start, 0⟩ _ hfile with
      ⟨⟨file'', c'⟩, -, heq⟩ | ⟨e, he, hshort⟩
    · -- Then all bytes are used up, those that were cut off among them.
      cases heq
      dsimp only at h
      split at h
      · next hnil => exact absurd (List.append_eq_nil_iff.mp hnil).2 hmore
      · cases h
    · refine ⟨e, ?_, hshort⟩
      rw [Parser.classFile_depth (by simp)] at he
      unfold parse
      rw [he]
      rfl
  refine ⟨htruncated, fun file' hfile' => ?_⟩
  obtain ⟨e, he, -⟩ := htruncated
  rw [hfile'] at he
  cases he

/-- A class whose entry in the pool stands before its name. -/
def forwardClass : Bytes :=
  [0xCA, 0xFE, 0xBA, 0xBE, 0, 0, 0, 52, 0, 3, 7, 0, 2, 1, 0, 1, 0x41, 0, 0x21, 0, 1, 0, 0, 0, 0,
    0, 0, 0, 0, 0, 0]

theorem parse_truncated_forwardClass :
    (∃ file, parse forwardClass = .ok file) ∧
      (∃ e, parse (forwardClass.take 16) = .error e ∧ .truncated ∈ e.causes) ∧
      ∀ file, parse (forwardClass.take 16) ≠ .ok file := by
  have hparse : ∃ file, parse forwardClass = .ok file := ⟨_, rfl⟩
  obtain ⟨file, hfile⟩ := hparse
  exact ⟨⟨file, hfile⟩, parse_truncated hfile (List.take_prefix 16 _) (by decide)⟩

end ClassFile

end ClassWasm
