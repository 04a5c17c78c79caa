/-
  How deep attributes are nested. Lists of attributes stand inside attributes, and the parser takes
  a bound on how far it goes in; but each list stands in fewer bytes than the one around it, so a
  bound that is not below the number of bytes never decides (`classFile_depth`). `Alike n r r'` says
  that two readers do the same where at most `n` bytes are left, and leave no more than they found.
-/
import ClassWasm.ClassFile.Parser
import ClassWasm.Proofs.ConstantPool.Reading
import ClassWasm.Proofs.Decoding

namespace ClassWasm

/-! ## Readers that do the same on few bytes -/

namespace Reader

variable {ε ε' α β : Type} {n : Nat}

/-- Where at most `n` bytes are left, `r` and `r'` do the same and leave no more than that. -/
def Alike (n : Nat) (r r' : Reader ε α) : Prop :=
  ∀ c : Cursor, c.remaining ≤ n → r c = r' c ∧ ∀ a d, r c = .ok (a, d) → d.remaining ≤ n

theorem Reads.alike {r : Reader ε α} {Q : α → Nat → Prop} (h : Reads r Q) : Alike n r r := by
  intro c hc
  refine ⟨rfl, fun a d hr => ?_⟩
  obtain ⟨k, -, hlength, -⟩ := h c a d hr
  unfold Cursor.remaining at hc ⊢
  omega

/-- In a sequence the later reader has only so many bytes, and a value with what the first one
ensures. -/
theorem Alike.bindOf {m : Nat} {r r' : Reader ε α} {f f' : α → Reader ε β} (h : Alike n r r')
    {P : α → Prop} (hP : ∀ c a d, c.remaining ≤ n → r c = .ok (a, d) → P a ∧ d.remaining ≤ m)
    (hmn : m ≤ n) (hf : ∀ a, P a → Alike m (f a) (f' a)) : Alike n (r >>= f) (r' >>= f') := by
  intro c hc
  have hr := (h c hc).1
  change (r c >>= fun p => f p.1 p.2) = (r' c >>= fun p => f' p.1 p.2) ∧
    ∀ b d, (r c >>= fun p => f p.1 p.2) = .ok (b, d) → d.remaining ≤ n
  rw [← hr]
  cases hrc : r c with
  | error e => exact ⟨rfl, nofun⟩
  | ok p =>
    obtain ⟨hp, hd⟩ := hP c p.1 p.2 hc hrc
    obtain ⟨heq, hleft⟩ := hf p.1 hp p.2 hd
    exact ⟨heq, fun b d hb => (hleft b d hb).trans hmn⟩

theorem Alike.bind {r r' : Reader ε α} {f f' : α → Reader ε β} (h : Alike n r r')
    (hf : ∀ a, Alike n (f a) (f' a)) : Alike n (r >>= f) (r' >>= f') :=
  h.bindOf (P := fun _ => True) (fun c a d hc hr => ⟨trivial, (h c hc).2 a d hr⟩) (Nat.le_refl n)
    fun a _ => hf a

/-- What a reader has taken is not there for the next one. -/
theorem Alike.after {r : Reader ε α} {k : Nat} {f f' : α → Reader ε β}
    (h : Reads r fun _ m => m = k) (hf : ∀ a, Alike (n - k) (f a) (f' a)) :
    Alike n (r >>= f) (r >>= f') := by
  refine h.alike.bindOf (P := fun _ => True) (fun c a d hc hr => ⟨trivial, ?_⟩) (Nat.sub_le n k)
    fun a _ => hf a
  obtain ⟨m, -, hlength, rfl⟩ := h c a d hr
  unfold Cursor.remaining at hc ⊢
  omega

theorem alike_pure (a : α) : Alike n (pure a : Reader ε α) (pure a) :=
  Reads.alike (reads_pure a (Q := fun _ _ => True) trivial)

theorem alike_ofExcept (x : Except ε α) : Alike n (ofExcept x) (ofExcept x) :=
  (reads_ofExcept x).alike

theorem Alike.mapError {r r' : Reader ε α} (h : Alike n r r') (f : ε → ε') :
    Alike n (r.mapError f) (r'.mapError f) := by
  intro c hc
  obtain ⟨hr, hleft⟩ := h c hc
  refine ⟨congrArg (Except.mapError f) hr, fun a d had => hleft a d (mapError_eq_ok had)⟩

theorem Alike.listFrom {r r' : Nat → Reader ε α} (h : ∀ i, Alike n (r i) (r' i)) (i k : Nat) :
    Alike n (listFrom r i k) (listFrom r' i k) := by
  induction k generalizing i with
  | zero => exact alike_pure []
  | succ k ih => exact (h i).bind fun a => (ih (i + 1)).bind fun as => alike_pure (a :: as)

end Reader

open Reader

/-! ## Pools -/

namespace Entry

/-- A property of readers that sequences have when their parts have it, and numbers and bytes
have. -/
structure Sequential (P : {α : Type} → Reader ReadError α → Prop) : Prop where
  ofExcept : ∀ {α : Type} (x : Except ReadError α), P (Reader.ofExcept x)
  bind : ∀ {α β : Type} {r : Reader ReadError α} {f : α → Reader ReadError β},
    P r → (∀ a, P (f a)) → P (r >>= f)
  u8 : P (liftM Cursor.u8)
  u16 : P (liftM Cursor.u16)
  u32 : P (liftM Cursor.u32)
  i32 : P (liftM Cursor.i32)
  u64 : P (liftM Cursor.u64)
  i64 : P (liftM Cursor.i64)
  take : ∀ n, P (liftM (Cursor.take n))

namespace Sequential

variable {P : {α : Type} → Reader ReadError α → Prop} (h : Sequential P)

include h

theorem number {α β : Type} {r : Reader ReadError α} (hr : P r) (make : α → β) :
    P (do pure (make (← r))) :=
  h.bind hr fun a => h.ofExcept (.ok (make a))

theorem pair (make : PoolIndex → PoolIndex → Entry) : P (readPair make) :=
  h.bind h.u16 fun a => h.number h.u16 (make a)

theorem text : P readText := h.bind h.u16 fun _ => h.bind (h.take _) fun _ => h.ofExcept _

/-- Reading an entry is a sequence of numbers and bytes. -/
theorem read (tag : Tag) : P (read tag) := by
  unfold Entry.read
  split
  · exact h.number h.text utf8
  · exact h.number h.i32 integer
  · exact h.number h.u32 float
  · exact h.number h.i64 long
  · exact h.number h.u64 double
  · exact h.number h.u16 classRef
  · exact h.number h.u16 string
  · exact h.pair fieldRef
  · exact h.pair methodRef
  · exact h.pair interfaceMethodRef
  · exact h.pair nameAndType
  · exact h.bind h.u8 fun kind => h.number h.u16 (methodHandle kind)
  · exact h.number h.u16 methodType
  · exact h.pair dynamic
  · exact h.pair invokeDynamic
  · exact h.ofExcept (.error (.unknownTag tag))

end Sequential

theorem reads_lift {α : Type} {r : Reader Shortage α} {Q : α → Nat → Prop} (h : Reads r Q) :
    Reads (liftM r : Reader ReadError α) fun _ _ => True :=
  (h.mapError ReadError.short).mono fun _ _ _ => trivial

theorem sequential_reads : Sequential fun r => Reads r fun _ _ => True where
  ofExcept x := (reads_ofExcept x).mono fun _ _ _ => trivial
  bind hr hf := hr.bind fun a _ _ => hf a
  u8 := reads_lift Cursor.reads_u8
  u16 := reads_lift Cursor.reads_u16
  u32 := reads_lift Cursor.reads_u32
  i32 := reads_lift Cursor.reads_i32
  u64 := reads_lift Cursor.reads_u64
  i64 := reads_lift Cursor.reads_i64
  take n := reads_lift (Cursor.reads_take n)

end Entry

theorem Pool.InOrder.remaining_le {c c' : Cursor} {es : List Entry} (h : InOrder c es c') :
    c'.remaining ≤ c.remaining := by
  unfold Cursor.remaining
  induction h with
  | nil => exact Nat.le_refl _
  | cons htag hread _ ih =>
    obtain ⟨m, -, hm, -⟩ := Cursor.reads_u8 _ _ _ htag
    obtain ⟨n, -, hn, -⟩ := Entry.sequential_reads.read _ _ _ _ hread
    omega

theorem Pool.alike_read {n : Nat} : Alike n read read := by
  intro c hc
  refine ⟨rfl, fun p d hread => ?_⟩
  obtain ⟨count, c₁, es, hcount, -, horder, -⟩ := inPasses_of_read hread
  have hd := horder.remaining_le
  obtain ⟨m, -, hm, -⟩ := Cursor.reads_u16 _ _ _ hcount
  unfold Cursor.remaining at hc hd ⊢
  omega

/-! ## Class files -/

namespace ClassFile.Parser

variable {n : Nat}

theorem alike_reading {α : Type} (what : Text) {r : Reader Shortage α} {Q : α → Nat → Prop}
    (h : Reads r Q) : Alike n (reading what r) (reading what r) :=
  h.alike.mapError _

theorem alike_handler (pool : Pool) (i : Nat) : Alike n (handler pool i) (handler pool i) := by
  unfold handler
  have hparts : Reads (do
      let start ← Cursor.u16
      let stop ← Cursor.u16
      let target ← Cursor.u16
      let catchType ← Cursor.u16
      pure (start, stop, target, catchType)) fun _ _ => True := by
    refine Cursor.reads_u16.bind fun _ _ _ => Cursor.reads_u16.bind fun _ _ _ => ?_
    exact Cursor.reads_u16.bind fun _ _ _ => Cursor.reads_u16.bind fun _ _ _ =>
      reads_pure _ trivial
  refine (alike_reading _ hparts).bind fun parts => ?_
  obtain ⟨start, stop, target, catchType⟩ := parts
  dsimp only
  split
  · exact (alike_ofExcept _).bind fun _ => alike_pure _
  · exact alike_pure _

theorem body_remaining {name : Text} {length : UInt32} {c b d : Cursor}
    (h : body name length c = .ok (b, d)) :
    b.remaining ≤ c.remaining ∧ d.remaining ≤ c.remaining := by
  unfold body Cursor.sub Cursor.takeInt Cursor.take at h
  dsimp only at h
  split at h
  · next r hsub =>
    cases h
    rw [if_neg (by omega)] at hsub
    obtain ⟨p, htake, heq⟩ := map_eq_ok hsub
    cases heq
    split at htake
    · cases htake
      unfold Cursor.remaining
      simp only [List.length_take, List.length_drop]
      omega
    · cases htake
  · cases h

section

variable {nested nested' : Reader Error Attributes} (h : Alike n nested nested')

include h

theorem alike_code (pool : Pool) : Alike n (code pool nested) (code pool nested') := by
  unfold code
  refine (alike_reading _ Cursor.reads_u16).bind fun maxStack => ?_
  refine (alike_reading _ Cursor.reads_u16).bind fun maxLocals => ?_
  refine (alike_reading _ Cursor.reads_u32).bind fun length => ?_
  split
  · exact alike_ofExcept (.error _)
  · refine (alike_reading _ (Cursor.reads_take _)).bind fun bytes => ?_
    refine (alike_reading _ Cursor.reads_u16).bind fun count => ?_
    refine (Alike.listFrom (alike_handler pool) 0 _).bind fun handlers => ?_
    exact (h.mapError _).bind fun _ => alike_pure _

/-- Only the body of a method holds further attributes. -/
theorem contents_congr (pool : Pool) (name : Text) {c : Cursor} (hc : c.remaining ≤ n) :
    contents pool nested name c = contents pool nested' name c := by
  unfold contents
  by_cases hvalue : name = "ConstantValue"
  · rw [if_pos hvalue, if_pos hvalue]
  by_cases hname : name = "Code"
  · rw [if_neg hvalue, if_neg hvalue, if_pos hname, if_pos hname]
    have hcode := (alike_code h pool c hc).1
    exact congrArg (Except.map fun p => (Attribute.code p.1, p.2)) hcode
  · rw [if_neg hvalue, if_neg hvalue, if_neg hname, if_neg hname]

/-- The bytes of an attribute are no more than those that are left. -/
theorem alike_oneAttribute (pool : Pool) (i : Nat) :
    Alike n (oneAttribute pool nested i) (oneAttribute pool nested' i) := by
  refine (alike_reading _ Cursor.reads_u16).bind fun nameIndex => ?_
  refine (alike_ofExcept _).bind fun name => (alike_reading _ Cursor.reads_u32).bind fun length => ?_
  have hbody : Alike n (body name length) (body name length) := fun c hc =>
    ⟨rfl, fun b d hb => (body_remaining hb).2.trans hc⟩
  refine hbody.bindOf (P := fun b => b.remaining ≤ n) (fun c b d hc hb => ?_) (Nat.le_refl n)
    fun b hb => Alike.mapError ?_ _
  · obtain ⟨hbody, hleft⟩ := body_remaining hb
    exact ⟨hbody.trans hc, hleft.trans hc⟩
  · have hwhole : whole (contents pool nested name) b = whole (contents pool nested' name) b := by
      unfold whole
      rw [contents_congr h pool name hb]
    rw [hwhole]
    exact alike_ofExcept _

end

theorem attributes_empty (pool : Pool) (depth : Nat) {c : Cursor} (h : c.rest = []) :
    attributes pool depth c =
      .error (.within (.reading "attributes count") (.short (c.shortage 2))) := by
  obtain ⟨rest, offset⟩ := c
  cases h
  cases depth <;> rfl

/-- A list of attributes stands behind its own number, so what is nested in it has fewer bytes. -/
theorem alike_attributes (pool : Pool) {depth depth' : Nat} (hn : n ≤ depth) (hn' : n ≤ depth') :
    Alike n (attributes pool depth) (attributes pool depth') := by
  induction depth generalizing depth' n with
  | zero =>
    intro c hc
    have hnil : c.rest = [] := List.length_eq_zero_iff.mp (Nat.le_zero.mp (hc.trans hn))
    rw [attributes_empty pool _ hnil, attributes_empty pool _ hnil]
    exact ⟨rfl, nofun⟩
  | succ depth ih =>
    cases depth' with
    | zero =>
      intro c hc
      have hnil : c.rest = [] := List.length_eq_zero_iff.mp (Nat.le_zero.mp (hc.trans hn'))
      rw [attributes_empty pool _ hnil, attributes_empty pool _ hnil]
      exact ⟨rfl, nofun⟩
    | succ depth' =>
      refine Alike.after (Cursor.reads_u16.mapError _) fun count => ?_
      exact Alike.listFrom (alike_oneAttribute (ih (by omega) (by omega)) pool) 0 _

section

variable (pool : Pool) {depth depth' : Nat} (hn : n ≤ depth) (hn' : n ≤ depth')

include hn hn'

theorem alike_member : Alike n (member pool depth) (member pool depth') := by
  refine (alike_reading _ Cursor.reads_u16).bind fun access => ?_
  refine (alike_reading _ Cursor.reads_u16).bind fun nameIndex => ?_
  refine (alike_reading _ Cursor.reads_u16).bind fun descriptorIndex => ?_
  refine (alike_ofExcept _).bind fun name => (alike_ofExcept _).bind fun descriptor => ?_
  exact ((alike_attributes pool hn hn').mapError _).bind fun _ => alike_pure _

theorem alike_fields : Alike n (fields pool depth) (fields pool depth') := by
  refine (alike_reading _ Cursor.reads_u16).bind fun count => Alike.listFrom (fun i => ?_) 0 _
  refine ((alike_member pool hn hn').mapError _).bind fun m => ?_
  exact (((alike_ofExcept _).bind fun _ => alike_pure _).mapError _).bind fun _ => alike_pure _

theorem alike_methods : Alike n (methods pool depth) (methods pool depth') := by
  refine (alike_reading _ Cursor.reads_u16).bind fun count => Alike.listFrom (fun i => ?_) 0 _
  refine ((alike_member pool hn hn').mapError _).bind fun m => ?_
  exact (((alike_ofExcept _).bind fun _ => alike_pure _).mapError _).bind fun _ => alike_pure _

end

theorem alike_header : Alike n header header := by
  unfold header
  refine (alike_reading _ Cursor.reads_u32).bind fun magic => ?_
  split
  · exact alike_ofExcept (.error _)
  · refine (alike_reading _ Cursor.reads_u16).bind fun minor => ?_
    exact (alike_reading _ Cursor.reads_u16).bind fun major => alike_pure _

theorem alike_interface (pool : Pool) (i : Nat) : Alike n (interface pool i) (interface pool i) :=
  (alike_reading _ Cursor.reads_u16).bind fun _ => (alike_ofExcept _).bind fun _ => alike_pure _

/-- Everything behind the superclass. -/
def afterSuperclass (pool : Pool) (depth : Nat)
    (make : List PoolIndex → List Field → List Method → Attributes → ClassFile) :
    Reader Error ClassFile := do
  let count ← reading "interfaces count" Cursor.u16
  let interfaces ← Reader.list count.toNat (interface pool)
  let fields ← within (.parsing "fields") (fields pool depth)
  let methods ← within (.parsing "methods") (methods pool depth)
  let attributes ← within (.parsing "class attributes") (attributes pool depth)
  pure (make interfaces fields methods attributes)

theorem classFile_eq (depth : Nat) : classFile depth = (do
    let versions ← header
    let pool ← within (.parsing "constant pool") (Pool.read.mapError .pool)
    let access ← reading "access flags" Cursor.u16
    let thisClass ← reading "this_class" Cursor.u16
    let _ ← resolving "this_class" (pool.className thisClass)
    let superClass ← reading "super_class" Cursor.u16
    let make := ClassFile.mk versions.1 versions.2 pool ⟨access⟩ thisClass superClass
    if superClass ≠ 0 then do
      let _ ← resolving "super_class" (pool.className superClass)
      afterSuperclass pool depth make
    else afterSuperclass pool depth make) := rfl

theorem alike_afterSuperclass (pool : Pool) {depth depth' : Nat} (hn : n ≤ depth)
    (hn' : n ≤ depth')
    (make : List PoolIndex → List Field → List Method → Attributes → ClassFile) :
    Alike n (afterSuperclass pool depth make) (afterSuperclass pool depth' make) := by
  refine (alike_reading _ Cursor.reads_u16).bind fun count => ?_
  refine (Alike.listFrom (alike_interface pool) 0 _).bind fun interfaces => ?_
  refine ((alike_fields pool hn hn').mapError _).bind fun fields => ?_
  refine ((alike_methods pool hn hn').mapError _).bind fun methods => ?_
  exact ((alike_attributes pool hn hn').mapError _).bind fun attributes => alike_pure _

theorem alike_classFile {depth depth' : Nat} (hn : n ≤ depth) (hn' : n ≤ depth') :
    Alike n (classFile depth) (classFile depth') := by
  rw [classFile_eq, classFile_eq]
  refine alike_header.bind fun versions => ?_
  refine ((Pool.alike_read.mapError _).mapError _).bind fun pool => ?_
  refine (alike_reading _ Cursor.reads_u16).bind fun access => ?_
  refine (alike_reading _ Cursor.reads_u16).bind fun thisClass => (alike_ofExcept _).bind fun _ => ?_
  refine (alike_reading _ Cursor.reads_u16).bind fun superClass => ?_
  dsimp only
  split
  · exact (alike_ofExcept _).bind fun _ => alike_afterSuperclass pool hn hn' _
  · exact alike_afterSuperclass pool hn hn' _

/-- How deep the parser may go does not matter as long as it is not less than the number of
bytes. -/
theorem classFile_depth {bytes : Bytes} {depth : Nat} (h : bytes.length ≤ depth) (offset : Nat) :
    classFile depth ⟨bytes, offset⟩ = classFile bytes.length ⟨bytes, offset⟩ :=
  (alike_classFile h (Nat.le_refl _) ⟨bytes, offset⟩ (Nat.le_refl _)).1

end ClassFile.Parser

end ClassWasm
