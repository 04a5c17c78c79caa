/-
  Class files under construction. A pool only grows, and as long as it fits into a class file every
  index that a builder gives stands for the entry that was asked for, now and later. `Interns P x Q`
  says so of a part `x` of building, in the manner of a Hoare triple over pools. Main result: what
  a builder stores, call after call, is what the calls asked for (`Reached.records`).
-/
import ClassWasm.ClassFile.Builder
import ClassWasm.ClassFile.Parser
import ClassWasm.Proofs.ConstantPool.RoundTrip

namespace ClassWasm

/-! ## Look-ups in a pool that grows -/

namespace Pool

section

variable {p q : Pool} (h : p.slots.toList <+: q.slots.toList) {i : PoolIndex}

include h

theorem get_mono {e : Entry} (hp : p.get i = .ok e) : q.get i = .ok e := by
  obtain ⟨hne, hget⟩ := get_eq_ok.mp hp
  obtain ⟨more, hmore⟩ := h
  refine get_eq_ok.mpr ⟨hne, ?_⟩
  rw [← hmore, List.getElem?_append_left (List.getElem?_eq_some_iff.mp hget).1, hget]

theorem expect_mono {tags : List Tag} {e : Entry} (hp : p.expect i tags = .ok e) :
    q.expect i tags = .ok e := by
  unfold expect at hp ⊢
  split at hp
  · cases hp
  · next e' he =>
    rw [get_mono h he]
    exact hp

theorem utf8_mono {t : Text} (hp : p.utf8 i = .ok t) : q.utf8 i = .ok t := by
  obtain ⟨e, he, hp⟩ := bind_eq_ok.mp hp
  exact bind_eq_ok.mpr ⟨e, expect_mono h he, hp⟩

theorem className_mono {t : Text} (hp : p.className i = .ok t) : q.className i = .ok t := by
  obtain ⟨e, he, hp⟩ := bind_eq_ok.mp hp
  refine bind_eq_ok.mpr ⟨e, expect_mono h he, ?_⟩
  cases e with
  | classRef name => exact utf8_mono h hp
  | _ => cases hp

theorem nameAndType_mono {t : Text × Text} (hp : p.nameAndType i = .ok t) :
    q.nameAndType i = .ok t := by
  obtain ⟨e, he, hp⟩ := bind_eq_ok.mp hp
  refine bind_eq_ok.mpr ⟨e, expect_mono h he, ?_⟩
  cases e with
  | nameAndType name descriptor =>
    obtain ⟨n, hn, hp⟩ := bind_eq_ok.mp hp
    obtain ⟨d, hd, hp⟩ := bind_eq_ok.mp hp
    exact bind_eq_ok.mpr ⟨n, utf8_mono h hn, bind_eq_ok.mpr ⟨d, utf8_mono h hd, hp⟩⟩
  | _ => cases hp

theorem member_mono {j : PoolIndex} {ref : MemberRef} (hp : p.member i j = .ok ref) :
    q.member i j = .ok ref := by
  obtain ⟨owner, howner, hp⟩ := bind_eq_ok.mp hp
  obtain ⟨nt, hnt, hp⟩ := bind_eq_ok.mp hp
  unfold member
  rw [className_mono h (mapError_eq_ok howner), nameAndType_mono h (mapError_eq_ok hnt)]
  exact hp

end

theorem utf8_of_get {p : Pool} {i : PoolIndex} {t : Text} (h : p.get i = .ok (.utf8 t)) :
    p.utf8 i = .ok t :=
  bind_eq_ok.mpr ⟨_, expect_of_get h (List.mem_singleton.mpr rfl), rfl⟩

theorem className_of_get {p : Pool} {i n : PoolIndex} {t : Text} (h : p.get i = .ok (.classRef n))
    (hn : p.utf8 n = .ok t) : p.className i = .ok t :=
  bind_eq_ok.mpr ⟨_, expect_of_get h (List.mem_singleton.mpr rfl), hn⟩

theorem nameAndType_of_get {p : Pool} {i n d : PoolIndex} {name descriptor : Text}
    (h : p.get i = .ok (.nameAndType n d)) (hn : p.utf8 n = .ok name)
    (hd : p.utf8 d = .ok descriptor) : p.nameAndType i = .ok (name, descriptor) :=
  bind_eq_ok.mpr ⟨_, expect_of_get h (List.mem_singleton.mpr rfl),
    bind_eq_ok.mpr ⟨name, hn, bind_eq_ok.mpr ⟨descriptor, hd, rfl⟩⟩⟩

theorem member_of {p : Pool} {c n : PoolIndex} {ref : MemberRef} (hc : p.className c = .ok ref.owner)
    (hn : p.nameAndType n = .ok (ref.name, ref.descriptor)) : p.member c n = .ok ref := by
  unfold member
  rw [hc, hn]
  rfl

theorem meets_of_utf8 {p : Pool} {i : PoolIndex} {t : Text} (h : p.utf8 i = .ok t) :
    p.Meets ⟨i, [.utf8]⟩ := by
  obtain ⟨e, he, -⟩ := bind_eq_ok.mp h
  exact meets_iff_expect.mpr ⟨e, he⟩

theorem meets_of_className {p : Pool} {i : PoolIndex} {t : Text} (h : p.className i = .ok t) :
    p.Meets ⟨i, [.classRef]⟩ := by
  obtain ⟨e, he, -⟩ := bind_eq_ok.mp h
  exact meets_iff_expect.mpr ⟨e, he⟩

theorem meets_of_nameAndType {p : Pool} {i : PoolIndex} {t : Text × Text}
    (h : p.nameAndType i = .ok t) : p.Meets ⟨i, [.nameAndType]⟩ := by
  obtain ⟨e, he, -⟩ := bind_eq_ok.mp h
  exact meets_iff_expect.mpr ⟨e, he⟩

/-! ## Entries that builders add -/

/-- A property that pools keep when they grow. -/
def Stable (S : Pool → Prop) : Prop :=
  ∀ p q : Pool, p.slots.toList <+: q.slots.toList → S p → S q

theorem push_ofEntries (es : List Entry) (e : Entry) :
    (ofEntries es).push e = ofEntries (es ++ [e]) := by
  have hslots : ((ofEntries es).push e).slots = (ofEntries (es ++ [e])).slots := by
    rw [← Array.toList_inj, push_slots]
    simp [ofEntries]
  exact congrArg Pool.mk hslots

/-- An entry is found at the index that it was given, as long as 16 bits are enough for it. -/
theorem get_push {es : List Entry} {e : Entry} (h : ((ofEntries es).push e).size ≤ 65535) :
    ((ofEntries es).push e).get (ofEntries es).nextIndex = .ok e := by
  have hlt := size_lt_push (ofEntries es) e
  have hindex : (ofEntries es).nextIndex.toNat = (ofEntries es).size := by
    unfold nextIndex
    rw [UInt16.toNat_ofNat', Nat.mod_eq_of_lt (by omega)]
  refine get_eq_ok.mpr ⟨fun hzero => ?_, ?_⟩
  · rw [hzero] at hindex
    exact absurd hindex.symm (by simp [ofEntries, size])
  · have hfirst : e.slots[0]? = some (some e) := by
      unfold Entry.slots
      split <;> rfl
    rw [hindex, push_slots, List.getElem?_append_right (by simp [size])]
    simpa [size] using hfirst

/-- Entries are spelled and lead to each other as they must, and those that can be asked for again
stand at their index. -/
structure Interned (p : Pool) (known : List (Entry × PoolIndex)) : Prop where
  entries : ∃ es, p = .ofEntries es
  spelled : ∀ e, some e ∈ p.slots.toList → e.Spelled
  resolves : ∀ e, some e ∈ p.slots.toList → p.Resolves e
  known : ∀ e i, (e, i) ∈ known → p.get i = .ok e

theorem interned_empty : Interned .empty [] where
  entries := ⟨[], rfl⟩
  spelled := by simp [Pool.empty]
  resolves := by simp [Pool.empty]
  known := nofun

theorem Interned.push {p : Pool} {known : List (Entry × PoolIndex)} (h : p.Interned known) {e : Entry}
    (he : e.Spelled) (hres : p.Resolves e) (hsize : (p.push e).size ≤ 65535) :
    (p.push e).Interned ((e, p.nextIndex) :: known) := by
  have hgrows : p.slots.toList <+: (p.push e).slots.toList := ⟨_, (push_slots p e).symm⟩
  have hmem : ∀ e', some e' ∈ (p.push e).slots.toList → some e' ∈ p.slots.toList ∨ e' = e := by
    intro e' he'
    rw [push_slots, List.mem_append] at he'
    refine he'.imp id fun he' => ?_
    unfold Entry.slots at he'
    split at he' <;> simpa using he'
  refine ⟨?_, fun e' he' => ?_, fun e' he' => ?_, fun e' i hi => ?_⟩
  · obtain ⟨es, rfl⟩ := h.entries
    exact ⟨_, push_ofEntries es e⟩
  · rcases hmem e' he' with he' | rfl
    · exact h.spelled e' he'
    · exact he
  · rcases hmem e' he' with he' | rfl
    · exact (h.resolves e' he').mono hgrows
    · exact hres.mono hgrows
  · rcases List.mem_cons.mp hi with hi | hi
    · cases hi
      obtain ⟨es, rfl⟩ := h.entries
      exact get_push hsize
    · exact get_mono hgrows (h.known e' i hi)

end Pool

/-- The text is what some bytes spell. -/
def Text.Spelled (t : Text) : Prop := ∃ bs, ModifiedUtf8.decode bs = .ok t

namespace ClassFile.Builder

open Pool (Stable)

/-! ## Parts of building that add entries -/

/-- On the way from `b` to `b'` only entries have been added. -/
structure Grows (b b' : Builder) : Prop where
  slots : b.pool.slots.toList <+: b'.pool.slots.toList
  rest : ∃ pool known, b' = { b with pool, known }

theorem Grows.refl (b : Builder) : b.Grows b := ⟨List.prefix_refl _, _, _, rfl⟩

theorem Grows.trans {b b' b'' : Builder} (h : b.Grows b') (h' : b'.Grows b'') : b.Grows b'' := by
  refine ⟨h.slots.trans h'.slots, ?_⟩
  obtain ⟨pool, known, rfl⟩ := h.rest
  obtain ⟨pool', known', rfl⟩ := h'.rest
  exact ⟨pool', known', rfl⟩

theorem Grows.size_le {b b' : Builder} (h : b.Grows b') : b.pool.size ≤ b'.pool.size :=
  h.slots.length_le

section

variable {α β : Type} {P S : Pool → Prop} {Q : Pool → α → Prop} {R : Pool → β → Prop}

/-- From a builder whose pool has `P`, the part `x` of building only adds entries and, as long as
they fit into a class file, comes to a pool and a result that have `Q`. -/
def Interns (P : Pool → Prop) (x : Build α) (Q : Pool → α → Prop) : Prop :=
  ∀ b : Builder, b.Grows (x.run b).2 ∧
    ((x.run b).2.pool.size ≤ 65535 → b.pool.Interned b.known → P b.pool →
      (x.run b).2.pool.Interned (x.run b).2.known ∧ Q (x.run b).2.pool (x.run b).1)

theorem interns_pure {a : α} (h : ∀ p, P p → Q p a) : Interns P (pure a) Q :=
  fun b => ⟨.refl b, fun _ hb hp => ⟨hb, h _ hp⟩⟩

theorem Interns.bind {x : Build α} {f : α → Build β} (hx : Interns P x Q)
    (hf : ∀ a, Interns (fun p => Q p a) (f a) R) : Interns P (x >>= f) R := by
  intro b
  change b.Grows ((f (x.run b).1).run (x.run b).2).2 ∧ (_ → _ → _ → _ ∧ _)
  obtain ⟨hgrows, hstep⟩ := hx b
  obtain ⟨hgrows', hstep'⟩ := hf (x.run b).1 (x.run b).2
  refine ⟨hgrows.trans hgrows', fun hsize hb hp => ?_⟩
  obtain ⟨hb', hq⟩ := hstep (hgrows'.size_le.trans hsize) hb hp
  exact hstep' hsize hb' hq

/-- What holds of a pool before, and is kept when entries are added, holds afterwards. -/
theorem Interns.frame {x : Build α} (h : Interns P x Q) (hS : Stable S) (hP : ∀ p, S p → P p)
    {Q' : Pool → α → Prop} (hQ : ∀ p a, Q p a → S p → Q' p a) : Interns S x Q' := by
  intro b
  refine ⟨(h b).1, fun hsize hb hp => ?_⟩
  obtain ⟨hb', hq⟩ := (h b).2 hsize hb (hP _ hp)
  exact ⟨hb', hQ _ _ hq (hS _ _ (h b).1.slots hp)⟩

end

theorem intern_run (e : Entry) (b : Builder) :
    (intern e).run b = match b.known.lookup e with
      | some i => (i, b)
      | none => (b.pool.nextIndex,
          { b with pool := b.pool.push e, known := (e, b.pool.nextIndex) :: b.known }) := by
  cases h : b.known.lookup e with
  | some i =>
    simp [intern, h]
    rfl
  | none =>
    simp [intern, append, h]
    rfl

/-- An entry that is asked for stands at the index that is given for it. -/
theorem interns_intern {e : Entry} (he : e.Spelled) :
    Interns (fun p => p.Resolves e) (intern e) fun p i => p.get i = .ok e := by
  intro b
  rw [intern_run]
  cases h : b.known.lookup e with
  | some i =>
    refine ⟨.refl b, fun _ hb _ => ⟨hb, hb.known e i ?_⟩⟩
    obtain ⟨before, after, hknown, -⟩ := List.lookup_eq_some_iff.mp h
    rw [hknown]
    exact List.mem_append_right _ List.mem_cons_self
  | none =>
    refine ⟨⟨⟨_, (Pool.push_slots _ e).symm⟩, _, _, rfl⟩, fun hsize hb hres => ?_⟩
    have hb' := hb.push he hres hsize
    exact ⟨hb', hb'.known e _ List.mem_cons_self⟩

/-! ## Constants -/

/-- What a pool can be asked for. -/
inductive Constant where
  | utf8 (text : Text)
  | classRef (name : Text)
  | string (text : Text)
  | integer (value : Int32)
  | float (bits : UInt32)
  | long (value : Int64)
  | double (bits : UInt64)
  | nameAndType (name descriptor : Text)
  | fieldRef (ref : MemberRef)
  | methodRef (ref : MemberRef)
  | interfaceMethodRef (ref : MemberRef)
deriving DecidableEq

namespace Constant

def build : Constant → Build PoolIndex
  | utf8 text => Builder.utf8 text
  | classRef name => Builder.classRef name
  | string text => Builder.string text
  | integer value => intern (.integer value)
  | float bits => intern (.float bits)
  | long value => intern (.long value)
  | double bits => intern (.double bits)
  | nameAndType name descriptor => Builder.nameAndType name descriptor
  | fieldRef ref => Builder.fieldRef ref
  | methodRef ref => Builder.methodRef ref
  | interfaceMethodRef ref => Builder.interfaceMethodRef ref

def texts : Constant → List Text
  | utf8 text | classRef text | string text => [text]
  | integer _ | float _ | long _ | double _ => []
  | nameAndType name descriptor => [name, descriptor]
  | fieldRef ref | methodRef ref | interfaceMethodRef ref => [ref.owner, ref.name, ref.descriptor]

/-- Whether a field can have it as its constant. -/
def IsValue : Constant → Prop
  | integer _ | float _ | long _ | double _ | string _ => True
  | _ => False

/-- The entry at `i` is a reference to that member. -/
def RefersAt (make : PoolIndex → PoolIndex → Entry) (ref : MemberRef) (p : Pool) (i : PoolIndex) :
    Prop :=
  ∃ owner nameAndType, p.get i = .ok (make owner nameAndType) ∧
    p.member owner nameAndType = .ok ref

/-- The constant is what stands at `i`, with all that the entry there leads to. -/
def At (p : Pool) (i : PoolIndex) : Constant → Prop
  | utf8 text => p.utf8 i = .ok text
  | classRef name => p.className i = .ok name
  | string text => ∃ n, p.get i = .ok (.string n) ∧ p.utf8 n = .ok text
  | integer value => p.get i = .ok (.integer value)
  | float bits => p.get i = .ok (.float bits)
  | long value => p.get i = .ok (.long value)
  | double bits => p.get i = .ok (.double bits)
  | nameAndType name descriptor => p.nameAndType i = .ok (name, descriptor)
  | fieldRef ref => RefersAt .fieldRef ref p i
  | methodRef ref => RefersAt .methodRef ref p i
  | interfaceMethodRef ref => RefersAt .interfaceMethodRef ref p i

theorem At.mono {p q : Pool} (h : p.slots.toList <+: q.slots.toList) {i : PoolIndex} {c : Constant}
    (hc : c.At p i) : c.At q i := by
  have hrefers : ∀ make ref, RefersAt make ref p i → RefersAt make ref q i :=
    fun _ _ ⟨o, n, hget, hmember⟩ => ⟨o, n, Pool.get_mono h hget, Pool.member_mono h hmember⟩
  cases c with
  | utf8 text => exact Pool.utf8_mono h hc
  | classRef name => exact Pool.className_mono h hc
  | string text =>
    obtain ⟨n, hget, hn⟩ := hc
    exact ⟨n, Pool.get_mono h hget, Pool.utf8_mono h hn⟩
  | nameAndType name descriptor => exact Pool.nameAndType_mono h hc
  | integer value | float value | long value | double value => exact Pool.get_mono h hc
  | fieldRef ref | methodRef ref | interfaceMethodRef ref => exact hrefers _ ref hc

theorem At.tag_mem {p : Pool} {i : PoolIndex} {c : Constant} (h : c.At p i) (hc : c.IsValue) :
    ∃ e, p.get i = .ok e ∧ e.tag ∈ Parser.constantTags := by
  cases c with
  | string text =>
    obtain ⟨n, hget, -⟩ := h
    exact ⟨_, hget, by simp [Parser.constantTags, Entry.tag]⟩
  | integer value | float value | long value | double value =>
    exact ⟨_, h, by simp [Parser.constantTags, Entry.tag]⟩
  | utf8 _ | classRef _ | nameAndType _ _ | fieldRef _ | methodRef _ | interfaceMethodRef _ =>
    exact hc.elim

end Constant

theorem interns_utf8 {t : Text} (ht : t.Spelled) :
    Interns (fun _ => True) (utf8 t) fun p i => p.utf8 i = .ok t :=
  (interns_intern (e := .utf8 t) ht).frame (fun _ _ _ _ => trivial) (fun _ _ => ⟨[], rfl, nofun⟩)
    fun _ _ hget _ => Pool.utf8_of_get hget

/-- An entry that points at a text. -/
theorem interns_text (make : PoolIndex → Entry) (hspelled : ∀ n, (make n).Spelled)
    (hrequires : ∀ n, (make n).requirements? = some [⟨n, [.utf8]⟩]) {t : Text} (ht : t.Spelled) :
    Interns (fun _ => True) (do let n ← utf8 t; intern (make n))
      fun p i => ∃ n, p.get i = .ok (make n) ∧ p.utf8 n = .ok t := by
  refine (interns_utf8 ht).bind fun n => (interns_intern (hspelled n)).frame
    (fun p q h hn => Pool.utf8_mono h hn) (fun p hn => ⟨_, hrequires n, ?_⟩)
    fun p i hget hn => ⟨n, hget, hn⟩
  exact List.forall_mem_singleton.mpr (Pool.meets_of_utf8 hn)

theorem interns_classRef {name : Text} (h : name.Spelled) :
    Interns (fun _ => True) (classRef name) fun p i => p.className i = .ok name :=
  (interns_text .classRef (fun _ => trivial) (fun _ => rfl) h).frame
    (fun _ _ _ _ => trivial) (fun _ _ => trivial)
    fun _ _ ⟨_, hget, hn⟩ _ => Pool.className_of_get hget hn

/-- A name, a descriptor, and whatever is made of the two. -/
theorem interns_named {α : Type} {n d : Text} (hn : n.Spelled) (hd : d.Spelled)
    {f : PoolIndex → PoolIndex → Build α} {Q : Pool → α → Prop}
    (hf : ∀ i j, Interns (fun p => p.utf8 i = .ok n ∧ p.utf8 j = .ok d) (f i j) Q) :
    Interns (fun _ => True) (do let i ← utf8 n; let j ← utf8 d; f i j) Q := by
  refine (interns_utf8 hn).bind fun i => Interns.bind ?_ fun j => hf i j
  exact (interns_utf8 hd).frame (fun p q h hi => Pool.utf8_mono h hi) (fun _ _ => trivial)
    fun p j hj hi => ⟨hi, hj⟩

theorem interns_nameAndType {n d : Text} (hn : n.Spelled) (hd : d.Spelled) :
    Interns (fun _ => True) (nameAndType n d) fun p i => p.nameAndType i = .ok (n, d) := by
  refine interns_named hn hd fun i j => (interns_intern (e := .nameAndType i j) trivial).frame
    (fun p q h hp => ⟨Pool.utf8_mono h hp.1, Pool.utf8_mono h hp.2⟩) (fun p hp => ⟨_, rfl, ?_⟩)
    fun p k hget hp => Pool.nameAndType_of_get hget hp.1 hp.2
  exact List.forall_mem_cons.mpr ⟨Pool.meets_of_utf8 hp.1,
    List.forall_mem_singleton.mpr (Pool.meets_of_utf8 hp.2)⟩

theorem interns_member (make : PoolIndex → PoolIndex → Entry) (hspelled : ∀ c n, (make c n).Spelled)
    (hrequires : ∀ c n, (make c n).requirements? = some (Entry.memberRequirements c n))
    {ref : MemberRef} (h : ∀ t ∈ [ref.owner, ref.name, ref.descriptor], t.Spelled) :
    Interns (fun _ => True) (member make ref) (Constant.RefersAt make ref) := by
  have ho := h ref.owner (by simp)
  have hn := h ref.name (by simp)
  have hd := h ref.descriptor (by simp)
  refine (interns_classRef ho).bind fun c => Interns.bind (Q := fun p n =>
    p.nameAndType n = .ok (ref.name, ref.descriptor) ∧ p.className c = .ok ref.owner) ?_ fun n => ?_
  · exact (interns_nameAndType hn hd).frame (fun p q h hc => Pool.className_mono h hc)
      (fun _ _ => trivial) fun p n hp hc => ⟨hp, hc⟩
  · refine (interns_intern (hspelled c n)).frame
      (fun p q h hp => ⟨Pool.nameAndType_mono h hp.1, Pool.className_mono h hp.2⟩)
      (fun p hp => ⟨_, hrequires c n, ?_⟩) fun p i hget hp => ⟨c, n, hget, ?_⟩
    · exact List.forall_mem_cons.mpr ⟨Pool.meets_of_className hp.2,
        List.forall_mem_singleton.mpr (Pool.meets_of_nameAndType hp.1)⟩
    · exact Pool.member_of hp.2 hp.1

/-- A constant that is asked for stands at the index that is given for it. -/
theorem Constant.interns {c : Constant} (h : ∀ t ∈ c.texts, t.Spelled) :
    Interns (fun _ => True) c.build fun p i => c.At p i := by
  have hentry : ∀ e : Entry, e.Spelled → e.requirements? = some [] →
      Interns (fun _ => True) (intern e) fun p i => p.get i = .ok e := fun e he hreq =>
    (interns_intern he).frame (fun _ _ _ _ => trivial) (fun _ _ => ⟨[], hreq, nofun⟩)
      fun _ _ hget _ => hget
  cases c with
  | utf8 text => exact interns_utf8 (h text (by simp [texts]))
  | classRef name => exact interns_classRef (h name (by simp [texts]))
  | string text =>
    exact interns_text .string (fun _ => trivial) (fun _ => rfl) (h text (by simp [texts]))
  | integer value | float value | long value | double value => exact hentry _ trivial rfl
  | nameAndType name descriptor =>
    exact interns_nameAndType (h name (by simp [texts])) (h descriptor (by simp [texts]))
  | fieldRef ref => exact interns_member .fieldRef (fun _ _ => trivial) (fun _ _ => rfl) h
  | methodRef ref => exact interns_member .methodRef (fun _ _ => trivial) (fun _ _ => rfl) h
  | interfaceMethodRef ref =>
    exact interns_member .interfaceMethodRef (fun _ _ => trivial) (fun _ _ => rfl) h

/-! ## Fields and methods -/

/-- A field to be built; there is no constant where the index is zero. -/
structure NewField where
  access : UInt16
  name : Text
  descriptor : Text
  constant : PoolIndex

structure NewMethod where
  access : UInt16
  name : Text
  descriptor : Text
  body : Option Body

/-- What fields and methods have in common: one attribute at most, with its payload. -/
structure NewMember where
  access : UInt16
  name : Text
  descriptor : Text
  extra : Option (Text × Bytes)

def NewField.member (f : NewField) : NewMember where
  access := f.access
  name := f.name
  descriptor := f.descriptor
  extra := if f.constant = 0 then none else some ("ConstantValue", Bytes.be16 f.constant)

def NewMethod.member (m : NewMethod) : NewMember where
  access := m.access
  name := m.name
  descriptor := m.descriptor
  extra := m.body.map fun body => ("Code", bodyBytes body)

/-- The indices that stand for a member. -/
def store (m : NewMember) : Build StoredMember := do
  let n ← utf8 m.name
  let d ← utf8 m.descriptor
  match m.extra with
  | none => pure ⟨m.access, n, d, []⟩
  | some (name, payload) =>
    let a ← utf8 name
    pure ⟨m.access, n, d, [⟨a, payload⟩]⟩

theorem addField_run (f : NewField) (b : Builder) :
    ((addField f.access f.name f.descriptor f.constant).run b).2 =
      { ((store f.member).run b).2 with
        fields := ((store f.member).run b).2.fields ++ [((store f.member).run b).1] } := by
  unfold addField store NewField.member
  dsimp only
  split <;> rfl

theorem addMethod_run (m : NewMethod) (b : Builder) :
    ((addMethod m.access m.name m.descriptor m.body).run b).2 =
      { ((store m.member).run b).2 with
        methods := ((store m.member).run b).2.methods ++ [((store m.member).run b).1] } := by
  obtain ⟨access, name, descriptor, body⟩ := m
  cases body <;> rfl

/-- The index of the name stands for the name that was asked for. -/
structure HoldsAttribute (p : Pool) (a : Text × Bytes) (s : StoredAttribute) : Prop where
  name : p.utf8 s.name = .ok a.1
  payload : s.payload = a.2

/-- All indices stand for what was asked for. -/
structure HoldsMember (p : Pool) (m : NewMember) (s : StoredMember) : Prop where
  access : s.access = m.access
  name : p.utf8 s.name = .ok m.name
  descriptor : p.utf8 s.descriptor = .ok m.descriptor
  attributes : List.Forall₂ (HoldsAttribute p) m.extra.toList s.attributes

section

variable {p q : Pool} (h : p.slots.toList <+: q.slots.toList)

include h

theorem HoldsAttribute.mono {a : Text × Bytes} {s : StoredAttribute} (hs : HoldsAttribute p a s) :
    HoldsAttribute q a s :=
  ⟨Pool.utf8_mono h hs.name, hs.payload⟩

theorem HoldsMember.mono {m : NewMember} {s : StoredMember} (hs : HoldsMember p m s) :
    HoldsMember q m s :=
  ⟨hs.access, Pool.utf8_mono h hs.name, Pool.utf8_mono h hs.descriptor,
    hs.attributes.imp fun _ _ ha => ha.mono h⟩

end

structure NewMember.Spelled (m : NewMember) : Prop where
  name : m.name.Spelled
  descriptor : m.descriptor.Spelled
  extra : ∀ a ∈ m.extra, a.1.Spelled

theorem spelled_constantValue : Text.Spelled "ConstantValue" :=
  ⟨("ConstantValue" : Text).bytes, by cbv⟩

theorem spelled_code : Text.Spelled "Code" := ⟨("Code" : Text).bytes, by cbv⟩

theorem NewField.spelled {f : NewField} (hn : f.name.Spelled) (hd : f.descriptor.Spelled) :
    f.member.Spelled := by
  refine ⟨hn, hd, fun a ha => ?_⟩
  unfold member at ha
  dsimp only at ha
  split at ha
  · cases ha
  · cases ha
    exact spelled_constantValue

theorem NewMethod.spelled {m : NewMethod} (hn : m.name.Spelled) (hd : m.descriptor.Spelled) :
    m.member.Spelled := by
  refine ⟨hn, hd, fun a ha => ?_⟩
  obtain ⟨body, -, rfl⟩ := Option.map_eq_some_iff.mp ha
  exact spelled_code

theorem interns_store {m : NewMember} (h : m.Spelled) :
    Interns (fun _ => True) (store m) fun p s => HoldsMember p m s := by
  refine interns_named h.name h.descriptor fun n d => ?_
  obtain ⟨access, name, descriptor, extra⟩ := m
  cases extra with
  | none => exact interns_pure fun p hp => ⟨rfl, hp.1, hp.2, .nil⟩
  | some a =>
    refine ((interns_utf8 (h.extra a rfl)).frame
      (fun p q h hp => ⟨Pool.utf8_mono h hp.1, Pool.utf8_mono h hp.2⟩) (fun _ _ => trivial)
      fun p i hi hp => And.intro hi hp).bind fun i => ?_
    exact interns_pure fun p hp => ⟨rfl, hp.2.1, hp.2.2, .cons ⟨hp.1, rfl⟩ .nil⟩

/-! ## Calls one after the other -/

/-- All that has been asked of a builder, in order, and the indices that were given for constants. -/
structure Requests where
  name : Text
  superName : Text
  minor : UInt16 := 0
  major : UInt16 := 52
  access : UInt16 := 0x0021
  interfaces : List Text := []
  fields : List NewField := []
  methods : List NewMethod := []
  attributes : List (Text × Bytes) := []
  given : List (Constant × PoolIndex) := []

/-- The builder is what a new one becomes when that is asked of it. -/
inductive Reached : Requests → Builder → Prop
  | start (name superName : Text) : Reached { name, superName } (start name superName)
  | constant {r : Requests} {b : Builder} (c : Constant) {i : PoolIndex} : Reached r b →
    (c.build.run b).1 = i → Reached { r with given := r.given ++ [(c, i)] } (c.build.run b).2
  | interface {r : Requests} {b : Builder} (name : Text) : Reached r b →
    Reached { r with interfaces := r.interfaces ++ [name] } ((addInterface name).run b).2
  | field {r : Requests} {b : Builder} (f : NewField) : Reached r b →
    Reached { r with fields := r.fields ++ [f] }
      ((addField f.access f.name f.descriptor f.constant).run b).2
  | method {r : Requests} {b : Builder} (m : NewMethod) : Reached r b →
    Reached { r with methods := r.methods ++ [m] }
      ((addMethod m.access m.name m.descriptor m.body).run b).2
  | classAttribute {r : Requests} {b : Builder} (name : Text) (payload : Bytes) : Reached r b →
    Reached { r with attributes := r.attributes ++ [(name, payload)] }
      ((addAttribute name payload).run b).2
  | versions {r : Requests} {b : Builder} (minor major : UInt16) : Reached r b →
    Reached { r with minor, major } { b with minor, major }
  | access {r : Requests} {b : Builder} (access : UInt16) : Reached r b →
    Reached { r with access } { b with access }

/-- Whatever the builder holds is what was asked for. -/
structure Records (r : Requests) (b : Builder) : Prop where
  interned : b.pool.Interned b.known
  minor : b.minor = r.minor
  major : b.major = r.major
  access : b.access = r.access
  thisClass : b.pool.className b.thisClass = .ok r.name
  superClass : if r.superName.isEmpty then b.superClass = 0
    else b.pool.className b.superClass = .ok r.superName
  interfaces : List.Forall₂ (fun name i => b.pool.className i = .ok name) r.interfaces b.interfaces
  fields : List.Forall₂ (fun f s => HoldsMember b.pool f.member s) r.fields b.fields
  methods : List.Forall₂ (fun m s => HoldsMember b.pool m.member s) r.methods b.methods
  attributes : List.Forall₂ (HoldsAttribute b.pool) r.attributes b.attributes
  given : ∀ c i, (c, i) ∈ r.given → c.At b.pool i

theorem Records.grow {r : Requests} {b b' : Builder} (h : Records r b) (hgrows : b.Grows b')
    (hinterned : b'.pool.Interned b'.known) : Records r b' := by
  have hslots := hgrows.slots
  obtain ⟨pool, known, rfl⟩ := hgrows.rest
  refine ⟨hinterned, h.minor, h.major, h.access, Pool.className_mono hslots h.thisClass, ?_, ?_, ?_,
    ?_, ?_, ?_⟩
  · have hsuper := h.superClass
    split at hsuper
    · next hempty => rwa [if_pos hempty]
    · next hempty =>
      rw [if_neg hempty]
      exact Pool.className_mono hslots hsuper
  · exact h.interfaces.imp fun _ _ hi => Pool.className_mono hslots hi
  · exact h.fields.imp fun _ _ hs => hs.mono hslots
  · exact h.methods.imp fun _ _ hs => hs.mono hslots
  · exact h.attributes.imp fun _ _ hs => hs.mono hslots
  · exact fun c i hc => (h.given c i hc).mono hslots

structure Requests.Spelled (r : Requests) : Prop where
  name : r.name.Spelled
  superName : r.superName.Spelled
  interfaces : ∀ name ∈ r.interfaces, name.Spelled
  fields : ∀ f ∈ r.fields, f.name.Spelled ∧ f.descriptor.Spelled
  methods : ∀ m ∈ r.methods, m.name.Spelled ∧ m.descriptor.Spelled
  attributes : ∀ a ∈ r.attributes, a.1.Spelled
  given : ∀ g ∈ r.given, ∀ t ∈ g.1.texts, t.Spelled

/-- A class of that name without a superclass, and with nothing else so far. -/
def named (name : Text) : Builder :=
  { ((classRef name).run {}).2 with thisClass := ((classRef name).run {}).1 }

theorem start_of_isEmpty {superName : Text} (h : superName.isEmpty) (name : Text) :
    start name superName = named name := by
  simp only [start, h]
  rfl

theorem start_of_not_isEmpty {superName : Text} (h : ¬ superName.isEmpty) (name : Text) :
    start name superName = { ((classRef superName).run (named name)).2 with
      superClass := ((classRef superName).run (named name)).1 } := by
  simp only [start, named, Bool.eq_false_of_not_eq_true h]
  generalize classRef name = c, classRef superName = s
  rfl

theorem records_named {name : Text} (hname : name.Spelled) (hsize : (named name).pool.size ≤ 65535) :
    Records { name, superName := .empty } (named name) := by
  obtain ⟨hgrows, hstep⟩ := interns_classRef hname {}
  obtain ⟨hinterned, hat⟩ := hstep hsize Pool.interned_empty trivial
  obtain ⟨pool, known, heq⟩ := hgrows.rest
  unfold named
  rw [heq] at hinterned hat ⊢
  exact ⟨hinterned, rfl, rfl, rfl, hat, rfl, .nil, .nil, .nil, .nil, nofun⟩

theorem Records.withSuper {r : Requests} {b : Builder} (hr : b.pool.size ≤ 65535 → Records r b)
    {superName : Text} (hspelled : superName.Spelled) (hempty : ¬ superName.isEmpty)
    (hsize : ((classRef superName).run b).2.pool.size ≤ 65535) :
    Records { r with superName }
      { ((classRef superName).run b).2 with superClass := ((classRef superName).run b).1 } := by
  obtain ⟨hgrows, hstep⟩ := interns_classRef hspelled b
  have hr := hr (hgrows.size_le.trans hsize)
  obtain ⟨hinterned, hat⟩ := hstep hsize hr.interned trivial
  refine { hr.grow hgrows hinterned with superClass := ?_ }
  rw [if_neg hempty]
  exact hat

theorem records_start {name superName : Text} (hname : name.Spelled) (hsuper : superName.Spelled)
    (hsize : (start name superName).pool.size ≤ 65535) :
    Records { name, superName } (start name superName) := by
  by_cases hempty : superName.isEmpty
  · rw [start_of_isEmpty hempty] at hsize ⊢
    have hr := records_named hname hsize
    refine { hr with superClass := ?_ }
    rw [if_pos hempty]
    exact hr.superClass
  · rw [start_of_not_isEmpty hempty] at hsize ⊢
    exact Records.withSuper (records_named hname) hsuper hempty hsize

/-- Call after call, a builder holds what it was asked for. -/
theorem Reached.records {r : Requests} {b : Builder} (h : Reached r b) (hspelled : r.Spelled)
    (hsize : b.pool.size ≤ 65535) : Records r b := by
  induction h with
  | start name superName => exact records_start hspelled.name hspelled.superName hsize
  | constant c _ hi ih =>
    subst hi
    obtain ⟨hgiven, hlast⟩ := List.forall_mem_append.mp hspelled.given
    obtain ⟨hgrows, hstep⟩ := Constant.interns (List.forall_mem_singleton.mp hlast) _
    have hr := ih { hspelled with given := hgiven } (hgrows.size_le.trans hsize)
    obtain ⟨hinterned, hat⟩ := hstep hsize hr.interned trivial
    have hr' := hr.grow hgrows hinterned
    refine { hr' with given := fun c' i hi => ?_ }
    rcases List.mem_append.mp hi with hi | hi
    · exact hr'.given c' i hi
    · cases List.mem_singleton.mp hi
      exact hat
  | interface name _ ih =>
    obtain ⟨hinterfaces, hlast⟩ := List.forall_mem_append.mp hspelled.interfaces
    obtain ⟨hgrows, hstep⟩ := interns_classRef (List.forall_mem_singleton.mp hlast) _
    have hr := ih { hspelled with interfaces := hinterfaces } (hgrows.size_le.trans hsize)
    obtain ⟨hinterned, hat⟩ := hstep hsize hr.interned trivial
    have hr' := hr.grow hgrows hinterned
    exact { hr' with interfaces := List.rel_append hr'.interfaces (.cons hat .nil) }
  | field f _ ih =>
    obtain ⟨hfields, hlast⟩ := List.forall_mem_append.mp hspelled.fields
    obtain ⟨hn, hd⟩ := List.forall_mem_singleton.mp hlast
    rw [addField_run] at hsize ⊢
    obtain ⟨hgrows, hstep⟩ := interns_store (NewField.spelled hn hd) _
    have hr := ih { hspelled with fields := hfields } (hgrows.size_le.trans hsize)
    obtain ⟨hinterned, hat⟩ := hstep hsize hr.interned trivial
    have hr' := hr.grow hgrows hinterned
    exact { hr' with fields := List.rel_append hr'.fields (.cons hat .nil) }
  | method m _ ih =>
    obtain ⟨hmethods, hlast⟩ := List.forall_mem_append.mp hspelled.methods
    obtain ⟨hn, hd⟩ := List.forall_mem_singleton.mp hlast
    rw [addMethod_run] at hsize ⊢
    obtain ⟨hgrows, hstep⟩ := interns_store (NewMethod.spelled hn hd) _
    have hr := ih { hspelled with methods := hmethods } (hgrows.size_le.trans hsize)
    obtain ⟨hinterned, hat⟩ := hstep hsize hr.interned trivial
    have hr' := hr.grow hgrows hinterned
    exact { hr' with methods := List.rel_append hr'.methods (.cons hat .nil) }
  | classAttribute name payload _ ih =>
    obtain ⟨hattributes, hlast⟩ := List.forall_mem_append.mp hspelled.attributes
    obtain ⟨hgrows, hstep⟩ := interns_utf8 (hlast (name, payload) List.mem_cons_self) _
    have hr := ih { hspelled with attributes := hattributes } (hgrows.size_le.trans hsize)
    obtain ⟨hinterned, hat⟩ := hstep hsize hr.interned trivial
    have hr' := hr.grow hgrows hinterned
    exact { hr' with attributes := List.rel_append hr'.attributes (.cons ⟨hat, rfl⟩ .nil) }
  | versions minor major _ ih =>
    have hr := ih { hspelled with } hsize
    exact { hr with minor := rfl, major := rfl }
  | access access _ ih =>
    have hr := ih { hspelled with } hsize
    exact { hr with access := rfl }

end ClassFile.Builder

end ClassWasm
