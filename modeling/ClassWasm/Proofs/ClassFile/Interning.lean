/-
  Indices that a builder gives stay right as long as its pool fits into a class file. An index is
  the number of slots so far, cut to 16 bits, so that a pool which grows too large gives one index
  twice; but then it cannot be written either. Nothing is supposed about the texts here, or about
  entries that are added as they are.

  Two things are kept apart. What a builder knows only grows, whatever the size of its pool
  (`Extends`), and so a constant that is asked for again has the index it had (`index?`). What it
  knows is right as long as the pool is small enough (`Sound`), and an entry says which constant it
  is (`meaning?`); so different constants have different indices. Main result: `calls_answered`.
-/
import ClassWasm.Proofs.ClassFile.RoundTrip
import ClassWasm.Proofs.ConstantPool.Accessors

namespace ClassWasm

/-! ## Entries behind successful look-ups -/

namespace Pool

variable {p : Pool} {i : PoolIndex} {tags : List Tag} {e : Entry}

theorem get_of_expect (h : p.expect i tags = .ok e) : p.get i = .ok e := by
  unfold expect at h
  split at h
  · cases h
  · next e' he =>
    split at h
    · cases h
      exact he
    · cases h

theorem get_of_utf8 {text : Text} (h : p.utf8 i = .ok text) : p.get i = .ok (.utf8 text) := by
  obtain ⟨e, he, h⟩ := bind_eq_ok.mp h
  cases e with
  | utf8 text =>
    cases h
    exact get_of_expect he
  | _ => cases h

theorem get_of_className {name : Text} (h : p.className i = .ok name) :
    ∃ n, p.get i = .ok (.classRef n) ∧ p.utf8 n = .ok name := by
  obtain ⟨e, he, h⟩ := bind_eq_ok.mp h
  cases e with
  | classRef n => exact ⟨n, get_of_expect he, h⟩
  | _ => cases h

theorem get_of_nameAndType {name descriptor : Text}
    (h : p.nameAndType i = .ok (name, descriptor)) :
    ∃ n d, p.get i = .ok (.nameAndType n d) ∧ p.utf8 n = .ok name ∧ p.utf8 d = .ok descriptor := by
  obtain ⟨e, he, h⟩ := bind_eq_ok.mp h
  cases e with
  | nameAndType n d =>
    obtain ⟨name', hn, h⟩ := bind_eq_ok.mp h
    obtain ⟨descriptor', hd, h⟩ := bind_eq_ok.mp h
    cases h
    exact ⟨n, d, get_of_expect he, hn, hd⟩
  | _ => cases h

end Pool

namespace ClassFile.Builder

/-! ## Constants known to a builder -/

/-- Entries that can be asked for again, and their indices. -/
abbrev Known := List (Entry × PoolIndex)

/-- What is known stays known, under the same index. -/
def Known.Keeps (known known' : Known) : Prop :=
  ∀ e i, known.lookup e = some i → known'.lookup e = some i

/-- What is known stands in the pool. -/
def Known.In (known : Known) (p : Pool) : Prop := ∀ e i, known.lookup e = some i → p.get i = .ok e

namespace Constant

variable {known known' : Known} {p : Pool} {i : PoolIndex} {c : Constant}

def textIndex? (known : Known) (make : PoolIndex → Entry) (text : Text) : Option PoolIndex := do
  let n ← known.lookup (.utf8 text)
  known.lookup (make n)

def nameAndTypeIndex? (known : Known) (name descriptor : Text) : Option PoolIndex := do
  let n ← known.lookup (.utf8 name)
  let d ← known.lookup (.utf8 descriptor)
  known.lookup (.nameAndType n d)

def memberIndex? (known : Known) (make : PoolIndex → PoolIndex → Entry) (ref : MemberRef) :
    Option PoolIndex := do
  let owner ← textIndex? known .classRef ref.owner
  let nameAndType ← nameAndTypeIndex? known ref.name ref.descriptor
  known.lookup (make owner nameAndType)

/-- The index under which the constant, and all that it needs, is known. -/
def index? (known : Known) : Constant → Option PoolIndex
  | utf8 text => known.lookup (.utf8 text)
  | classRef name => textIndex? known .classRef name
  | string text => textIndex? known .string text
  | integer value => known.lookup (.integer value)
  | float bits => known.lookup (.float bits)
  | long value => known.lookup (.long value)
  | double bits => known.lookup (.double bits)
  | nameAndType name descriptor => nameAndTypeIndex? known name descriptor
  | fieldRef ref => memberIndex? known .fieldRef ref
  | methodRef ref => memberIndex? known .methodRef ref
  | interfaceMethodRef ref => memberIndex? known .interfaceMethodRef ref

section

variable (h : known.Keeps known')

include h

theorem textIndex?_mono {make : PoolIndex → Entry} {text : Text}
    (hi : textIndex? known make text = some i) : textIndex? known' make text = some i := by
  obtain ⟨n, hn, hi⟩ := Option.bind_eq_some_iff.mp hi
  exact Option.bind_eq_some_iff.mpr ⟨n, h _ _ hn, h _ _ hi⟩

theorem nameAndTypeIndex?_mono {name descriptor : Text}
    (hi : nameAndTypeIndex? known name descriptor = some i) :
    nameAndTypeIndex? known' name descriptor = some i := by
  obtain ⟨n, hn, hi⟩ := Option.bind_eq_some_iff.mp hi
  obtain ⟨d, hd, hi⟩ := Option.bind_eq_some_iff.mp hi
  exact Option.bind_eq_some_iff.mpr
    ⟨n, h _ _ hn, Option.bind_eq_some_iff.mpr ⟨d, h _ _ hd, h _ _ hi⟩⟩

theorem memberIndex?_mono {make : PoolIndex → PoolIndex → Entry} {ref : MemberRef}
    (hi : memberIndex? known make ref = some i) : memberIndex? known' make ref = some i := by
  obtain ⟨o, ho, hi⟩ := Option.bind_eq_some_iff.mp hi
  obtain ⟨n, hn, hi⟩ := Option.bind_eq_some_iff.mp hi
  exact Option.bind_eq_some_iff.mpr ⟨o, textIndex?_mono h ho,
    Option.bind_eq_some_iff.mpr ⟨n, nameAndTypeIndex?_mono h hn, h _ _ hi⟩⟩

theorem index?_mono (hi : index? known c = some i) : index? known' c = some i := by
  cases c with
  | classRef text | string text => exact textIndex?_mono h hi
  | nameAndType name descriptor => exact nameAndTypeIndex?_mono h hi
  | fieldRef ref | methodRef ref | interfaceMethodRef ref => exact memberIndex?_mono h hi
  | utf8 v | integer v | float v | long v | double v => exact h _ _ hi

end

section

variable (h : known.In p)

include h

theorem at_of_textIndex? {make : PoolIndex → Entry} {text : Text}
    (hi : textIndex? known make text = some i) :
    ∃ n, p.get i = .ok (make n) ∧ p.utf8 n = .ok text := by
  obtain ⟨n, hn, hi⟩ := Option.bind_eq_some_iff.mp hi
  exact ⟨n, h _ _ hi, Pool.utf8_of_get (h _ _ hn)⟩

theorem at_of_nameAndTypeIndex? {name descriptor : Text}
    (hi : nameAndTypeIndex? known name descriptor = some i) :
    p.nameAndType i = .ok (name, descriptor) := by
  obtain ⟨n, hn, hi⟩ := Option.bind_eq_some_iff.mp hi
  obtain ⟨d, hd, hi⟩ := Option.bind_eq_some_iff.mp hi
  exact Pool.nameAndType_of_get (h _ _ hi) (Pool.utf8_of_get (h _ _ hn))
    (Pool.utf8_of_get (h _ _ hd))

theorem at_of_memberIndex? {make : PoolIndex → PoolIndex → Entry} {ref : MemberRef}
    (hi : memberIndex? known make ref = some i) : RefersAt make ref p i := by
  obtain ⟨o, ho, hi⟩ := Option.bind_eq_some_iff.mp hi
  obtain ⟨n, hn, hi⟩ := Option.bind_eq_some_iff.mp hi
  obtain ⟨k, hk, howner⟩ := at_of_textIndex? h ho
  exact ⟨o, n, h _ _ hi,
    Pool.member_of (Pool.className_of_get hk howner) (at_of_nameAndTypeIndex? h hn)⟩

/-- A constant that is known stands at its index. -/
theorem at_of_index? (hi : index? known c = some i) : c.At p i := by
  cases c with
  | utf8 text => exact Pool.utf8_of_get (h _ _ hi)
  | classRef name =>
    obtain ⟨n, hget, hn⟩ := at_of_textIndex? h hi
    exact Pool.className_of_get hget hn
  | string text => exact at_of_textIndex? h hi
  | nameAndType name descriptor => exact at_of_nameAndTypeIndex? h hi
  | fieldRef ref | methodRef ref | interfaceMethodRef ref => exact at_of_memberIndex? h hi
  | integer v | float v | long v | double v => exact h _ _ hi

end

/-- The constant that an entry stands for. -/
def meaning? (p : Pool) : Entry → Option Constant
  | .utf8 text => some (utf8 text)
  | .classRef n => (p.utf8 n).toOption.map classRef
  | .string n => (p.utf8 n).toOption.map string
  | .integer value => some (integer value)
  | .float bits => some (float bits)
  | .long value => some (long value)
  | .double bits => some (double bits)
  | .nameAndType n d => do some (nameAndType (← (p.utf8 n).toOption) (← (p.utf8 d).toOption))
  | .fieldRef o n => (p.member o n).toOption.map fieldRef
  | .methodRef o n => (p.member o n).toOption.map methodRef
  | .interfaceMethodRef o n => (p.member o n).toOption.map interfaceMethodRef
  | .methodHandle .. | .methodType _ | .dynamic .. | .invokeDynamic .. => none

/-- The entry at its index says which constant it is. -/
theorem At.entry (h : c.At p i) : ∃ e, p.get i = .ok e ∧ meaning? p e = some c := by
  have hrefers {make : PoolIndex → PoolIndex → Entry} {ref : MemberRef} {wrap : MemberRef → Constant}
      (hwrap : ∀ o n, meaning? p (make o n) = (p.member o n).toOption.map wrap)
      (h : RefersAt make ref p i) : ∃ e, p.get i = .ok e ∧ meaning? p e = some (wrap ref) := by
    obtain ⟨o, n, hget, href⟩ := h
    exact ⟨_, hget, by rw [hwrap, href]; rfl⟩
  cases c with
  | utf8 text => exact ⟨_, Pool.get_of_utf8 h, rfl⟩
  | classRef name =>
    obtain ⟨n, hget, hn⟩ := Pool.get_of_className h
    exact ⟨_, hget, by rw [meaning?, hn]; rfl⟩
  | string text =>
    obtain ⟨n, hget, hn⟩ := h
    exact ⟨_, hget, by rw [meaning?, hn]; rfl⟩
  | nameAndType name descriptor =>
    obtain ⟨n, d, hget, hn, hd⟩ := Pool.get_of_nameAndType h
    exact ⟨_, hget, by rw [meaning?, hn, hd]; rfl⟩
  | integer v | float v | long v | double v => exact ⟨_, h, rfl⟩
  | fieldRef ref | methodRef ref | interfaceMethodRef ref => exact hrefers (fun _ _ => rfl) h

theorem At.unique {c' : Constant} (h : c.At p i) (h' : c'.At p i) : c = c' := by
  obtain ⟨e, he, hc⟩ := h.entry
  obtain ⟨e', he', hc'⟩ := h'.entry
  cases he.symm.trans he'
  exact Option.some.inj (hc.symm.trans hc')

end Constant

/-! ## Builders that go on -/

/-- What the builder knows is right, unless its pool is too large to be written. -/
structure Sound (b : Builder) : Prop where
  entries : ∃ es, b.pool = .ofEntries es
  known : b.pool.size ≤ 65535 → Known.In b.known b.pool

/-- On the way from `b` to `b'` nothing has been lost. -/
structure Extends (b b' : Builder) : Prop where
  slots : b.pool.slots.toList <+: b'.pool.slots.toList
  known : Known.Keeps b.known b'.known
  sound : b.Sound → b'.Sound

theorem Extends.refl (b : Builder) : b.Extends b := ⟨List.prefix_refl _, fun _ _ => id, id⟩

theorem Extends.trans {b b' b'' : Builder} (h : b.Extends b') (h' : b'.Extends b'') :
    b.Extends b'' :=
  ⟨h.slots.trans h'.slots, fun e i hi => h'.known e i (h.known e i hi),
    fun hb => h'.sound (h.sound hb)⟩

theorem Extends.of_eq {b b' : Builder} (hpool : b.pool = b'.pool) (hknown : b.known = b'.known) :
    b.Extends b' := by
  refine ⟨by rw [hpool], fun e i => by rw [hknown]; exact id, fun h => ⟨hpool ▸ h.entries, ?_⟩⟩
  rw [← hpool, ← hknown]
  exact h.known

theorem Extends.size_le {b b' : Builder} (h : b.Extends b') : b.pool.size ≤ b'.pool.size :=
  h.slots.length_le

theorem sound_empty : Sound {} := ⟨⟨[], rfl⟩, fun _ _ _ h => (nomatch h)⟩

theorem Sound.push {b : Builder} (h : b.Sound) (e : Entry) :
    (∃ es, b.pool.push e = .ofEntries es) ∧ ((b.pool.push e).size ≤ 65535 →
      (b.pool.push e).get b.pool.nextIndex = .ok e ∧ Known.In b.known (b.pool.push e)) := by
  obtain ⟨es, hes⟩ := h.entries
  refine ⟨⟨es ++ [e], by rw [hes, Pool.push_ofEntries]⟩, fun hsize => ⟨?_, fun e' i hi => ?_⟩⟩
  · rw [hes] at hsize ⊢
    exact Pool.get_push hsize
  · have hlt := Pool.size_lt_push b.pool e
    exact Pool.get_mono ⟨_, (Pool.push_slots b.pool e).symm⟩ (h.known (by omega) e' i hi)

theorem extends_append (e : Entry) (b : Builder) : b.Extends ((append e).run b).2 where
  slots := ⟨_, (Pool.push_slots b.pool e).symm⟩
  known _ _ := id
  sound hb := ⟨(hb.push e).1, fun hsize => ((hb.push e).2 hsize).2⟩

section

variable {α β : Type} {P : Known → α → Prop} {Q : Known → β → Prop}

/-- The part `x` of building loses nothing, and what the builder then knows of the result has
`P`. -/
def Learns (x : Build α) (P : Known → α → Prop) : Prop :=
  ∀ b : Builder, b.Extends (x.run b).2 ∧ P (x.run b).2.known (x.run b).1

/-- What is known after the first part is still known after the second. -/
theorem Learns.bind {x : Build α} {f : α → Build β} (hx : Learns x P)
    (hP : ∀ known known' a, Known.Keeps known known' → P known a → P known' a)
    (hf : ∀ a, Learns (f a) fun known c => P known a → Q known c) : Learns (x >>= f) Q := by
  intro b
  obtain ⟨hextends, ha⟩ := hx b
  obtain ⟨hextends', hc⟩ := hf (x.run b).1 (x.run b).2
  exact ⟨hextends.trans hextends', hc (hP _ _ _ hextends'.known ha)⟩

theorem Learns.andThen {x : Build α} {f : α → Build β} (hx : Learns x P)
    (hf : ∀ a, Learns (f a) fun _ _ => True) : Learns (x >>= f) fun _ _ => True :=
  fun b => ⟨(hx b).1.trans (hf (x.run b).1 (x.run b).2).1, trivial⟩

end

theorem Learns.imp {α : Type} {x : Build α} {P Q : Known → α → Prop} (h : Learns x P)
    (hPQ : ∀ known a, P known a → Q known a) : Learns x Q :=
  fun b => ⟨(h b).1, hPQ _ _ (h b).2⟩

theorem lookup_cons {known : Known} {e e' : Entry} {i : PoolIndex} :
    List.lookup e' ((e, i) :: known) = if e' = e then some i else known.lookup e' := by
  rw [List.lookup_cons]
  by_cases h : e' = e
  · rw [if_pos h, beq_iff_eq.mpr h]
  · rw [if_neg h, beq_eq_false_iff_ne.mpr h]

theorem learns_intern (e : Entry) : Learns (intern e) fun known i => known.lookup e = some i := by
  intro b
  rw [intern_run]
  cases h : b.known.lookup e with
  | some i => exact ⟨.refl b, h⟩
  | none =>
    refine ⟨⟨⟨_, (Pool.push_slots b.pool e).symm⟩, fun e' i hi => ?_, fun hb => ?_⟩, ?_⟩
    · -- The entry was not known, so it takes no place of one that is.
      rw [lookup_cons, if_neg, hi]
      rintro rfl
      cases h.symm.trans hi
    · refine ⟨(hb.push e).1, fun hsize e' i hi => ?_⟩
      obtain ⟨hget, hknown⟩ := (hb.push e).2 hsize
      rw [lookup_cons] at hi
      split at hi
      · next heq =>
        cases hi
        rw [heq]
        exact hget
      · exact hknown e' i hi
    · exact lookup_cons.trans (if_pos rfl)

theorem learns_text (make : PoolIndex → Entry) (t : Text) :
    Learns (do let n ← utf8 t; intern (make n))
      fun known i => Constant.textIndex? known make t = some i :=
  (learns_intern (.utf8 t)).bind (fun _ _ _ h => h _ _) fun n =>
    (learns_intern (make n)).imp fun _ _ hi hn => Option.bind_eq_some_iff.mpr ⟨n, hn, hi⟩

theorem learns_nameAndType (name descriptor : Text) : Learns (nameAndType name descriptor)
    fun known i => Constant.nameAndTypeIndex? known name descriptor = some i := by
  refine (learns_intern (.utf8 name)).bind (fun _ _ _ h => h _ _) fun n => ?_
  refine (learns_intern (.utf8 descriptor)).bind (fun _ _ _ h => h _ _) fun d => ?_
  refine (learns_intern (.nameAndType n d)).imp fun _ _ hi hd hn => ?_
  exact Option.bind_eq_some_iff.mpr ⟨n, hn, Option.bind_eq_some_iff.mpr ⟨d, hd, hi⟩⟩

theorem learns_member (make : PoolIndex → PoolIndex → Entry) (ref : MemberRef) :
    Learns (member make ref) fun known i => Constant.memberIndex? known make ref = some i := by
  refine (learns_text .classRef ref.owner).bind (fun _ _ _ h => Constant.textIndex?_mono h)
    fun o => ?_
  refine (learns_nameAndType ref.name ref.descriptor).bind
    (fun _ _ _ h => Constant.nameAndTypeIndex?_mono h) fun n => ?_
  refine (learns_intern (make o n)).imp fun _ _ hi hn ho => ?_
  exact Option.bind_eq_some_iff.mpr ⟨o, ho, Option.bind_eq_some_iff.mpr ⟨n, hn, hi⟩⟩

/-- A constant that has been asked for is known under the index that was given for it. -/
theorem Constant.learns (c : Constant) :
    Learns c.build fun known i => index? known c = some i := by
  cases c with
  | utf8 text => exact learns_intern _
  | classRef name => exact learns_text .classRef name
  | string text => exact learns_text .string text
  | integer v | float v | long v | double v => exact learns_intern _
  | nameAndType name descriptor => exact learns_nameAndType name descriptor
  | fieldRef ref | methodRef ref | interfaceMethodRef ref => exact learns_member _ ref

/-! ## Calls one after the other -/

/-- A constant is asked for, or an entry is added as it is. -/
inductive Call where
  | typed (c : Constant)
  | raw (e : Entry)
deriving DecidableEq

namespace Call

def build : Call → Build PoolIndex
  | typed c => c.build
  | raw e => append e

/-- What was asked for stands at `i`. -/
def At (p : Pool) (i : PoolIndex) : Call → Prop
  | typed c => c.At p i
  | raw e => p.get i = .ok e

theorem At.entry {p : Pool} {i : PoolIndex} {call : Call} (h : call.At p i) :
    ∃ e, p.get i = .ok e := by
  cases call with
  | typed c =>
    obtain ⟨e, he, -⟩ := Constant.At.entry h
    exact ⟨e, he⟩
  | raw e => exact ⟨e, h⟩

/-- The index that was given for the call is right, unless the pool is too large to be written, and
a constant is known under it. -/
structure Answered (b : Builder) (call : Call) (i : PoolIndex) : Prop where
  typed : ∀ c, call = .typed c → c.index? b.known = some i
  raw : ∀ e, call = .raw e → b.pool.size ≤ 65535 → b.pool.get i = .ok e

theorem Answered.mono {b b' : Builder} {call : Call} {i : PoolIndex} (h : call.Answered b i)
    (hb : b.Extends b') : call.Answered b' i where
  typed c hc := Constant.index?_mono hb.known (h.typed c hc)
  raw e he hsize := Pool.get_mono hb.slots (h.raw e he (hb.size_le.trans hsize))

theorem Answered.at {b : Builder} {call : Call} {i : PoolIndex} (h : call.Answered b i)
    (hb : b.Sound) (hsize : b.pool.size ≤ 65535) : call.At b.pool i := by
  cases call with
  | typed c => exact Constant.at_of_index? (hb.known hsize) (h.typed c rfl)
  | raw e => exact h.raw e rfl hsize

theorem build_answered (call : Call) {b : Builder} (hb : b.Sound) :
    b.Extends (call.build.run b).2 ∧ call.Answered (call.build.run b).2 (call.build.run b).1 := by
  cases call with
  | typed c =>
    obtain ⟨hextends, hindex⟩ := c.learns b
    exact ⟨hextends, fun _ h => Call.typed.inj h ▸ hindex, nofun⟩
  | raw e =>
    refine ⟨extends_append e b, nofun, fun e' he hsize => ?_⟩
    cases he
    exact ((hb.push e).2 hsize).1

/-- Calls answered before stay answered while further calls are made. -/
theorem run_answered {calls : List Call} {is : List PoolIndex} {b b' : Builder} (hb : b.Sound)
    (h : (calls.mapM build).run b = (is, b')) :
    b.Extends b' ∧ List.Forall₂ (fun call i => call.Answered b' i) calls is := by
  induction calls generalizing b is with
  | nil =>
    cases h
    exact ⟨.refl _, .nil⟩
  | cons call calls ih =>
    obtain ⟨hfirst, hanswered⟩ := call.build_answered hb
    rw [List.mapM_cons] at h
    cases h
    obtain ⟨hrest, hall⟩ := ih (hfirst.sound hb) rfl
    exact ⟨hfirst.trans hrest, .cons (hanswered.mono hrest) hall⟩

end Call

theorem extends_start (name superName : Text) : Extends {} (start name superName) := by
  have hset {f : Builder → Builder} (hf : ∀ b, b.Extends (f b)) :
      Learns (modify f) fun _ _ => True := fun b => ⟨hf b, trivial⟩
  unfold start
  dsimp only
  refine ((learns_text .classRef name).andThen fun c => ?_) {} |>.1
  refine (hset ?_).andThen fun _ => ?_
  · exact fun b => .of_eq rfl rfl
  split
  · refine (learns_text .classRef superName).andThen fun s => hset ?_
    exact fun b => .of_eq rfl rfl
  · exact fun b => ⟨.refl b, trivial⟩

/-- As long as the pool can be written, all indices that were given lead to what was asked for, a
constant has one index and no other constant has it, and no index is one at which nothing can
stand. -/
theorem calls_answered {name superName : Text} {calls : List Call} {is : List PoolIndex}
    {b : Builder} {bytes : Bytes}
    (hrun : (calls.mapM Call.build).run (start name superName) = (is, b))
    (hbytes : b.bytes = .ok bytes) :
    List.Forall₂ (fun call i => call.At b.pool i) calls is ∧
    (∀ c i c' i', (Call.typed c, i) ∈ calls.zip is → (Call.typed c', i') ∈ calls.zip is →
      (c = c' ↔ i = i')) ∧
    ∀ i ∈ is, ¬ b.pool.Vacant i := by
  have hstart := (extends_start name superName).sound sound_empty
  obtain ⟨hextends, hanswered⟩ := Call.run_answered hstart hrun
  have hsound := hextends.sound hstart
  obtain ⟨pool, hpool, -⟩ := bind_eq_ok.mp hbytes
  have hsize := Pool.size_le_of_encode (mapError_eq_ok hpool)
  have hat := hanswered.imp fun _ _ h => h.at hsound hsize
  refine ⟨hat, fun c i c' i' hc hc' => ⟨?_, ?_⟩, fun i hi hvacant => ?_⟩
  · rintro rfl
    have hi := (List.forall₂_zip hanswered hc).typed c rfl
    have hi' := (List.forall₂_zip hanswered hc').typed c rfl
    exact Option.some.inj (hi.symm.trans hi')
  · rintro rfl
    exact Constant.At.unique (List.forall₂_zip hat hc) (List.forall₂_zip hat hc')
  · obtain ⟨call, -, hcall⟩ := mem_left_of_forall₂ hat hi
    obtain ⟨e, he⟩ := hcall.entry
    obtain ⟨es, hes⟩ := hsound.entries
    rw [hes] at he hvacant
    exact hvacant.not_holds (Pool.get_ofEntries.mp he)

/-- Texts that are shared, numbers that take two slots, and an entry that is there already. -/
def sharedCalls : List Call :=
  [.typed (.methodRef ⟨"B", "f", "()V"⟩), .typed (.long 1), .typed (.integer 1), .raw (.utf8 "B"),
    .typed (.utf8 "B"), .typed (.methodRef ⟨"B", "f", "()V"⟩), .typed (.string "A"),
    .typed (.double 0), .typed (.classRef "A")]

/-- The reference to a member comes after all that it needs, and slot 10 stays empty. -/
def sharedIndices : List PoolIndex := [8, 9, 11, 12, 3, 8, 13, 14, 2]

def sharedBuilder : Builder := ((sharedCalls.mapM Call.build).run (start "A" "")).2

theorem calls_answered_sharedCalls :
    (sharedCalls.mapM Call.build).run (start "A" "") = (sharedIndices, sharedBuilder) ∧
    (∃ bytes, sharedBuilder.bytes = .ok bytes) ∧
    List.Forall₂ (fun call i => call.At sharedBuilder.pool i) sharedCalls sharedIndices ∧
    (∀ c i c' i', (Call.typed c, i) ∈ sharedCalls.zip sharedIndices →
      (Call.typed c', i') ∈ sharedCalls.zip sharedIndices → (c = c' ↔ i = i')) ∧
    ∀ i ∈ sharedIndices, ¬ sharedBuilder.pool.Vacant i := by
  have hrun : (sharedCalls.mapM Call.build).run (start "A" "") =
      (sharedIndices, sharedBuilder) := by
    unfold sharedBuilder
    generalize hresult : (sharedCalls.mapM Call.build).run (start "A" "") = result
    refine Prod.ext ?_ rfl
    rw [← hresult]
    cbv
  have hsome : sharedBuilder.bytes.toOption.isSome = true := by decide +kernel
  obtain ⟨bytes, hbytes⟩ := Option.isSome_iff_exists.mp hsome
  have hbytes := ok_of_toOption hbytes
  exact ⟨hrun, ⟨bytes, hbytes⟩, calls_answered hrun hbytes⟩

end ClassFile.Builder

end ClassWasm
