/-
  A class file that was built is read as the class that was asked for. Every part of the file is read
  by a reader that takes exactly the bytes written for it (`Reader.Consumes`), and what indices stand
  for is known from the way the builder came by them (`Reached.records`).
-/
import Mathlib
import ClassWasm.Proofs.ClassFile.Building
import ClassWasm.Proofs.ClassFile.Nesting

namespace ClassWasm

open Reader

theorem Pool.size_le_of_encode {p : Pool} {bytes : Bytes} (h : p.encode = .ok bytes) :
    p.size ≤ 65535 := by
  unfold encode at h
  split at h
  · cases h
  · omega

/-- A pool whose entries are spelled and resolve is read as it was written. -/
theorem Pool.Interned.consumes_read {p : Pool} {known : List (Entry × PoolIndex)} {bytes : Bytes}
    (h : p.Interned known) (hbytes : p.encode = .ok bytes) : Consumes read bytes p := by
  obtain ⟨es, rfl⟩ := h.entries
  obtain ⟨hfits, rfl⟩ := encode_eq_ok hbytes
  have hcount : (UInt16.ofNat (ofEntries es).size).toNat = (ofEntries es).size :=
    toNat_count (size_le_of_encode hbytes)
  intro rest offset
  rw [List.append_assoc, List.length_append, ← Nat.add_assoc]
  have hpos : 1 ≤ (UInt16.ofNat (ofEntries es).size).toNat := by
    rw [hcount]
    simp [ofEntries, size]
  exact read_of_inPasses ⟨_, _, es, Cursor.consumes_u16 _ _ offset, hpos,
    inOrder_bytes (fun e he => h.spelled e (mem_ofEntries.mpr he)) hfits rest _, rfl, hcount.symm,
    fun e he => h.resolves e (mem_ofEntries.mpr he)⟩

namespace ClassFile

namespace Parser

theorem consumes_reading {α : Type} (what : Text) {r : Reader Shortage α} {bs : Bytes} {a : α}
    (h : Consumes r bs a) : Consumes (reading what r) bs a :=
  h.mapError _

theorem consumes_resolving {α β : Type} {x : Except Pool.Error α} {f : α → Reader Error β}
    {bs : Bytes} {a : α} {b : β} (hx : x = .ok a) (hf : Consumes (f a) bs b) (what : Text) :
    Consumes (resolving what x >>= f) bs b := by
  subst hx
  exact hf

/-! ## Attributes -/

section

variable {pool : Pool} {nested : Reader Error Attributes}

/-- A payload that is all that is left is read as that attribute. -/
def ReadsAs (pool : Pool) (nested : Reader Error Attributes) (name : Text) (payload : Bytes)
    (a : Attribute) : Prop :=
  ∀ offset, whole (contents pool nested name) ⟨payload, offset⟩ = .ok a

theorem readsAs_of_consumes {name : Text} {payload : Bytes} {a : Attribute}
    (h : Consumes (contents pool nested name) payload a) : ReadsAs pool nested name payload a := by
  intro offset
  have hrun := h [] offset
  rw [List.append_nil] at hrun
  exact bind_eq_ok.mpr ⟨_, hrun, rfl⟩

theorem body_append {payload : Bytes} (hlength : payload.length < 2 ^ 32) (name : Text)
    (rest : Bytes) (offset : Nat) :
    body name (UInt32.ofNat payload.length) ⟨payload ++ rest, offset⟩ =
      .ok (⟨payload, offset⟩, ⟨rest, offset + payload.length⟩) := by
  have htake := Cursor.consumes_take payload rest offset
  unfold body Cursor.sub Cursor.takeInt
  rw [UInt32.toNat_ofNat', Nat.mod_eq_of_lt hlength, if_neg (by omega), Int.toNat_natCast, htake]
  rfl

theorem consumes_oneAttribute {s : StoredAttribute} {name : Text} {a : Attribute}
    (hname : pool.utf8 s.name = .ok name) (hlength : s.payload.length < 2 ^ 32)
    (ha : ReadsAs pool nested name s.payload a) (i : Nat) :
    Consumes (oneAttribute pool nested i)
      (Bytes.be16 s.name ++ Bytes.be32 (UInt32.ofNat s.payload.length) ++ s.payload) a := by
  rw [List.append_assoc]
  refine (consumes_reading _ (Cursor.consumes_u16 s.name)).bind
    (consumes_resolving hname ((consumes_reading _ (Cursor.consumes_u32 _)).bind ?_) _)
  intro rest offset
  refine bind_eq_ok.mpr ⟨_, body_append hlength name rest offset, ?_⟩
  change ((whole (contents pool nested name) ⟨s.payload, offset⟩).map (·, _)).mapError _ = _
  rw [ha offset]
  rfl

/-- Every attribute of a list is read, with its index standing for the name of what it is read as. -/
def AllRead (pool : Pool) (nested : Reader Error Attributes) (ss : List StoredAttribute)
    (as : Attributes) : Prop :=
  List.Forall₂ (fun s a => ∃ name, pool.utf8 s.name = .ok name ∧ s.payload.length < 2 ^ 32 ∧
    ReadsAs pool nested name s.payload a) ss as

theorem consumes_attributes {depth : Nat} {ss : List StoredAttribute} {as : Attributes}
    (hcount : ss.length ≤ 65535) (h : AllRead pool (attributes pool depth) ss as) :
    Consumes (attributes pool (depth + 1)) (Builder.attributesBytes ss) as := by
  refine Consumes.counted (fun n => consumes_reading _ (Cursor.consumes_u16 n)) hcount ?_
  exact h.imp fun s a ⟨name, hname, hlength, ha⟩ i => consumes_oneAttribute hname hlength ha i

theorem consumes_noAttributes (depth : Nat) :
    Consumes (attributes pool (depth + 1)) (Bytes.be16 0) [] := by
  have hnone : Consumes (attributes pool (depth + 1)) (Builder.attributesBytes []) [] :=
    consumes_attributes (Nat.zero_le _) .nil
  exact hnone

theorem consumes_constantValue {i : PoolIndex} {e : Entry} (h : pool.get i = .ok e)
    (htag : e.tag ∈ constantTags) :
    Consumes (contents pool nested "ConstantValue") (Bytes.be16 i) (.constantValue e) := by
  unfold contents
  rw [if_pos rfl]
  refine Consumes.map (a := e) ?_ Attribute.constantValue
  have hu16 : Consumes (liftM Cursor.u16 : Reader Error UInt16) (Bytes.be16 i) i :=
    (Cursor.consumes_u16 i).mapError _
  have hexpect : pool.expect i constantTags = .ok e := Pool.expect_of_get h htag
  have hlift : Consumes (liftM (pool.expect i constantTags) : Reader Error Entry) [] e := by
    rw [hexpect]
    exact consumes_pure e
  exact hu16.bind hlift

theorem consumes_handler {h : Handler}
    (hcatch : h.catchType = 0 ∨ ∃ name, pool.className h.catchType = .ok name) (i : Nat) :
    Consumes (handler pool i) (Builder.handlerBytes h) h := by
  have hparts : Consumes (reading s!"exception handler {i}" do
      let start ← Cursor.u16
      let stop ← Cursor.u16
      let target ← Cursor.u16
      let catchType ← Cursor.u16
      pure (start, stop, target, catchType)) (Builder.handlerBytes h)
      (h.start, h.stop, h.target, h.catchType) := by
    unfold Builder.handlerBytes
    rw [List.append_assoc, List.append_assoc]
    exact consumes_reading _ ((Cursor.consumes_u16 _).bind ((Cursor.consumes_u16 _).bind
      ((Cursor.consumes_u16 _).bind ((Cursor.consumes_u16 _).map
        fun c => (h.start, h.stop, h.target, c)))))
  refine hparts.andThen ?_
  dsimp only
  rcases hcatch with hzero | ⟨name, hname⟩
  · rw [if_neg (by simp [hzero])]
    exact consumes_pure h
  · split
    · exact consumes_resolving hname (consumes_pure h) _
    · exact consumes_pure h

/-- What the parser makes of a body that was built. -/
def bodyCode (body : Body) : Code where
  maxStack := body.maxStack
  maxLocals := body.maxLocals
  bytes := body.bytes
  handlers := body.handlers
  attributes := []

theorem consumes_code {body : Body} (hpos : 1 ≤ body.bytes.length)
    (hle : body.bytes.length ≤ 65535) (hcount : body.handlers.length ≤ 65535)
    (hcatch : ∀ h ∈ body.handlers,
      h.catchType = 0 ∨ ∃ name, pool.className h.catchType = .ok name)
    (hnested : Consumes nested (Bytes.be16 0) []) :
    Consumes (contents pool nested "Code") (Builder.bodyBytes body) (.code (bodyCode body)) := by
  have hassoc : Builder.bodyBytes body = Bytes.be16 body.maxStack ++ (Bytes.be16 body.maxLocals ++
      (Bytes.be32 (UInt32.ofNat body.bytes.length) ++ (body.bytes ++
        ((Bytes.be16 (UInt16.ofNat body.handlers.length) ++
          body.handlers.flatMap Builder.handlerBytes) ++ Bytes.be16 0)))) := by
    simp [Builder.bodyBytes]
  have hlength : (UInt32.ofNat body.bytes.length).toNat = body.bytes.length := by
    rw [UInt32.toNat_ofNat', Nat.mod_eq_of_lt (by omega)]
  have hrange : ¬ (UInt32.ofNat body.bytes.length = 0 ∨ UInt32.ofNat body.bytes.length > 65535) := by
    rw [← UInt32.toNat_inj, gt_iff_lt, UInt32.lt_iff_toNat_lt, hlength]
    change ¬ (body.bytes.length = 0 ∨ 65535 < body.bytes.length)
    omega
  unfold contents
  rw [if_neg (by decide), if_pos rfl, hassoc]
  refine Consumes.map (a := bodyCode body) ?_ Attribute.code
  refine (consumes_reading _ (Cursor.consumes_u16 _)).bind
    ((consumes_reading _ (Cursor.consumes_u16 _)).bind
      ((consumes_reading _ (Cursor.consumes_u32 _)).bind ?_))
  rw [if_neg hrange, hlength]
  have hhandlers : List.Forall₂ (fun h h' => ∀ i, Consumes (handler pool i) (Builder.handlerBytes h)
      h') body.handlers body.handlers :=
    List.forall₂_same.mpr fun h hh i => consumes_handler (hcatch h hh) i
  refine (consumes_reading _ (Cursor.consumes_take _)).bind (Consumes.countedBind (Consumes.counted
    (fun n => consumes_reading _ (Cursor.consumes_u16 n)) hcount hhandlers) ?_)
  exact (hnested.mapError _).map fun as =>
    (⟨body.maxStack, body.maxLocals, body.bytes, body.handlers, as⟩ : Code)

/-- The names of the attributes that are not just kept as bytes. -/
def typedNames : List Text :=
  ["ConstantValue", "Code", "Exceptions", "SourceFile", "Signature", "Synthetic", "Deprecated",
    "LineNumberTable", "LocalVariableTable", "BootstrapMethods"]

theorem readsAs_other {name : Text} (hname : name ∉ typedNames) (payload : Bytes) :
    ReadsAs pool nested name payload (.other name payload) := by
  simp only [typedNames, List.mem_cons, List.not_mem_nil, or_false, not_or] at hname
  obtain ⟨h₁, h₂, h₃, h₄, h₅, h₆, h₇, h₈, h₉, h₁₀⟩ := hname
  intro offset
  unfold contents
  rw [if_neg h₁, if_neg h₂, if_neg h₃, if_neg h₄, if_neg h₅, if_neg h₆, if_neg h₇, if_neg h₈,
    if_neg h₉, if_neg h₁₀]
  rfl

/-! ## Fields and methods -/

section

variable {depth : Nat} {s : StoredMember} {name descriptor : Text} {as : Attributes}

/-- What stands for a field or method in a class file. -/
def memberBytes (s : StoredMember) : Bytes :=
  Bytes.be16 s.access ++ Bytes.be16 s.name ++ Bytes.be16 s.descriptor
    ++ Builder.attributesBytes s.attributes

theorem consumes_member (hname : pool.utf8 s.name = .ok name)
    (hdescriptor : pool.utf8 s.descriptor = .ok descriptor)
    (hcount : s.attributes.length ≤ 65535)
    (has : AllRead pool (attributes pool depth) s.attributes as) :
    Consumes (member pool (depth + 1)) (memberBytes s) (⟨s.access⟩, name, descriptor, as) := by
  unfold memberBytes
  simp only [List.append_assoc]
  refine (consumes_reading _ (Cursor.consumes_u16 _)).bind
    ((consumes_reading _ (Cursor.consumes_u16 _)).bind
      ((consumes_reading _ (Cursor.consumes_u16 _)).bind
        (consumes_resolving hname (consumes_resolving hdescriptor ?_ _) _)))
  exact ((consumes_attributes hcount has).mapError _).map fun as =>
    ((⟨s.access⟩, name, descriptor, as) : Access × Text × Text × Attributes)

theorem consumes_field (hname : pool.utf8 s.name = .ok name)
    (hdescriptor : pool.utf8 s.descriptor = .ok descriptor)
    (hcount : s.attributes.length ≤ 65535)
    (has : AllRead pool (attributes pool depth) s.attributes as)
    (hparse : ∃ t, Descriptor.parseField descriptor = .ok t) (i : Nat) :
    Consumes (field pool (depth + 1) i) (memberBytes s) ⟨⟨s.access⟩, name, descriptor, as⟩ := by
  obtain ⟨t, ht⟩ := hparse
  refine ((consumes_member hname hdescriptor hcount has).mapError _).andThen ?_
  dsimp only
  rw [ht]
  exact consumes_pure _

theorem consumes_method (hname : pool.utf8 s.name = .ok name)
    (hdescriptor : pool.utf8 s.descriptor = .ok descriptor)
    (hcount : s.attributes.length ≤ 65535)
    (has : AllRead pool (attributes pool depth) s.attributes as)
    (hparse : ∃ t, Descriptor.parseMethod descriptor = .ok t) (i : Nat) :
    Consumes (method pool (depth + 1) i) (memberBytes s) ⟨⟨s.access⟩, name, descriptor, as⟩ := by
  obtain ⟨t, ht⟩ := hparse
  refine ((consumes_member hname hdescriptor hcount has).mapError _).andThen ?_
  dsimp only
  rw [ht]
  exact consumes_pure _

end

end

/-! ## The class file -/

theorem consumes_header (minor major : UInt16) :
    Consumes header (Bytes.be32 Builder.magic ++ (Bytes.be16 minor ++ Bytes.be16 major))
      (minor, major) := by
  refine (consumes_reading _ (Cursor.consumes_u32 _)).bind ?_
  rw [if_neg (by decide)]
  exact (consumes_reading _ (Cursor.consumes_u16 minor)).bind
    ((consumes_reading _ (Cursor.consumes_u16 major)).map fun major => (minor, major))

theorem consumes_interface {pool : Pool} {i : PoolIndex} {name : Text}
    (h : pool.className i = .ok name) (n : Nat) :
    Consumes (interface pool n) (Bytes.be16 i) i :=
  (consumes_reading _ (Cursor.consumes_u16 i)).andThen (consumes_resolving h (consumes_pure i) _)

theorem consumes_ifClass {α : Type} {pool : Pool} {i : PoolIndex} {r : Reader Error α} {bs : Bytes}
    {a : α} (hi : i = 0 ∨ ∃ name, pool.className i = .ok name) (h : Consumes r bs a) (what : Text) :
    Consumes (if i ≠ 0 then do let _ ← resolving what (pool.className i); r else r) bs a := by
  split
  · next hne =>
    obtain ⟨name, hname⟩ := hi.resolve_left hne
    exact consumes_resolving hname h what
  · exact h

/-- All that a class under construction holds can be read back, its fields, methods and attributes
as those given. -/
structure Legible (b : Builder) (depth : Nat) (fields : List Field) (methods : List Method)
    (as : Attributes) : Prop where
  interned : b.pool.Interned b.known
  thisClass : ∃ name, b.pool.className b.thisClass = .ok name
  superClass : b.superClass = 0 ∨ ∃ name, b.pool.className b.superClass = .ok name
  interfaces : ∀ i ∈ b.interfaces, ∃ name, b.pool.className i = .ok name
  fields : List.Forall₂ (fun s f => ∀ i, Consumes (field b.pool depth i) (memberBytes s) f)
    b.fields fields
  methods : List.Forall₂ (fun s m => ∀ i, Consumes (method b.pool depth i) (memberBytes s) m)
    b.methods methods
  attributes : Consumes (attributes b.pool depth) (Builder.attributesBytes b.attributes) as
  interfaceCount : b.interfaces.length ≤ 65535
  fieldCount : b.fields.length ≤ 65535
  methodCount : b.methods.length ≤ 65535

section

variable {b : Builder} {depth : Nat} {fields : List Field} {methods : List Method} {as : Attributes}

theorem Legible.consumes_afterSuperclass (h : Legible b depth fields methods as)
    (make : List PoolIndex → List Field → List Method → Attributes → ClassFile) :
    Consumes (afterSuperclass b.pool depth make)
      ((Bytes.be16 (UInt16.ofNat b.interfaces.length) ++ b.interfaces.flatMap Bytes.be16) ++
        (Builder.membersBytes b.fields ++ (Builder.membersBytes b.methods ++
          Builder.attributesBytes b.attributes)))
      (make b.interfaces fields methods as) := by
  have hcount (what : Text) (n : UInt16) : Consumes (reading what Cursor.u16) (Bytes.be16 n) n :=
    consumes_reading what (Cursor.consumes_u16 n)
  have hinterfaces : List.Forall₂ (fun i i' => ∀ n, Consumes (interface b.pool n) (Bytes.be16 i) i')
      b.interfaces b.interfaces := by
    refine List.forall₂_same.mpr fun i hi n => ?_
    obtain ⟨name, hname⟩ := h.interfaces i hi
    exact consumes_interface hname n
  refine Consumes.countedBind (Consumes.counted (hcount _) h.interfaceCount hinterfaces) ?_
  refine ((Consumes.counted (hcount _) h.fieldCount h.fields).mapError _).bind ?_
  refine ((Consumes.counted (hcount _) h.methodCount h.methods).mapError _).bind ?_
  exact (h.attributes.mapError _).map (make b.interfaces fields methods)

theorem consumes_upToSuperclass {pool bs : Bytes} {name : Text} {file : ClassFile}
    (hpool : Consumes Pool.read pool b.pool) (hthis : b.pool.className b.thisClass = .ok name)
    (hsuper : b.superClass = 0 ∨ ∃ name, b.pool.className b.superClass = .ok name)
    (hrest : Consumes (afterSuperclass b.pool depth
      (ClassFile.mk b.minor b.major b.pool ⟨b.access⟩ b.thisClass b.superClass)) bs file) :
    Consumes (classFile depth) ((Bytes.be32 Builder.magic ++ (Bytes.be16 b.minor ++
      Bytes.be16 b.major)) ++ (pool ++ (Bytes.be16 b.access ++ (Bytes.be16 b.thisClass ++
        (Bytes.be16 b.superClass ++ bs))))) file := by
  rw [classFile_eq]
  exact (consumes_header b.minor b.major).bind (((hpool.mapError _).mapError _).bind
    ((consumes_reading _ (Cursor.consumes_u16 b.access)).bind
      ((consumes_reading _ (Cursor.consumes_u16 b.thisClass)).bind
        (consumes_resolving hthis ((consumes_reading _ (Cursor.consumes_u16 b.superClass)).bind
          (consumes_ifClass hsuper hrest _)) _))))

theorem Legible.consumes_classFile (h : Legible b depth fields methods as) {bytes : Bytes}
    (hbytes : b.bytes = .ok bytes) :
    Consumes (classFile depth) bytes ⟨b.minor, b.major, b.pool, ⟨b.access⟩, b.thisClass,
      b.superClass, b.interfaces, fields, methods, as⟩ := by
  obtain ⟨pool, hpool, hbytes⟩ := bind_eq_ok.mp hbytes
  cases hbytes
  obtain ⟨name, hthis⟩ := h.thisClass
  have hall := consumes_upToSuperclass (h.interned.consumes_read (mapError_eq_ok hpool)) hthis
    h.superClass (h.consumes_afterSuperclass _)
  simpa only [List.append_assoc] using hall

theorem Legible.parse (h : Legible b depth fields methods as) {bytes : Bytes}
    (hbytes : b.bytes = .ok bytes) (hdepth : bytes.length ≤ depth) :
    ClassFile.parse bytes = .ok ⟨b.minor, b.major, b.pool, ⟨b.access⟩, b.thisClass, b.superClass,
      b.interfaces, fields, methods, as⟩ := by
  have hread := h.consumes_classFile hbytes [] 0
  rw [List.append_nil, classFile_depth hdepth] at hread
  exact bind_eq_ok.mpr ⟨_, hread, rfl⟩

end

end Parser

namespace Builder

open ClassWasm.ClassFile.Parser

/-! ## What was asked for -/

/-- There is no constant, or it is a value that was asked for. -/
structure NewField.Proper (given : List (Constant × PoolIndex)) (f : NewField) : Prop where
  descriptor : ∃ t, Descriptor.parseField f.descriptor = .ok t
  constant : f.constant = 0 ∨ ∃ c : Constant, c.IsValue ∧ (c, f.constant) ∈ given

/-- There is code, there is room for it, and what is caught is a class that was asked for. -/
structure ProperBody (given : List (Constant × PoolIndex)) (body : Body) : Prop where
  nonempty : 1 ≤ body.bytes.length
  room : body.bytes.length ≤ 65535
  handlerCount : body.handlers.length ≤ 65535
  catchTypes : ∀ h ∈ body.handlers,
    h.catchType = 0 ∨ ∃ name, (Constant.classRef name, h.catchType) ∈ given

structure NewMethod.Proper (given : List (Constant × PoolIndex)) (m : NewMethod) : Prop where
  descriptor : ∃ t, Descriptor.parseMethod m.descriptor = .ok t
  body : ∀ body ∈ m.body, ProperBody given body

/-- What can be asked for such that the class file is one: there is room in it for all counts and
lengths, and nothing in it is left to the reader to refuse. -/
structure Requests.Proper (r : Requests) : Prop where
  spelled : r.Spelled
  fields : ∀ f ∈ r.fields, f.Proper r.given
  methods : ∀ m ∈ r.methods, m.Proper r.given
  attributes : ∀ a ∈ r.attributes, a.1 ∉ typedNames ∧ a.2.length < 2 ^ 32
  interfaceCount : r.interfaces.length ≤ 65535
  fieldCount : r.fields.length ≤ 65535
  methodCount : r.methods.length ≤ 65535
  attributeCount : r.attributes.length ≤ 65535

/-- The field as it is in the class file. -/
def NewField.field (p : Pool) (f : NewField) : Field where
  access := ⟨f.access⟩
  name := f.name
  descriptor := f.descriptor
  attributes := ((p.get f.constant).toOption.map .constantValue).toList

/-- The method as it is in the class file. -/
def NewMethod.method (m : NewMethod) : Method where
  access := ⟨m.access⟩
  name := m.name
  descriptor := m.descriptor
  attributes := (m.body.map fun body => .code (bodyCode body)).toList

/-- The class file says all that was asked for. -/
structure Answers (r : Requests) (file : ClassFile) : Prop where
  minor : file.minor = r.minor
  major : file.major = r.major
  access : file.access = ⟨r.access⟩
  name : file.className = .ok r.name
  superName : file.superName = r.superName
  interfaces : List.Forall₂ (fun name i => file.pool.className i = .ok name) r.interfaces
    file.interfaces
  fields : file.fields = r.fields.map (·.field file.pool)
  methods : file.methods = r.methods.map NewMethod.method
  attributeNames : file.attributes.map Attribute.name = r.attributes.map Prod.fst
  /-- The last attribute of a name counts. -/
  payloads : ∀ name, file.attributes.payload? name = r.attributes.reverse.lookup name
  given : ∀ c i, (c, i) ∈ r.given → c.At file.pool i

section

variable {p : Pool} {nested : Reader ClassFile.Error Attributes} {s : StoredMember}

theorem HoldsMember.length_le {m : NewMember} (h : HoldsMember p m s) :
    s.attributes.length ≤ 65535 := by
  rw [← h.attributes.length_eq]
  cases m.extra <;> simp

theorem NewField.allRead {f : NewField} (hs : HoldsMember p f.member s)
    (hconstant : f.constant = 0 ∨ ∃ e, p.get f.constant = .ok e ∧ e.tag ∈ constantTags) :
    AllRead p nested s.attributes (f.field p).attributes := by
  obtain ⟨access, name, descriptor, attributes⟩ := s
  have hholds := hs.attributes
  unfold NewField.member NewField.field at *
  dsimp only at hholds ⊢
  split at hholds
  · next hzero =>
    rw [hzero]
    cases hholds
    exact .nil
  · next hne =>
    obtain ⟨e, he, htag⟩ := hconstant.resolve_left hne
    cases hholds with
    | cons ha hnil =>
      cases hnil
      rw [he]
      refine .cons ⟨_, ha.name, ?_, ?_⟩ .nil
      · rw [ha.payload]
        simp [Bytes.be16]
      · rw [ha.payload]
        exact readsAs_of_consumes (consumes_constantValue he htag)

theorem bodyBytes_length (body : Body) :
    (bodyBytes body).length = 12 + body.bytes.length + 8 * body.handlers.length := by
  have hhandlers : (body.handlers.flatMap handlerBytes).length = 8 * body.handlers.length := by
    simp [handlerBytes, Bytes.be16, Nat.mul_comm]
  simp only [bodyBytes, List.length_append, hhandlers, Bytes.be16, Bytes.be32, List.length_cons,
    List.length_nil]
  omega

theorem NewMethod.allRead {m : NewMethod} (hs : HoldsMember p m.member s)
    {given : List (Constant × PoolIndex)} (hm : m.Proper given)
    (hgiven : ∀ c i, (c, i) ∈ given → c.At p i) (hnested : Consumes nested (Bytes.be16 0) []) :
    AllRead p nested s.attributes m.method.attributes := by
  obtain ⟨access, name, descriptor, body⟩ := m
  obtain ⟨access', name', descriptor', attributes⟩ := s
  have hholds := hs.attributes
  cases body with
  | none =>
    cases hholds
    exact .nil
  | some body =>
    obtain ⟨hpos, hroom, hcount, hcatch⟩ := hm.body body rfl
    cases hholds with
    | cons ha hnil =>
      cases hnil
      refine .cons ⟨_, ha.name, ?_, ?_⟩ .nil
      · rw [ha.payload, bodyBytes_length]
        omega
      · rw [ha.payload]
        refine readsAs_of_consumes (consumes_code hpos hroom hcount (fun h hh => ?_) hnested)
        exact (hcatch h hh).imp id fun ⟨name, hname⟩ => ⟨name, hgiven _ _ hname⟩

theorem superName_of {file : ClassFile} {name : Text}
    (h : if name.isEmpty then file.superClass = 0
      else file.pool.className file.superClass = .ok name) : file.superName = name := by
  unfold superName
  split at h
  · next hempty =>
    rw [if_pos h]
    obtain ⟨bytes⟩ := name
    exact congrArg Text.mk (List.isEmpty_iff.mp hempty).symm
  · split
    · next hzero =>
      rw [hzero] at h
      cases h
    · rw [h]

theorem payload?_other (as : List (Text × Bytes)) (name : Text) :
    Attributes.payload? (as.map fun a => .other a.1 a.2) name = as.reverse.lookup name := by
  unfold Attributes.payload? Attributes.last?
  rw [← List.map_reverse]
  induction as.reverse with
  | nil => rfl
  | cons a as ih =>
    rw [List.map_cons, List.findSome?_cons, List.lookup_cons, ih]
    by_cases h : a.1 = name
    · simp [h]
    · have hne : (name == a.1) = false := by simpa using Ne.symm h
      simp [h, hne]

section

variable {r : Requests} {b : Builder} (h : Records r b) (hr : r.Proper) (depth : Nat)

include h hr

theorem Records.consumes_fields : List.Forall₂
    (fun s f => ∀ i, Consumes (field b.pool (depth + 1) i) (memberBytes s) f) b.fields
    (r.fields.map (·.field b.pool)) := by
  rw [List.forall₂_map_right_iff]
  refine (List.forall₂_and_left _ _ |>.mpr ⟨hr.fields, h.fields⟩).flip.imp fun s f ⟨hf, hs⟩ i => ?_
  have hconstant : f.constant = 0 ∨
      ∃ e, b.pool.get f.constant = .ok e ∧ e.tag ∈ constantTags := by
    refine hf.constant.imp id fun ⟨c, hvalue, hc⟩ => ?_
    exact (h.given c _ hc).tag_mem hvalue
  have hall : AllRead b.pool (Parser.attributes b.pool depth) s.attributes
      (f.field b.pool).attributes := NewField.allRead hs hconstant
  have hread := consumes_field hs.name hs.descriptor hs.length_le hall hf.descriptor i
  rwa [hs.access] at hread

theorem Records.consumes_methods : List.Forall₂
    (fun s m => ∀ i, Consumes (method b.pool (depth + 2) i) (memberBytes s) m) b.methods
    (r.methods.map NewMethod.method) := by
  rw [List.forall₂_map_right_iff]
  refine (List.forall₂_and_left _ _ |>.mpr ⟨hr.methods, h.methods⟩).flip.imp fun s m ⟨hm, hs⟩ i => ?_
  have hall : AllRead b.pool (Parser.attributes b.pool (depth + 1)) s.attributes
      m.method.attributes := NewMethod.allRead hs hm h.given (consumes_noAttributes depth)
  have hread := consumes_method hs.name hs.descriptor hs.length_le hall hm.descriptor i
  rwa [hs.access] at hread

theorem Records.consumes_attributes : Consumes (Parser.attributes b.pool (depth + 1))
    (attributesBytes b.attributes) (r.attributes.map fun a => .other a.1 a.2) := by
  refine Parser.consumes_attributes (h.attributes.length_eq ▸ hr.attributeCount) ?_
  unfold AllRead
  rw [List.forall₂_map_right_iff]
  refine (List.forall₂_and_left _ _ |>.mpr ⟨hr.attributes, h.attributes⟩).flip.imp
    fun s a ⟨⟨hname, hlength⟩, hs⟩ => ⟨a.1, hs.name, ?_, ?_⟩
  · rw [hs.payload]
    exact hlength
  · rw [hs.payload]
    exact readsAs_other hname a.2

theorem Records.legible : Legible b (depth + 2) (r.fields.map (·.field b.pool))
    (r.methods.map NewMethod.method) (r.attributes.map fun a => .other a.1 a.2) where
  interned := h.interned
  thisClass := ⟨_, h.thisClass⟩
  superClass := by
    have hsuper := h.superClass
    split at hsuper
    · exact .inl hsuper
    · exact .inr ⟨_, hsuper⟩
  interfaces i hi := by
    obtain ⟨name, -, hname⟩ := mem_left_of_forall₂ h.interfaces hi
    exact ⟨name, hname⟩
  fields := h.consumes_fields hr (depth + 1)
  methods := h.consumes_methods hr depth
  attributes := h.consumes_attributes hr (depth + 1)
  interfaceCount := h.interfaces.length_eq ▸ hr.interfaceCount
  fieldCount := h.fields.length_eq ▸ hr.fieldCount
  methodCount := h.methods.length_eq ▸ hr.methodCount

end

/-- However a class was put together, its class file is read as all that was asked for. -/
theorem parse_bytes {r : Requests} {b : Builder} {bytes : Bytes} (h : Reached r b) (hr : r.Proper)
    (hbytes : b.bytes = .ok bytes) :
    ∃ file, parse bytes = .ok file ∧ file.pool.slots = b.pool.slots ∧ Answers r file := by
  obtain ⟨pool, hpool, -⟩ := bind_eq_ok.mp hbytes
  have hrecords := h.records hr.spelled (Pool.size_le_of_encode (mapError_eq_ok hpool))
  refine ⟨_, (hrecords.legible hr bytes.length).parse hbytes (by omega), rfl, ?_⟩
  refine ⟨hrecords.minor, hrecords.major, congrArg Access.mk hrecords.access, hrecords.thisClass,
    superName_of hrecords.superClass, hrecords.interfaces, rfl, rfl, ?_, ?_, hrecords.given⟩
  · rw [List.map_map]
    rfl
  · exact payload?_other r.attributes

end

/-! ## A class with a constant, a handler and two attributes of one name -/

def taggedField : NewField := ⟨0x0019, "n", "I", 5⟩

def taggedMethod : NewMethod := ⟨0x0009, "f", "()V", some ⟨0, 0, [0xB1], [⟨0, 1, 0, 7⟩]⟩⟩

def taggedRequests : Requests where
  name := "A"
  superName := "B"
  interfaces := ["I"]
  fields := [taggedField]
  methods := [taggedMethod]
  attributes := [("X", [1]), ("X", [2])]
  given := [(.integer 7, 5), (.classRef "E", 7)]

def taggedBuild : Build Unit := do
  let _ ← Constant.build (.integer 7)
  let _ ← Constant.build (.classRef "E")
  addInterface "I"
  addField taggedField.access taggedField.name taggedField.descriptor taggedField.constant
  addMethod taggedMethod.access taggedMethod.name taggedMethod.descriptor taggedMethod.body
  addAttribute "X" [1]
  addAttribute "X" [2]

def taggedBuilder : Builder := (taggedBuild.run (start "A" "B")).2

theorem reached_tagged : Reached taggedRequests taggedBuilder := by
  have hconstants := ((Reached.start "A" "B").constant (.integer 7) (i := 5) (by decide)).constant
    (.classRef "E") (i := 7) (by decide)
  have hmembers := ((hconstants.interface "I").field taggedField).method taggedMethod
  exact (hmembers.classAttribute "X" [1]).classAttribute "X" [2]

theorem spelled_tagged : taggedRequests.Spelled where
  name := ⟨[65], by cbv⟩
  superName := ⟨[66], by cbv⟩
  interfaces := List.forall_mem_singleton.mpr ⟨[73], by cbv⟩
  fields := List.forall_mem_singleton.mpr ⟨⟨[110], by cbv⟩, ⟨[73], by cbv⟩⟩
  methods := List.forall_mem_singleton.mpr ⟨⟨[102], by cbv⟩, ⟨[40, 41, 86], by cbv⟩⟩
  attributes := List.forall_mem_cons.mpr
    ⟨⟨[88], by cbv⟩, List.forall_mem_singleton.mpr ⟨[88], by cbv⟩⟩
  given := List.forall_mem_cons.mpr
    ⟨nofun, List.forall_mem_singleton.mpr (List.forall_mem_singleton.mpr ⟨[69], by cbv⟩)⟩

theorem proper_tagged : taggedRequests.Proper where
  spelled := spelled_tagged
  fields := List.forall_mem_singleton.mpr
    ⟨⟨_, rfl⟩, .inr ⟨.integer 7, trivial, List.mem_cons_self⟩⟩
  methods := by
    refine List.forall_mem_singleton.mpr ⟨⟨⟨[], none⟩, by cbv⟩, fun body hbody => ?_⟩
    cases hbody
    refine ⟨by decide, by decide, by decide, List.forall_mem_singleton.mpr (.inr ⟨"E", ?_⟩)⟩
    exact List.mem_cons_of_mem _ List.mem_cons_self
  attributes := List.forall_mem_cons.mpr
    ⟨⟨by decide, by decide⟩, List.forall_mem_singleton.mpr ⟨by decide, by decide⟩⟩
  interfaceCount := by decide
  fieldCount := by decide
  methodCount := by decide
  attributeCount := by decide

theorem parse_bytes_tagged :
    Reached taggedRequests taggedBuilder ∧ taggedRequests.Proper ∧
      ∃ bytes, taggedBuilder.bytes = .ok bytes ∧ ∃ file, parse bytes = .ok file ∧
        file.pool.slots = taggedBuilder.pool.slots ∧ Answers taggedRequests file := by
  have hsome : taggedBuilder.bytes.toOption.isSome = true := by cbv
  obtain ⟨bytes, hbytes⟩ := Option.isSome_iff_exists.mp hsome
  have hok := ok_of_toOption hbytes
  exact ⟨reached_tagged, proper_tagged, bytes, hok, parse_bytes reached_tagged proper_tagged hok⟩

end Builder

end ClassFile

end ClassWasm
