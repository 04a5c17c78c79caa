/-
  What parsing a class file ensures (`parse_checked`): the class has a name, fields and methods have
  descriptors of their types, and no body of a method is empty.
-/
import ClassWasm.ClassFile.Parser
import ClassWasm.Proofs.Cursor

namespace ClassWasm

/-- The attribute is no body of a method, or not an empty one. -/
def Attribute.HasBytes : Attribute → Prop
  | .code body => body.bytes ≠ []
  | _ => True

/-- The field has the descriptor of a type. -/
def Field.Checked (f : Field) : Prop := ∃ t, Descriptor.parseField f.descriptor = .ok t

/-- The method has the descriptor of a type, and no empty body. -/
structure Method.Checked (m : Method) : Prop where
  type : ∃ t, Descriptor.parseMethod m.descriptor = .ok t
  bodies : ∀ a ∈ m.attributes, a.HasBytes

/-- What the parser has checked of a class file. -/
structure ClassFile.Checked (file : ClassFile) : Prop where
  name : ∃ name, file.className = .ok name
  fields : ∀ f ∈ file.fields, f.Checked
  methods : ∀ m ∈ file.methods, m.Checked

namespace ClassFile

open Reader

namespace Parser

theorem code_ensures (pool : Pool) (attributes : Reader Error Attributes) :
    Ensures (code pool attributes) fun body => body.bytes ≠ [] := by
  refine ensures_bind fun maxStack => ensures_bind fun maxLocals => ensures_bind fun length => ?_
  split
  · exact fun c a c' hr => by cases hr
  · next hlength =>
    have hpos : length.toNat ≠ 0 := by
      intro hzero
      exact hlength (.inl (UInt32.toNat_inj.mp hzero))
    have htake : Ensures (Cursor.take length.toNat) fun bytes => bytes ≠ [] := by
      intro c bytes c' hr
      unfold Cursor.take at hr
      dsimp only at hr
      split at hr
      · next htaken =>
        cases hr
        rintro hnil
        rw [hnil] at htaken
        exact hpos htaken.symm
      · cases hr
    refine (htake.mapError _).bind fun bytes hbytes => ensures_bind fun n => ?_
    exact ensures_bind fun handlers => ensures_bind fun attributes => ensures_pure hbytes

theorem contents_ensures (pool : Pool) (nested : Reader Error Attributes) (name : Text) :
    Ensures (contents pool nested name) Attribute.HasBytes := by
  refine ensures_ite (ensures_map fun _ => trivial) (ensures_ite ?_ ?_)
  · exact (code_ensures pool nested).map fun _ h => h
  -- No other attribute has code.
  refine ensures_ite (ensures_map fun _ => trivial) (ensures_ite (ensures_map fun _ => trivial) ?_)
  refine ensures_ite (ensures_map fun _ => trivial) (ensures_ite (ensures_pure trivial) ?_)
  refine ensures_ite (ensures_pure trivial) (ensures_ite (ensures_map fun _ => trivial) ?_)
  refine ensures_ite (ensures_map fun _ => trivial) (ensures_ite (ensures_map fun _ => trivial) ?_)
  exact ensures_map fun _ => trivial

theorem oneAttribute_ensures (pool : Pool) (nested : Reader Error Attributes) (i : Nat) :
    Ensures (oneAttribute pool nested i) Attribute.HasBytes := by
  refine ensures_bind fun nameIndex => ensures_bind fun name => ensures_bind fun length => ?_
  refine ensures_bind fun body => Ensures.mapError (fun c a c' hr => ?_) _
  obtain ⟨a', ha, heq⟩ := map_eq_ok hr
  cases heq
  obtain ⟨⟨a'', d⟩, hcontents, hwhole⟩ := bind_eq_ok.mp ha
  dsimp only at hwhole
  split at hwhole
  · cases hwhole
    exact contents_ensures pool nested name body _ d hcontents
  · cases hwhole

theorem attributes_ensures (pool : Pool) (depth : Nat) :
    Ensures (attributes pool depth) fun as => ∀ a ∈ as, a.HasBytes := by
  cases depth with
  | zero =>
    unfold attributes
    exact Ensures.mapError (fun c a c' hr => by cases hr) _
  | succ depth =>
    unfold attributes
    exact ensures_bind fun count => Ensures.listFrom (oneAttribute_ensures pool _) 0 _

theorem member_ensures (pool : Pool) (depth : Nat) :
    Ensures (member pool depth) fun m => ∀ a ∈ m.2.2.2, a.HasBytes := by
  refine ensures_bind fun access => ensures_bind fun nameIndex => ensures_bind fun index => ?_
  refine ensures_bind fun name => ensures_bind fun descriptor => ?_
  exact ((attributes_ensures pool depth).mapError _).bind fun as has => ensures_pure has

theorem field_ensures (pool : Pool) (depth i : Nat) :
    Ensures (field pool depth i) Field.Checked := by
  refine ensures_bind fun (access, name, descriptor, attributes) => ?_
  have hparse : Ensures (do
      let _ ← Reader.ofExcept ((Descriptor.parseField descriptor).mapError Error.descriptor))
      fun _ => ∃ t, Descriptor.parseField descriptor = .ok t :=
    (ensures_ofExcept _).bind fun t ht => ensures_pure ⟨t, mapError_eq_ok ht⟩
  exact (hparse.mapError _).bind fun _ ht => ensures_pure ht

theorem method_ensures (pool : Pool) (depth i : Nat) :
    Ensures (method pool depth i) Method.Checked := by
  refine ((member_ensures pool depth).mapError _).bind
    fun (access, name, descriptor, attributes) has => ?_
  have hparse : Ensures (do
      let _ ← Reader.ofExcept ((Descriptor.parseMethod descriptor).mapError Error.descriptor))
      fun _ => ∃ t, Descriptor.parseMethod descriptor = .ok t :=
    (ensures_ofExcept _).bind fun t ht => ensures_pure ⟨t, mapError_eq_ok ht⟩
  exact (hparse.mapError _).bind fun _ ht => ensures_pure ⟨ht, has⟩

theorem classFile_ensures (depth : Nat) : Ensures (classFile depth) Checked := by
  have hfields (pool : Pool) : Ensures (fields pool depth) fun fs => ∀ f ∈ fs, f.Checked :=
    ensures_bind fun count => Ensures.listFrom (field_ensures pool depth) 0 _
  have hmethods (pool : Pool) : Ensures (methods pool depth) fun ms => ∀ m ∈ ms, m.Checked :=
    ensures_bind fun count => Ensures.listFrom (method_ensures pool depth) 0 _
  refine ensures_bind fun versions => ensures_bind fun pool => ensures_bind fun access => ?_
  refine ensures_bind fun thisClass => (ensures_ofExcept _).bind fun name hname => ?_
  refine ensures_bind fun superClass => ?_
  have hrest : Ensures (do
      let count ← reading "interfaces count" Cursor.u16
      let interfaces ← Reader.list count.toNat (interface pool)
      let fields ← within (.parsing "fields") (fields pool depth)
      let methods ← within (.parsing "methods") (methods pool depth)
      let attributes ← within (.parsing "class attributes") (attributes pool depth)
      pure ⟨versions.1, versions.2, pool, ⟨access⟩, thisClass, superClass, interfaces, fields,
        methods, attributes⟩) Checked := by
    refine ensures_bind fun count => ensures_bind fun interfaces => ?_
    refine ((hfields pool).mapError _).bind fun fields hfields => ?_
    refine ((hmethods pool).mapError _).bind fun methods hmethods => ?_
    exact ensures_bind fun attributes =>
      ensures_pure ⟨⟨name, mapError_eq_ok hname⟩, hfields, hmethods⟩
  split
  · exact ensures_bind fun _ => hrest
  · exact hrest

end Parser

theorem parse_checked {bytes : Bytes} {file : ClassFile} (h : parse bytes = .ok file) :
    file.Checked := by
  obtain ⟨⟨file', cursor⟩, hparse, h⟩ := bind_eq_ok.mp h
  dsimp only at h
  split at h
  · cases h
    exact Parser.classFile_ensures _ _ _ _ hparse
  · cases h

/-- No method of a parsed class file has an empty body. -/
theorem parse_code {bytes : Bytes} {file : ClassFile} (h : parse bytes = .ok file) {m : Method}
    (hm : m ∈ file.methods) {code : Code} (hcode : m.code? = some code) : code.bytes ≠ [] := by
  obtain ⟨a, ha, hpick⟩ := List.exists_of_findSome?_eq_some hcode
  have hbytes := ((parse_checked h).methods m hm).bodies a (List.mem_reverse.mp ha)
  cases a with
  | code body =>
    cases hpick
    exact hbytes
  | _ => cases hpick

end ClassFile

end ClassWasm
