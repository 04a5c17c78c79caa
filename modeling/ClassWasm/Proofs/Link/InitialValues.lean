/-
  What static fields start with. The linker makes a global of every static field and the machine
  gives it a value, each from the constant of the field and each with errors of its own. They accept
  the same constants and make the same of them (`globalOf_initialValue`), except that the machine
  makes a `float` quiet that is no number.
-/
import ClassWasm.Proofs.ClassFile.Parsed
import ClassWasm.Proofs.Ieee
import ClassWasm.Proofs.Link.Failures
import ClassWasm.Proofs.Link.Symbols
import ClassWasm.Proofs.Machine.Statics

namespace ClassWasm

/-- The constant expression of a type for a word of 64 bits; narrow values stand in its low half. -/
def Wasm.ConstExpr.ofRaw (t : Wasm.ValType) (raw : UInt64) : Wasm.ConstExpr :=
  match t with
  | .i32 => .i32 raw.toUInt32.toInt32
  | .i64 => .i64 raw.toInt64
  | .f32 => .f32 raw.toUInt32
  | .f64 => .f64 raw
  | .funcref => .null .funcref
  | .externref => .null .externref

/-- A global starts with a value: with its word, or both are no number and of one sign. -/
def Wasm.ConstExpr.StartsWith (init : Wasm.ConstExpr) (v : Value) : Prop :=
  init = .ofRaw (.ofKind v.kind) v.raw ∨
    ∃ bits bits', init = .f32 bits ∧ v = .float bits' ∧
      Ieee.single.isNan bits.toNat = true ∧ Ieee.single.isNan bits'.toNat = true ∧
      Ieee.single.isNegative bits.toNat = Ieee.single.isNegative bits'.toNat

namespace Link

open Machine (initialValue constantValue? classStatics StaticsOf Statics)
open Wasm (ConstExpr ValType)

/-! ## One field -/

theorem startsWith_single (bits : UInt32) :
    (ConstExpr.f32 bits).StartsWith (Value.ofSingle bits) := by
  have hbits : bits.toNat < 2 ^ 32 := bits.toNat_lt
  cases hnan : Ieee.single.isNan bits.toNat with
  | false =>
    left
    unfold Value.ofSingle
    rw [Ieee.convert_self hbits hnan, UInt32.ofNat_toNat]
    simp [Value.kind, Value.raw, ValType.ofKind, ConstExpr.ofRaw]
  | true =>
    obtain ⟨hlt, hnan', hsign⟩ := Ieee.convert_nan hnan
    refine .inr ⟨bits, _, rfl, rfl, hnan, ?_⟩
    rw [UInt32.toNat_ofNat_of_lt' hlt]
    exact ⟨hnan', hsign.symm⟩

theorem startsWith_zero {k : Kind} (hk : k ≠ .void) :
    (ConstExpr.zero (.ofKind k)).StartsWith (.zero k) := by
  left
  cases k with
  | void => exact absurd rfl hk
  | _ => rfl

theorem startsWith_ite {p : Prop} [Decidable p] {init : ConstExpr} {v : Value}
    (h : init.StartsWith v) :
    Option.Rel ConstExpr.StartsWith (if p then some init else none)
      (if p then some v else none) := by
  split
  · exact .some h
  · exact .none

/-- A constant is one of a kind for the linker where it is one for the machine. -/
theorem constant_startsWith (k : Kind) (entry : Entry) :
    Option.Rel ConstExpr.StartsWith (constantInit? k entry) (constantValue? k entry) := by
  cases entry with
  | integer n =>
    exact startsWith_ite (.inl (by simp [Value.kind, Value.raw, ValType.ofKind, ConstExpr.ofRaw]))
  | long n =>
    exact startsWith_ite (.inl (by simp [Value.kind, Value.raw, ValType.ofKind, ConstExpr.ofRaw]))
  | float bits => exact startsWith_ite (startsWith_single bits)
  | double bits => exact startsWith_ite (.inl rfl)
  | string _ => exact startsWith_ite (.inl rfl)
  | _ => exact .none

/-- The linker and the machine make something of a field, and of the same value, or neither does. -/
theorem globalOf_initialValue (owner : Text) (f : Field) :
    (∃ e e', globalOf owner f = .error e ∧ initialValue owner f = .error e') ∨
      ∃ g v, globalOf owner f = .ok g ∧ initialValue owner f = .ok v ∧ g.init.StartsWith v := by
  unfold globalOf initialValue
  cases ht : Descriptor.parseField f.descriptor with
  | error e => exact .inl ⟨_, _, rfl, rfl⟩
  | ok t =>
    simp only [Except.mapError, bind, Except.bind]
    cases if f.access.isFinal then f.attributes.constantValue? else none with
    | none => exact .inr ⟨_, _, rfl, rfl, startsWith_zero (FieldType.kind_ne_void t)⟩
    | some entry =>
      have hconstant := constant_startsWith t.kind entry
      dsimp only
      cases hinit : constantInit? t.kind entry <;>
        cases hvalue : constantValue? t.kind entry <;> rw [hinit, hvalue] at hconstant
      case none.none => exact .inl ⟨_, _, rfl, rfl⟩
      case some.some =>
        cases hconstant with
        | some h => exact .inr ⟨_, _, rfl, rfl, h⟩
      all_goals cases hconstant

theorem globalOf_isOk (owner : Text) (f : Field) :
    (∃ g, globalOf owner f = .ok g) ↔ ∃ v, initialValue owner f = .ok v := by
  rcases globalOf_initialValue owner f with ⟨e, e', hg, hv⟩ | ⟨g, v, hg, hv, -⟩
  · rw [hg, hv]
    exact ⟨nofun, nofun⟩
  · exact ⟨fun _ => ⟨v, hv⟩, fun _ => ⟨g, hg⟩⟩

theorem startsWith_of_ok {owner : Text} {f : Field} {g : Wasm.Global} {v : Value}
    (hg : globalOf owner f = .ok g) (hv : initialValue owner f = .ok v) :
    g.init.StartsWith v ∧
      ∃ t, Descriptor.parseField f.descriptor = .ok t ∧ g.type.type = .ofKind t.kind ∧
        v.kind = t.kind := by
  obtain ⟨t, ht, htype⟩ := globalOf_type hg
  obtain ⟨t', ht', hkind⟩ := Machine.initialValue_kind hv
  obtain rfl := Except.ok.inj (ht.symm.trans ht')
  rcases globalOf_initialValue owner f with ⟨_, _, hg', -⟩ | ⟨_, _, hg', hv', h⟩
  · cases hg.symm.trans hg'
  · obtain rfl := Except.ok.inj (hg.symm.trans hg')
    obtain rfl := Except.ok.inj (hv.symm.trans hv')
    exact ⟨h, t, ht, htype, hkind⟩

/-! ## Which classes can be set up -/

theorem exists_classStatics {c : LoadedClass} :
    (∃ statics, classStatics c = .ok statics) ↔
      ∀ f ∈ c.staticFields, ∃ v, initialValue c.name f = .ok v := by
  have hentry (f : Field) : (∃ entry, (do
      let v ← initialValue c.name f
      pure ((⟨c.name, f.name, f.descriptor⟩ : MemberRef), v)) = .ok entry) ↔
        ∃ v, initialValue c.name f = .ok v := by
    constructor
    · rintro ⟨entry, h⟩
      obtain ⟨v, hv, -⟩ := bind_eq_ok.mp h
      exact ⟨v, hv⟩
    · rintro ⟨v, hv⟩
      exact ⟨_, bind_eq_ok.mpr ⟨v, hv, rfl⟩⟩
  simp only [← hentry]
  rw [← exists_mapM]
  constructor
  · rintro ⟨statics, h⟩
    obtain ⟨entries, hentries, -⟩ := bind_eq_ok.mp h
    exact ⟨entries, hentries⟩
  · rintro ⟨entries, hentries⟩
    exact ⟨_, bind_eq_ok.mpr ⟨entries, hentries, rfl⟩⟩

/-- Every static field of the classes can start with something. -/
def Startable (classes : Hierarchy) : Prop :=
  ∀ of ∈ staticFields classes, ∃ v, initialValue of.1 of.2 = .ok v

theorem exists_staticsOf {classes : Hierarchy} :
    (∃ blocks, StaticsOf classes blocks) ↔ Startable classes := by
  unfold StaticsOf Startable
  rw [exists_forall₂_iff]
  simp only [exists_classStatics, mem_staticFields]
  constructor
  · rintro h ⟨_, f⟩ ⟨c, hc, rfl, hf⟩
    exact h c hc f hf
  · exact fun h c hc f hf => h (c.name, f) ⟨c, hc, rfl, hf⟩

theorem exists_ofFiles {files : List ClassFile} :
    (∃ m, Machine.ofFiles files = .ok m) ↔ ∃ classes, Loads files classes ∧ Startable classes := by
  simp only [Machine.ofFiles_eq_ok, ← exists_staticsOf]
  constructor
  · rintro ⟨_, classes, blocks, h, hblocks, -⟩
    exact ⟨classes, h, blocks, hblocks⟩
  · rintro ⟨classes, h, blocks, hblocks⟩
    exact ⟨_, classes, blocks, h, hblocks, rfl⟩

section

variable {options : Options} {classes : Hierarchy} {l : Linker}

/-- Where the first pass succeeds, every static field starts with something. -/
theorem startable_of_declare (h : Linker.declare { options, classes } = (.ok (), l)) :
    Startable classes := by
  unfold Linker.declare at h
  rw [if_neg Bool.false_ne_true] at h
  obtain ⟨stages⟩ := declarePass_stages (run_eq_ok h)
  have hdefines := stages.defines declares_start
  intro of hof
  obtain ⟨g, -, hg⟩ := mem_right_of_forall₂ hdefines.globals hof
  exact (globalOf_isOk of.1 of.2).mp ⟨g, hg⟩

/-! ## Errors -/

theorem addAll_error {files : List ClassFile} {before : Hierarchy} {e : Error}
    (hchecked : ∀ file ∈ files, file.Checked)
    (h : Linker.addAll { options, classes := before } files = .error e) :
    ∃ name, e = .duplicateClass name := by
  induction files generalizing before with
  | nil => cases h
  | cons file files ih =>
    obtain ⟨name, hname⟩ := (hchecked file List.mem_cons_self).name
    have hclass : LoadedClass.ofFile file = .ok ⟨file, name, file.superName⟩ :=
      bind_eq_ok.mpr ⟨name, hname, rfl⟩
    cases hadd : Linker.add { options, classes := before } file with
    | ok l =>
      obtain ⟨c, -, -, rfl⟩ := Linker.add_eq_ok.mp hadd
      have hrest : Linker.addAll { options, classes := before ++ [c] } files = .error e := by
        rw [← h, Linker.addAll, Linker.addAll, List.foldlM_cons, hadd]
        rfl
      exact ih (fun file hfile => hchecked file (List.mem_cons_of_mem _ hfile)) hrest
    | error e' =>
      rw [Linker.addAll, List.foldlM_cons, hadd] at h
      cases h
      unfold Linker.add at hadd
      rw [if_neg Bool.false_ne_true, hclass] at hadd
      dsimp only at hadd
      split at hadd <;> cases hadd
      exact ⟨_, rfl⟩

/-- Without imports only a constant can keep the first pass from succeeding. -/
theorem declare_error {e : Error} (hpolicy : options.unresolved = .error)
    (hchecked : ∀ c ∈ classes, c.file.Checked)
    (h : Linker.declare { options, classes } = (.error e, l)) :
    ∃ of ∈ staticFields classes, globalOf of.1 of.2 = .error e ∧
      ∃ tag, e = .constant of.1 of.2.name tag of.2.descriptor := by
  unfold Linker.declare run at h
  rw [if_neg Bool.false_ne_true] at h
  split at h <;> cases h
  next hrun =>
  cases declarePass_error hrun with
  | imports fault himported => cases hpolicy.symm.trans himported
  | @field owner f _ hof hg =>
    refine ⟨(owner, f), hof, hg, ?_⟩
    rcases globalOf_error hg with ⟨d, hd, -⟩ | hconstant
    · obtain ⟨c, hc, -, hf⟩ := mem_staticFields.mp hof
      obtain ⟨t, ht⟩ := (hchecked c hc).fields f (List.mem_of_mem_filter hf)
      cases hd.symm.trans ht
    · exact hconstant
  | @method cm _ hcm hd =>
    obtain ⟨hc, hm, -⟩ := mem_staticMethods.mp hcm
    obtain ⟨t, ht⟩ := ((hchecked cm.1 hc).methods cm.2.1 hm).type
    cases hd.symm.trans ht

theorem exists_declare (hpolicy : options.unresolved = .error)
    (hchecked : ∀ c ∈ classes, c.file.Checked) :
    (∃ l, Linker.declare { options, classes } = (.ok (), l)) ↔ Startable classes := by
  refine ⟨fun ⟨l, h⟩ => startable_of_declare h, fun h => ?_⟩
  rcases hdeclare : Linker.declare { options, classes } with ⟨e | u, l⟩
  · obtain ⟨of, hof, hg, -⟩ := declare_error hpolicy hchecked hdeclare
    obtain ⟨g, hg'⟩ := (globalOf_isOk of.1 of.2).mpr (h of hof)
    cases hg.symm.trans hg'
  · exact ⟨l, rfl⟩

/-! ## Where the values are -/

/-- A static field of a class that has no other one of its name and type. -/
structure HasOnce (c : LoadedClass) (f : Field) : Prop where
  mem : f ∈ c.staticFields
  once : c.staticFields.countP (fun f' => f'.name = f.name ∧ f'.descriptor = f.descriptor) = 1

theorem HasOnce.mem_staticFields {c : LoadedClass} {f : Field} (h : HasOnce c f)
    (hc : c ∈ classes) :
    (c.name, f) ∈ staticFields classes := Link.mem_staticFields.mpr ⟨c, hc, rfl, h.mem⟩

theorem HasOnce.count {c : LoadedClass} {f : Field} (h : HasOnce c f)
    (hnames : (classes.map LoadedClass.name).Nodup) (hc : c ∈ classes) :
    (staticFields classes).countP (fun of => fieldRef of = fieldRef (c.name, f)) = 1 := by
  unfold staticFields
  rw [countP_flatMap_of_owner hnames hc, List.countP_map, ← h.once]
  · congr 1
    funext f'
    simp [fieldRef]
  · intro c' hc' of hof href
    obtain ⟨f', -, rfl⟩ := List.mem_map.mp hof
    exact congrArg MemberRef.owner (of_decide_eq_true href)

theorem Defines.lookup_once {c : LoadedClass} {f : Field} (h : Defines (staticFields classes) l)
    (hnames : (classes.map LoadedClass.name).Nodup) (hc : c ∈ classes) (honce : HasOnce c f) :
    ∃ k, (staticFields classes)[k]? = some (c.name, f) ∧
      l.globalIndices.lookup ⟨c.name, f.name, f.descriptor⟩ =
        some (l.module.importCount .global + k) := by
  obtain ⟨k, hk⟩ := List.mem_iff_getElem?.mp (honce.mem_staticFields hc)
  refine ⟨k, hk, ?_⟩
  rw [h.indices]
  exact lookup_numbered fieldRef _ hk (honce.count hnames hc)

theorem lookup_statics {blocks : List Statics} (h : StaticsOf classes blocks) {c : LoadedClass}
    {f : Field} (hnames : (classes.map LoadedClass.name).Nodup) (hc : c ∈ classes)
    (honce : HasOnce c f) :
    ∃ v, blocks.flatten.lookup ⟨c.name, f.name, f.descriptor⟩ = some v ∧
      initialValue c.name f = .ok v := by
  obtain ⟨v, hv⟩ := exists_staticsOf.mp ⟨blocks, h⟩ _ (honce.mem_staticFields hc)
  refine ⟨v, lookup_of_unique ((Machine.mem_statics h).mpr ⟨c, hc, f, honce.mem, rfl, hv⟩) ?_, hv⟩
  intro v' hv'
  obtain ⟨c', hc', f', hf', hkey, hinitial⟩ := (Machine.mem_statics h).mp hv'
  obtain ⟨howner, hname, hdescriptor⟩ := MemberRef.mk.inj hkey
  obtain rfl := List.inj_on_of_nodup_map hnames hc hc' howner
  obtain rfl := eq_of_countP honce.once honce.mem hf' (decide_eq_true ⟨rfl, rfl⟩)
    (decide_eq_true ⟨hname.symm, hdescriptor.symm⟩)
  exact Except.ok.inj (hinitial.symm.trans hv)

end

/-- Class files that have been parsed can be loaded into a machine where a linker that imports
nothing accepts them in its first pass. Otherwise two classes have one name, or a constant is not of
the type of its field. Both hold the same classes then, and a static field that its class has once
has a global of its type, which starts with the value that it has in the machine. -/
theorem Linker.initial_values {options : Options} {files : List ClassFile}
    (hparsed : ∀ file ∈ files, ∃ bytes, ClassFile.parse bytes = .ok file)
    (hpolicy : options.unresolved = .error) :
    ((∃ m, Machine.ofFiles files = .ok m) ↔
      ∃ added l, Linker.addAll { options } files = .ok added ∧ added.declare = (.ok (), l)) ∧
    (∀ e, Linker.addAll { options } files = .error e → ∃ name, e = .duplicateClass name) ∧
    (∀ added e l, Linker.addAll { options } files = .ok added → added.declare = (.error e, l) →
      ∃ owner field tag descriptor, e = .constant owner field tag descriptor) ∧
    ∀ m added l, Machine.ofFiles files = .ok m → Linker.addAll { options } files = .ok added →
      added.declare = (.ok (), l) →
      l.classes.map LoadedClass.file = files ∧ m.program = l.classes.map .ofLoaded ∧
        ∀ c ∈ l.classes, ∀ f, HasOnce c f → ∃ k g v t,
          l.globalIndices.lookup ⟨c.name, f.name, f.descriptor⟩ =
            some (l.module.importCount .global + k) ∧
          l.module.globals[k]? = some g ∧
          m.store.statics.lookup ⟨c.name, f.name, f.descriptor⟩ = some v ∧
          Descriptor.parseField f.descriptor = .ok t ∧ g.type.type = .ofKind t.kind ∧
          v.kind = t.kind ∧ g.init.StartsWith v := by
  have hchecked (file : ClassFile) (hfile : file ∈ files) : file.Checked := by
    obtain ⟨bytes, hbytes⟩ := hparsed file hfile
    exact ClassFile.parse_checked hbytes
  have hclasses {classes : Hierarchy} (h : Loads files classes) : ∀ c ∈ classes, c.file.Checked :=
    fun c hc => hchecked c.file (h.files.map_file ▸ List.mem_map_of_mem hc)
  refine ⟨?_, fun e => addAll_error hchecked, ?_, ?_⟩
  · rw [exists_ofFiles]
    constructor
    · rintro ⟨classes, h, hstart⟩
      obtain ⟨l, hl⟩ := (exists_declare hpolicy (hclasses h)).mpr hstart
      exact ⟨_, l, Linker.addAll_eq_ok.mpr ⟨classes, h, rfl⟩, hl⟩
    · rintro ⟨added, l, hadd, hdeclare⟩
      obtain ⟨classes, h, rfl⟩ := Linker.addAll_eq_ok.mp hadd
      exact ⟨classes, h, startable_of_declare hdeclare⟩
  · intro added e l hadd hdeclare
    obtain ⟨classes, h, rfl⟩ := Linker.addAll_eq_ok.mp hadd
    obtain ⟨of, -, -, tag, he⟩ := declare_error hpolicy (hclasses h) hdeclare
    exact ⟨_, _, _, _, he⟩
  · intro m added l hm hadd hdeclare
    obtain ⟨start, hfiles, hdeclares, ⟨stages⟩⟩ := Linker.declare_stages hadd hdeclare
    obtain ⟨classes, h, rfl⟩ := Linker.addAll_eq_ok.mp hadd
    obtain ⟨classes', blocks, h', hblocks, rfl⟩ := Machine.ofFiles_eq_ok.mp hm
    obtain rfl := h.files.unique h'.files
    rw [hdeclares.classes_eq]
    refine ⟨hfiles, rfl, fun c hc f honce => ?_⟩
    have hdefines := stages.defines declares_start
    obtain ⟨k, hk, hindex⟩ := hdefines.lookup_once h.names hc honce
    obtain ⟨g, hg, hof⟩ := getElem?_of_forall₂ hdefines.globals hk
    obtain ⟨v, hlookup, hv⟩ := lookup_statics hblocks h.names hc honce
    obtain ⟨hstarts, t, ht, htype, hkind⟩ := startsWith_of_ok hof hv
    exact ⟨k, g, v, t, hindex, by rwa [← Array.getElem?_toList], hlookup, ht, htype, hkind, hstarts⟩

/-! ## A class with constants -/

/-- A class with a constant of type `int`, one of type `float` that is no number and signals, and a
field without a constant. -/
def startingBytes : Bytes :=
  [0xca, 0xfe, 0xba, 0xbe, 0, 0, 0, 52, 0, 12, 1, 0, 1, 0x41, 7, 0, 1, 4, 0x7f, 0xa0, 0, 0,
    3, 0, 0, 0, 5, 1, 0, 1, 0x78, 1, 0, 1, 0x49, 1, 0, 13, 0x43, 0x6f, 0x6e, 0x73, 0x74, 0x61, 0x6e,
    0x74, 0x56, 0x61, 0x6c, 0x75, 0x65, 1, 0, 1, 0x79, 1, 0, 1, 0x46, 1, 0, 1, 0x7a, 1, 0, 1, 0x4a,
    0, 0x21, 0, 2, 0, 0, 0, 0, 0, 3, 0, 0x18, 0, 5, 0, 6, 0, 1, 0, 7, 0, 0, 0, 2, 0, 4,
    0, 0x18, 0, 8, 0, 9, 0, 1, 0, 7, 0, 0, 0, 2, 0, 3, 0, 8, 0, 10, 0, 11, 0, 0, 0, 0, 0, 0]

def signallingField : Field := ⟨⟨0x0018⟩, "y", "F", [.constantValue (.float 0x7fa00000)]⟩

def startingFile : ClassFile :=
  ⟨0, 52, ⟨#[none, some (.utf8 "A"), some (.classRef 1), some (.float 0x7fa00000),
      some (.integer 5), some (.utf8 "x"), some (.utf8 "I"), some (.utf8 "ConstantValue"),
      some (.utf8 "y"), some (.utf8 "F"), some (.utf8 "z"), some (.utf8 "J")]⟩, ⟨0x0021⟩, 2, 0, [],
    [⟨⟨0x0018⟩, "x", "I", [.constantValue (.integer 5)]⟩, signallingField,
      ⟨⟨0x0008⟩, "z", "J", []⟩], [], []⟩

def startingLinker : Linker := { options := {}, classes := [⟨startingFile, "A", .empty⟩] }

theorem parse_startingBytes : ClassFile.parse startingBytes = .ok startingFile := by cbv

theorem initial_values_starting :
    (∀ file ∈ [startingFile], ∃ bytes, ClassFile.parse bytes = .ok file) ∧
      ({} : Options).unresolved = .error ∧
      ∃ m l, Machine.ofFiles [startingFile] = .ok m ∧
        Linker.addAll { options := {} } [startingFile] = .ok startingLinker ∧
        startingLinker.declare = (.ok (), l) ∧
        ∃ k g v t, l.globalIndices.lookup ⟨"A", "y", "F"⟩ =
            some (l.module.importCount .global + k) ∧
          l.module.globals[k]? = some g ∧ m.store.statics.lookup ⟨"A", "y", "F"⟩ = some v ∧
          Descriptor.parseField "F" = .ok t ∧ g.type.type = .ofKind t.kind ∧ v.kind = t.kind ∧
          g.init.StartsWith v := by
  have hparsed : ∀ file ∈ [startingFile], ∃ bytes, ClassFile.parse bytes = .ok file := by
    intro file hfile
    rw [List.mem_singleton.mp hfile]
    exact ⟨startingBytes, parse_startingBytes⟩
  have hpolicy : ({} : Options).unresolved = .error := rfl
  have hadd : Linker.addAll { options := {} } [startingFile] = .ok startingLinker := rfl
  have hdeclare : startingLinker.declare = (.ok (), startingLinker.declare.2) :=
    Linker.declare_of_isSome (by decide +kernel)
  have hclasses : startingLinker.declare.2.classes = startingLinker.classes := rfl
  have honce : HasOnce ⟨startingFile, "A", .empty⟩ signallingField :=
    ⟨List.mem_cons_of_mem _ List.mem_cons_self, by decide⟩
  obtain ⟨hiff, -, -, hvalues⟩ := Linker.initial_values hparsed hpolicy
  obtain ⟨m, hm⟩ := hiff.mpr ⟨_, _, hadd, hdeclare⟩
  obtain ⟨-, -, hfields⟩ := hvalues m _ _ hm hadd hdeclare
  exact ⟨hparsed, hpolicy, m, _, hm, hadd, hdeclare,
    hfields _ (hclasses ▸ List.mem_cons_self) signallingField honce⟩

end Link

end ClassWasm
