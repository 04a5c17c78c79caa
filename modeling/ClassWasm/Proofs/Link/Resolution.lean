/-
  References mean what they promise. After the first pass, and also after the second however that
  ends, whatever index a reference is resolved to leads to a function or global of the type that its
  descriptor gives. The second pass only adds types and bodies, and where it succeeds each body is
  the lowering of the method whose index it has.
-/
import ClassWasm.Proofs.Entries
import ClassWasm.Proofs.Hierarchy
import ClassWasm.Proofs.Link.Indices
import ClassWasm.Proofs.Loading
import ClassWasm.Proofs.Region.Tree

namespace ClassWasm

/-! ## Loaded members -/

namespace Link

theorem mem_staticFields {classes : Hierarchy} {of : Text × Field} :
    of ∈ staticFields classes ↔ ∃ c ∈ classes, c.name = of.1 ∧ of.2 ∈ c.staticFields := by
  unfold staticFields
  rw [List.mem_flatMap]
  constructor
  · rintro ⟨c, hc, hof⟩
    obtain ⟨f, hf, rfl⟩ := List.mem_map.mp hof
    exact ⟨c, hc, rfl, hf⟩
  · rintro ⟨c, hc, hname, hf⟩
    exact ⟨c, hc, List.mem_map.mpr ⟨of.2, hf, Prod.ext hname rfl⟩⟩

/-- The member that a static method is. -/
def methodRef (cm : LoadedClass × Method × Code) : MemberRef :=
  ⟨cm.1.name, cm.2.1.name, cm.2.1.descriptor⟩

theorem mem_methods_of {c : LoadedClass} {cm : LoadedClass × Method × Code} :
    (cm ∈ c.file.methods.filterMap fun m =>
      if m.access.isStatic then m.code?.map fun code => (c, m, code) else none) ↔
    cm.1 = c ∧ cm.2.1 ∈ c.file.methods ∧ cm.2.1.access.isStatic = true ∧
      cm.2.1.code? = some cm.2.2 := by
  rw [List.mem_filterMap]
  constructor
  · rintro ⟨m, hm, hcm⟩
    split at hcm
    · next hstatic =>
      obtain ⟨code, hcode, rfl⟩ := Option.map_eq_some_iff.mp hcm
      exact ⟨rfl, hm, hstatic, hcode⟩
    · cases hcm
  · rintro ⟨rfl, hm, hstatic, hcode⟩
    exact ⟨cm.2.1, hm, by rw [if_pos hstatic, hcode]; rfl⟩

theorem mem_staticMethods {classes : Hierarchy} {cm : LoadedClass × Method × Code} :
    cm ∈ staticMethods classes ↔ cm.1 ∈ classes ∧ cm.2.1 ∈ cm.1.file.methods ∧
      cm.2.1.access.isStatic = true ∧ cm.2.1.code? = some cm.2.2 := by
  unfold staticMethods
  rw [List.mem_flatMap]
  simp only [mem_methods_of]
  constructor
  · rintro ⟨c, hc, rfl, hm⟩
    exact ⟨hc, hm⟩
  · rintro ⟨hc, hm⟩
    exact ⟨cm.1, hc, rfl, hm⟩

end Link

namespace Hierarchy

variable {h : Hierarchy} {ref : MemberRef} {c : LoadedClass}

theorem staticField?_eq_some {f : Field} (hf : h.staticField? ref = some (c, f)) :
    (c.name, f) ∈ Link.staticFields h ∧ f.name = ref.name ∧ f.descriptor = ref.descriptor := by
  obtain ⟨_, c', hc', hfind⟩ := Lookup.exists_of_run (Lookup.found?_eq_some.mp hf)
  dsimp only [fieldLookup] at hfind
  split at hfind
  · next f' hf' =>
    split at hfind <;> cases hfind
    next hstatic =>
    have hname : f.name = ref.name ∧ f.descriptor = ref.descriptor := by
      simpa using List.find?_some hf'
    exact ⟨Link.mem_staticFields.mpr ⟨c, List.mem_of_find?_eq_some hc', rfl,
      List.mem_filter.mpr ⟨List.mem_of_find?_eq_some hf', hstatic⟩⟩, hname⟩
  · cases hfind

theorem staticMethod?_eq_some {m : Method} (hm : h.staticMethod? ref = some (c, m)) :
    (∃ code, (c, m, code) ∈ Link.staticMethods h) ∧ m.name = ref.name ∧
      m.descriptor = ref.descriptor := by
  obtain ⟨_, c', hc', hfind⟩ := Lookup.exists_of_run (Lookup.found?_eq_some.mp hm)
  dsimp only [methodLookup] at hfind
  split at hfind
  · next m' hm' =>
    split at hfind <;> cases hfind
    next hstatic =>
    have hname : m.name = ref.name ∧ m.descriptor = ref.descriptor := by
      simpa using List.find?_some hm'
    obtain ⟨hstatic, hcode⟩ := Bool.and_eq_true_iff.mp hstatic
    obtain ⟨code, hcode⟩ := Option.isSome_iff_exists.mp hcode
    exact ⟨⟨code, Link.mem_staticMethods.mpr ⟨List.mem_of_find?_eq_some hc',
      List.mem_of_find?_eq_some hm', hstatic, hcode⟩⟩, hname⟩
  · cases hfind

end Hierarchy

namespace Link

open Wasm (ExternKind)

/-! ## References -/

/-- References lead to functions and globals of the types that they promise, members of loaded
classes always do, and no type stands twice. -/
structure Linker.Typed (l : Linker) : Prop where
  functions : ∀ ref i, l.function? ref = some i →
    i < l.module.importCount .func + l.module.functions.size ∧
      ∃ t, Descriptor.parseMethod ref.descriptor = .ok t ∧
        l.module.functionType? i = some (.ofMethodType t)
  globals : ∀ ref i, l.global? ref = some i →
    i < l.module.importCount .global + l.module.globals.size ∧
      ∃ t, Descriptor.parseField ref.descriptor = .ok t ∧
        l.module.valueType? i = some (.ofKind t.kind)
  methods : ∀ ref c m, l.classes.staticMethod? ref = some (c, m) →
    ∃ linked ∈ l.methods, linked.ref = ⟨c.name, m.name, m.descriptor⟩ ∧
      l.function? ref = some linked.index
  fields : ∀ ref, (l.classes.staticField? ref).isSome → (l.global? ref).isSome
  distinct : l.module.types.toList.Nodup

section

variable {options : Options} {classes : Hierarchy} {start : Option Nat} {l l' : Linker}

theorem imported?_eq_some {kind : ExternKind} {ref : MemberRef} {i : Nat}
    (h : l.imported? kind ref = some i) :
    ∃ imported ∈ l.imports, imported.kind = kind ∧ imported.ref = ref ∧ imported.index = i := by
  obtain ⟨imported, hfind, hindex⟩ := Option.map_eq_some_iff.mp h
  have hmember : imported.kind = kind ∧ imported.ref = ref := by simpa using List.find?_some hfind
  exact ⟨imported, List.mem_of_find?_eq_some hfind, hmember.1, hmember.2, hindex⟩

theorem Sound.function (h : Sound l.module l.imports l.globalIndices l.functionIndices)
    {ref : MemberRef} {i : Nat} (hi : l.function? ref = some i) :
    Signed l.module ref.descriptor i := by
  unfold Linker.function? at hi
  split at hi
  · next c m hm =>
    obtain ⟨-, -, hdescriptor⟩ := Hierarchy.staticMethod?_eq_some hm
    rw [← hdescriptor]
    exact h.functions _ (mem_of_lookup hi)
  · obtain ⟨imported, hmem, hkind, rfl, rfl⟩ := imported?_eq_some hi
    exact h.importedFunctions imported hmem hkind

theorem Sound.global (h : Sound l.module l.imports l.globalIndices l.functionIndices)
    {ref : MemberRef} {i : Nat} (hi : l.global? ref = some i) :
    Valued l.module ref.descriptor i := by
  unfold Linker.global? at hi
  split at hi
  · next c f hf =>
    obtain ⟨-, -, hdescriptor⟩ := Hierarchy.staticField?_eq_some hf
    rw [← hdescriptor]
    exact h.globals _ (mem_of_lookup hi)
  · obtain ⟨imported, hmem, hkind, rfl, rfl⟩ := imported?_eq_some hi
    exact h.importedGlobals imported hmem hkind

theorem Signed.functionType? {m : Wasm.Module} {descriptor : Text} {i : Nat}
    (h : Signed m descriptor i) (hroom : m.types.size ≤ 2 ^ 32) :
    i < m.importCount .func + m.functions.size ∧
      ∃ t, Descriptor.parseMethod descriptor = .ok t ∧
        m.functionType? i = some (.ofMethodType t) := by
  obtain ⟨t, n, ht, hspace, htype⟩ := h
  obtain ⟨hlt, -⟩ := List.getElem?_eq_some_iff.mp hspace
  obtain ⟨hn, -⟩ := Array.getElem?_eq_some_iff.mp htype
  rw [m.length_functionSpace] at hlt
  refine ⟨hlt, t, ht, ?_⟩
  rw [Wasm.Module.functionType?, hspace, Option.bind_some,
    UInt32.toNat_ofNat_of_lt' (hn.trans_le hroom), htype]

theorem Valued.lt {m : Wasm.Module} {descriptor : Text} {i : Nat} (h : Valued m descriptor i) :
    i < m.importCount .global + m.globals.size := by
  obtain ⟨t, -, hvalue⟩ := h
  obtain ⟨hlt, -⟩ := List.getElem?_eq_some_iff.mp hvalue
  rw [List.length_map, m.length_globalSpace] at hlt
  exact hlt

theorem mem_numbered {base : Nat} {methods : List (LoadedClass × Method × Code)} {c : LoadedClass}
    {m : Method} {code : Code} (h : (c, m, code) ∈ methods) :
    ∃ linked ∈ numbered base methods, linked.ref = ⟨c.name, m.name, m.descriptor⟩ := by
  obtain ⟨k, hk, hget⟩ := List.getElem_of_mem h
  refine ⟨_, List.mem_mapIdx.mpr ⟨k, hk, rfl⟩, ?_⟩
  rw [hget]
  rfl

theorem Declares.lookup_method {fields : List (Text × Field)} {ref : MemberRef} {c : LoadedClass}
    {m : Method} (h : Declares options classes fields (staticMethods classes) start l)
    (hm : l.classes.staticMethod? ref = some (c, m)) :
    ∃ i, l.functionIndices.lookup ⟨c.name, m.name, m.descriptor⟩ = some i := by
  rw [h.classes_eq] at hm
  obtain ⟨⟨code, hmem⟩, -⟩ := Hierarchy.staticMethod?_eq_some hm
  obtain ⟨linked, hlinked, href⟩ : ∃ linked ∈ l.methods,
      linked.ref = ⟨c.name, m.name, m.descriptor⟩ := by
    rw [h.methods_eq]
    exact mem_numbered hmem
  refine Option.isSome_iff_exists.mp (List.lookup_isSome_iff.mpr
    ⟨(linked.ref, linked.index), ?_, beq_of_eq href.symm⟩)
  rw [h.indices_eq]
  exact List.mem_reverse.mpr (List.mem_map_of_mem hlinked)

theorem Declares.lookup_field {methods : List (LoadedClass × Method × Code)} {ref : MemberRef}
    {c : LoadedClass} {f : Field}
    (h : Declares options classes (staticFields classes) methods start l)
    (hf : l.classes.staticField? ref = some (c, f)) :
    (l.globalIndices.lookup ⟨c.name, f.name, f.descriptor⟩).isSome := by
  rw [h.classes_eq] at hf
  obtain ⟨hmem, -⟩ := Hierarchy.staticField?_eq_some hf
  have hkey : (⟨c.name, f.name, f.descriptor⟩ : MemberRef) ∈ l.globalIndices.map Prod.fst := by
    rw [h.fields_eq]
    exact List.mem_reverse.mpr (List.mem_map_of_mem hmem)
  obtain ⟨entry, hentry, heq⟩ := List.mem_map.mp hkey
  exact List.lookup_isSome_iff.mpr ⟨entry, hentry, beq_of_eq heq.symm⟩

theorem Declares.typed (h : Declares options classes (staticFields classes) (staticMethods classes)
    start l) (hroom : l.module.types.size ≤ 2 ^ 32) : l.Typed where
  functions _ _ hi := (h.toSound.function hi).functionType? hroom
  globals _ _ hi := ⟨(h.toSound.global hi).lt, h.toSound.global hi⟩
  methods ref c m hm := by
    obtain ⟨i, hi⟩ := h.lookup_method hm
    have hmem := mem_of_lookup hi
    rw [h.indices_eq, List.mem_reverse] at hmem
    obtain ⟨linked, hlinked, heq⟩ := List.mem_map.mp hmem
    obtain ⟨href, hindex⟩ := Prod.mk.inj heq
    refine ⟨linked, hlinked, href, ?_⟩
    rw [Linker.function?, hm, hindex]
    exact hi
  fields ref hf := by
    obtain ⟨⟨c, f⟩, hf⟩ := Option.isSome_iff_exists.mp hf
    rw [Linker.global?, hf]
    exact h.lookup_field hf
  distinct := h.distinct

/-! ## The second pass -/

/-- Types and bodies have been added, and nothing else has changed that references depend on. -/
def Later (l l' : Linker) : Prop :=
  ∃ emitted types bodies, Wasm.Extended l.module.types types ∧
    l' = { l with emitted, module := { l.module with types, bodies } }

theorem Later.refl (l : Linker) : Later l l :=
  ⟨l.emitted, l.module.types, l.module.bodies, .refl _, rfl⟩

theorem Later.trans {l'' : Linker} (h : Later l l') (h' : Later l' l'') : Later l l'' := by
  obtain ⟨_, types, bodies, htypes, rfl⟩ := h
  obtain ⟨emitted, types', bodies', htypes', rfl⟩ := h'
  exact ⟨emitted, types', bodies', htypes.trans htypes', rfl⟩

instance : Std.Refl Later := ⟨Later.refl⟩

instance : IsTrans Linker Later := ⟨fun _ _ _ => Later.trans⟩

theorem Later.types (h : Later l l') : Wasm.Extended l.module.types l'.module.types := by
  obtain ⟨_, types, bodies, htypes, rfl⟩ := h
  exact htypes

theorem Later.settled (h : Later l l') :
    l'.start = l.start ∧ l'.module.start = l.module.start ∧ l'.methods = l.methods := by
  obtain ⟨_, types, bodies, -, rfl⟩ := h
  exact ⟨rfl, rfl, rfl⟩

theorem Later.functionType? (h : Later l l') {i : Nat} {t : Wasm.FuncType}
    (ht : l.module.functionType? i = some t) : l'.module.functionType? i = some t := by
  obtain ⟨_, types, _, htypes, rfl⟩ := h
  obtain ⟨n, hspace, hn⟩ := Option.bind_eq_some_iff.mp ht
  exact Option.bind_eq_some_iff.mpr ⟨n, hspace, htypes.getElem? hn⟩

theorem Linker.Typed.later (h : l.Typed) (hl : Later l l') : l'.Typed := by
  have hfunctions (i : Nat) (t : Wasm.FuncType) (ht : l.module.functionType? i = some t) :=
    hl.functionType? ht
  obtain ⟨_, types, bodies, htypes, rfl⟩ := hl
  refine ⟨fun ref i hi => ?_, h.globals, h.methods, h.fields, htypes.distinct h.distinct⟩
  obtain ⟨hlt, t, ht, htype⟩ := h.functions ref i hi
  exact ⟨hlt, t, ht, hfunctions i _ htype⟩

/-- Where 32 bits number all functions and globals, code gets the indices that references are
resolved to. -/
theorem Linker.Typed.resolver (h : l.Typed)
    (hfunctions : l.module.importCount .func + l.module.functions.size ≤ 2 ^ 32)
    (hglobals : l.module.importCount .global + l.module.globals.size ≤ 2 ^ 32) (ref : MemberRef) :
    (l.resolver.function ref).map UInt32.toNat = l.function? ref ∧
      (l.resolver.global ref).map UInt32.toNat = l.global? ref := by
  have hword (n : Nat) (found : Option Nat) (hfound : ∀ i, found = some i → i < n)
      (hn : n ≤ 2 ^ 32) : (found.map UInt32.ofNat).map UInt32.toNat = found := by
    cases found with
    | none => rfl
    | some i => exact congrArg some (UInt32.toNat_ofNat_of_lt' ((hfound i rfl).trans_le hn))
  exact ⟨hword _ _ (fun i hi => (h.functions ref i hi).1) hfunctions,
    hword _ _ (fun i hi => (h.globals ref i hi).1) hglobals⟩

/-- The body of a method in the module of `l'`, lowered against what `l` has settled. The types that
its code refers to are those of the module. -/
def Lowers (l l' : Linker) (m : LinkedMethod) (body : Wasm.FuncBody) : Prop :=
  ∃ instrs tree f types types', structured m = .ok (instrs, tree) ∧
    lower l.resolver l.options.maxSpan m.method instrs tree types = (.ok f, types') ∧
    body = f.encode ∧ l.module.types.toList <+: types.toList ∧
    types'.toList <+: l'.module.types.toList

theorem Lowers.later {l'' : Linker} {m : LinkedMethod} {body : Wasm.FuncBody}
    (h : Lowers l l' m body) (hl : Later l' l'') : Lowers l l'' m body := by
  obtain ⟨instrs, tree, f, types, types', hstructured, hlower, hbody, hfrom, hto⟩ := h
  exact ⟨instrs, tree, f, types, types', hstructured, hlower, hbody, hfrom, hto.trans hl.types.kept⟩

theorem emitMethod_run (m : LinkedMethod) (l : Linker) :
    emitMethod m l = match structured m with
      | .error fault => .error (.method m.ref fault) l
      | .ok (instrs, tree) =>
        match lower l.resolver l.options.maxSpan m.method instrs tree l.module.types with
        | (.error e, types) =>
          .error (.ofLowering m.ref e) { l with module := { l.module with types } }
        | (.ok f, types) =>
          .ok () { l with
            module := { l.module with types, bodies := l.module.bodies.push f.encode } } := by
  unfold emitMethod
  cases structured m with
  | error fault => rfl
  | ok it =>
    obtain ⟨instrs, tree⟩ := it
    dsimp only
    rw [run_get_bind]
    rcases lower l.resolver l.options.maxSpan m.method instrs tree l.module.types with
      ⟨e | f, types⟩ <;> rfl

theorem emitMethod_later (m : LinkedMethod) : Moves Later (emitMethod m) := by
  intro l
  rw [emitMethod_run]
  cases structured m with
  | error fault => exact .refl l
  | ok it =>
    obtain ⟨instrs, tree⟩ := it
    dsimp only
    have htypes := lower_extended l.resolver l.options.maxSpan m.method instrs tree l.module.types
    rcases hlower : lower l.resolver l.options.maxSpan m.method instrs tree l.module.types with
      ⟨e | f, types⟩ <;>
    · rw [hlower] at htypes
      exact ⟨l.emitted, types, _, htypes, rfl⟩

theorem emitMethod_lowers {m : LinkedMethod} (h : emitMethod m l = .ok () l') :
    ∃ body, l'.module.bodies = l.module.bodies.push body ∧ Lowers l l' m body := by
  rw [emitMethod_run] at h
  cases hstructured : structured m with
  | error fault =>
    rw [hstructured] at h
    cases h
  | ok it =>
    obtain ⟨instrs, tree⟩ := it
    rw [hstructured] at h
    dsimp only at h
    rcases hlower : lower l.resolver l.options.maxSpan m.method instrs tree l.module.types with
      ⟨e | f, types⟩
    · rw [hlower] at h
      cases h
    · rw [hlower] at h
      cases h
      exact ⟨f.encode, rfl, instrs, tree, f, _, types, hstructured, hlower, rfl, List.prefix_rfl,
        List.prefix_rfl⟩

/-- The bodies of the methods so far, one behind the other. -/
def Emitted (l : Linker) (done : List LinkedMethod) (l' : Linker) : Prop :=
  Later l l' ∧ ∃ bodies, l'.module.bodies.toList = l.module.bodies.toList ++ bodies ∧
    List.Forall₂ (Lowers l l') done bodies

theorem Emitted.step {done : List LinkedMethod} {m : LinkedMethod} {l'' : Linker}
    (h : Emitted l done l') (hrun : emitMethod m l' = .ok () l'') :
    Emitted l (done ++ [m]) l'' := by
  obtain ⟨hlater, bodies, hbodies, hlowers⟩ := h
  have hnext := (emitMethod_later m).of_ok hrun
  obtain ⟨body, hpush, hbody⟩ := emitMethod_lowers hrun
  refine ⟨hlater.trans hnext, bodies ++ [body], ?_, ?_⟩
  · rw [hpush, Array.toList_push, hbodies, List.append_assoc]
  · refine List.rel_append (hlowers.imp fun _ _ hold => hold.later hnext) (.cons ?_ .nil)
    obtain ⟨instrs, tree, f, types, types', hstructured, hlower, hencode, hfrom, hto⟩ := hbody
    refine ⟨instrs, tree, f, types, types', hstructured, ?_, hencode,
      hlater.types.kept.trans hfrom, hto⟩
    obtain ⟨_, _, _, _, rfl⟩ := hlater
    exact hlower

theorem emitPass_later : Moves Later emitPass := by
  refine moves_get.bind fun l => (moves_forM fun m _ => emitMethod_later m).bind fun _ => ?_
  split
  · exact moves_modify fun l => ⟨l.emitted, _, _, .refl _, rfl⟩
  · exact moves_pure ()

theorem Linker.emit_later (l : Linker) : Later l l.emit.2 := by
  unfold Linker.emit
  split
  · exact .refl l
  · have hpass := emitPass_later { l with emitted := true }
    have hmark : Later l { l with emitted := true } := ⟨true, _, _, .refl _, rfl⟩
    unfold run
    split at hpass <;> next hrun =>
      rw [hrun]
      exact hmark.trans hpass

theorem emitPass_run (h : emitPass l = .ok () l') :
    ∃ bodies, l'.module.bodies.toList = l.module.bodies.toList ++ bodies ++
        (l.start.map fun _ => (startFunction l.initialisers).encode).toList ∧
      List.Forall₂ (Lowers l l') l.methods bodies := by
  obtain ⟨l₀, _, hget, h⟩ := run_bind_eq_ok.mp h
  cases hget
  obtain ⟨_, l₁, hmethods, h⟩ := run_bind_eq_ok.mp h
  obtain ⟨-, bodies, hbodies, hlowers⟩ : Emitted l l.methods l₁ :=
    forM_run (P := Emitted l) (fun _ _ _ _ => Emitted.step)
      ⟨.refl l, [], (List.append_nil _).symm, .nil⟩ hmethods
  refine ⟨bodies, ?_⟩
  cases hstart : l.start with
  | none =>
    rw [hstart] at h
    cases h
    exact ⟨by rw [hbodies]; simp, hlowers⟩
  | some i =>
    rw [hstart] at h
    cases h
    refine ⟨?_, hlowers⟩
    simp [hbodies]

/-- Every function has a body, that of a method at the index of the method and that of the start
function, which calls all initialisers, at the end. -/
structure Complete (l l' : Linker) : Prop where
  size : l'.module.bodies.size = l'.module.functions.size
  members : l'.methods.map (fun m => (m.owner, m.pool, m.method)) =
    (staticMethods l'.classes).map fun (c, m, _) => (c.name, c.file.pool, m)
  functions : l'.module.functions.size = l'.methods.length + l'.start.toList.length
  methods : ∀ (k : Nat) m, l'.methods[k]? = some m → m.index = k + l'.module.importCount .func ∧
    ∃ body, l'.module.bodies[k]? = some body ∧ Lowers l l' m body
  start : ∀ i ∈ l'.start, i = l'.methods.length + l'.module.importCount .func ∧
    l'.module.bodies[l'.methods.length]? = some (startFunction
      ((l'.methods.filter fun m => m.method.name = initialiserName).map LinkedMethod.index)).encode

theorem getElem?_numbered {base k : Nat} {methods : List (LoadedClass × Method × Code)}
    {m : LinkedMethod} (h : (numbered base methods)[k]? = some m) : m.index = k + base := by
  unfold numbered at h
  rw [List.getElem?_mapIdx] at h
  obtain ⟨cm, -, rfl⟩ := Option.map_eq_some_iff.mp h
  exact Nat.add_comm base k

theorem map_numbered (base : Nat) (methods : List (LoadedClass × Method × Code)) :
    (numbered base methods).map (fun m => (m.owner, m.pool, m.method)) =
      methods.map fun (c, m, _) => (c.name, c.file.pool, m) := by
  refine List.ext_getElem? fun k => ?_
  unfold numbered
  rw [List.getElem?_map, List.getElem?_map, List.getElem?_mapIdx, Option.map_map]
  rfl

theorem Declares.complete
    (h : Declares options classes (staticFields classes) (staticMethods classes) start l)
    (hrun : emitPass { l with emitted := true } = .ok () l') : Complete l l' := by
  obtain ⟨bodies, hbodies, hlowers⟩ := emitPass_run hrun
  obtain ⟨_, types, emitted, -, rfl⟩ := emitPass_later.of_ok hrun
  have hlength : bodies.length = l.methods.length := hlowers.length_eq.symm
  have hmethods : l.methods.length = (staticMethods classes).length := by
    rw [h.methods_eq]
    exact List.length_mapIdx
  have hfunctions : l.module.functions.size = l.methods.length + l.start.toList.length := by
    rw [h.functions_size, hmethods, h.start_eq]
  replace hbodies : emitted.toList = bodies ++
      (l.start.map fun _ => (startFunction l.initialisers).encode).toList := by
    have hnone : l.module.bodies.toList = [] := by rw [h.bodies_eq]
    simpa [hnone] using hbodies
  refine ⟨?_, ?_, hfunctions, fun k m hk => ⟨?_, ?_⟩, fun i hi => ⟨?_, ?_⟩⟩
  · change emitted.size = l.module.functions.size
    rw [← Array.length_toList, hbodies, List.length_append, hlength, hfunctions]
    cases l.start <;> rfl
  · change l.methods.map _ = (staticMethods l.classes).map _
    rw [h.methods_eq, h.classes_eq]
    exact map_numbered _ _
  · exact getElem?_numbered (h.methods_eq ▸ hk)
  · obtain ⟨hlt, rfl⟩ := List.getElem?_eq_some_iff.mp hk
    change k < l.methods.length at hlt
    refine ⟨bodies[k], ?_, hlowers.get hlt (by omega)⟩
    change emitted[k]? = _
    rw [← Array.getElem?_toList, hbodies, List.getElem?_append_left (by omega),
      List.getElem?_eq_getElem]
  · rw [h.start_index i (h.start_eq ▸ hi), ← hmethods]
    exact Nat.add_comm _ _
  · have hstart : l.start = some i := hi
    change emitted[l.methods.length]? = _
    rw [← Array.getElem?_toList, hbodies, hstart, ← hlength, h.initialisers_eq]
    exact List.getElem?_concat_length

/-! ## Linking -/

theorem run_eq_ok {pass : M Unit} (h : run pass l = (.ok (), l')) : pass l = .ok () l' := by
  unfold run at h
  split at h
  · next hpass =>
    cases h
    exact hpass
  · cases h

/-- What the first pass settles about the classes of `files`. -/
theorem Linker.declare_run {files : List ClassFile} {added : Linker}
    (hadd : Linker.addAll { options } files = .ok added) (hdeclare : added.declare = (.ok (), l)) :
    ∃ classes start, classes.map LoadedClass.file = files ∧
      Declares options classes (staticFields classes) (staticMethods classes) start l := by
  obtain ⟨classes, hloads, rfl⟩ := Linker.addAll_eq_ok.mp hadd
  unfold Linker.declare at hdeclare
  rw [if_neg Bool.false_ne_true] at hdeclare
  obtain ⟨start, hdeclares⟩ := declarePass_run declares_start (run_eq_ok hdeclare)
  exact ⟨classes, start, hloads.files.map_file, hdeclares⟩

theorem Linker.emit_eq_ok (h : l.emit = (.ok (), l')) :
    emitPass { l with emitted := true } = .ok () l' := by
  unfold Linker.emit at h
  split at h
  · cases h
  · exact run_eq_ok h

theorem Declares.complete_of_emit
    (h : Declares options classes (staticFields classes) (staticMethods classes) start l)
    (hemit : l.emit.1 = .ok ()) : Complete l l.emit.2 := by
  have hpair : l.emit = (.ok (), l.emit.2) := Prod.ext hemit rfl
  exact h.complete (Linker.emit_eq_ok hpair)

end

/-- Resolved references are of the types that they promise, before the second pass and after it, and
code gets their indices as long as 32 bits number all functions and globals. Where the second pass
succeeds, every body is the lowering of the method whose index it has. -/
theorem Linker.resolves_typed {options : Options} {files : List ClassFile} {added l : Linker}
    (hadd : Linker.addAll { options } files = .ok added) (hdeclare : added.declare = (.ok (), l))
    (hroom : l.module.types.size ≤ 2 ^ 32) :
    l.options = options ∧ l.classes.map LoadedClass.file = files ∧ l.Typed ∧ l.emit.2.Typed ∧
      (l.module.importCount .func + l.module.functions.size ≤ 2 ^ 32 →
        l.module.importCount .global + l.module.globals.size ≤ 2 ^ 32 → ∀ ref,
        (l.resolver.function ref).map UInt32.toNat = l.function? ref ∧
          (l.resolver.global ref).map UInt32.toNat = l.global? ref) ∧
      l.module.types.toList <+: l.emit.2.module.types.toList ∧
      (l.emit.1 = .ok () → Complete l l.emit.2) := by
  obtain ⟨classes, start, hfiles, hdeclares⟩ := Linker.declare_run hadd hdeclare
  have htyped := hdeclares.typed hroom
  have hlater := l.emit_later
  refine ⟨hdeclares.options_eq, by rw [hdeclares.classes_eq, hfiles], htyped,
    htyped.later hlater, htyped.resolver, hlater.types.kept, ?_⟩
  intro hemit
  have hpair : l.emit = (.ok (), l.emit.2) := Prod.ext hemit rfl
  exact hdeclares.complete (Linker.emit_eq_ok hpair)

/-! ## A class with imports -/

theorem structured_eq_ok {m : LinkedMethod} {instrs : Array Instruction} {tree : List Node}
    (hdecode : decode m.pool ((m.method.code?.map Code.bytes).getD []) = .ok instrs)
    (htree : structureOf instrs = .ok tree) : structured m = .ok (instrs, tree) := by
  unfold structured
  rw [hdecode]
  change ((structureOf instrs).mapError MethodFault.region >>= fun tree => .ok (instrs, tree)) = _
  rw [htree]
  rfl

def callingPool : Pool :=
  ⟨#[none, some (.utf8 "A"), some (.classRef 1), some (.utf8 "x"), some (.utf8 "I"),
    some (.nameAndType 3 4), some (.fieldRef 2 5), some (.utf8 "B"), some (.classRef 7),
    some (.utf8 "g"), some (.utf8 "(I)I"), some (.nameAndType 9 10), some (.methodRef 8 11),
    some (.utf8 "y"), some (.nameAndType 13 4), some (.fieldRef 8 14)]⟩

/-- Calls `B.g` with `1 + (i = 0 ? 3 : 2)`, which takes a block that gives two values. -/
def callingMethod : Method :=
  ⟨⟨0x0009⟩, "f", "(I)I", [.code ⟨2, 1, [0x04, 0x1a, 0x99, 0, 7, 0x05, 0xa7, 0, 4, 0x06, 0x60,
    0xb8, 0, 12, 0xac], [], []⟩]⟩

/-- Sets `A.x` to `B.y`. -/
def settingMethod : Method :=
  ⟨⟨0x0008⟩, initialiserName, "()V", [.code ⟨1, 0, [0xb2, 0, 15, 0xb3, 0, 6, 0xb1], [], []⟩]⟩

def callingFile : ClassFile :=
  ⟨0, 61, callingPool, ⟨0x0020⟩, 2, 0, [], [⟨⟨0x0008⟩, "x", "I", []⟩],
    [callingMethod, settingMethod], []⟩

def callingLinker : Linker :=
  { options := { unresolved := .imported }, classes := [⟨callingFile, "A", .empty⟩] }

def callingInstrs : Array Instruction :=
  #[⟨0, 1, 0x04, false, .const (.int 1)⟩, ⟨1, 1, 0x1a, false, .load .int 0⟩,
    ⟨2, 3, 0x99, false, .branch (.zero .eq) 7⟩, ⟨5, 1, 0x05, false, .const (.int 2)⟩,
    ⟨6, 3, 0xa7, false, .goto 4⟩, ⟨9, 1, 0x06, false, .const (.int 3)⟩,
    ⟨10, 1, 0x60, false, .arith (.int .add)⟩,
    ⟨11, 3, 0xb8, false, .invokeStatic ⟨"B", "g", "(I)I"⟩⟩, ⟨14, 1, 0xac, false, .ret .int⟩]

def callingTree : List Node :=
  [.op 0, .op 1, .block 2 6 .plain [.block 2 5 .conditional [.op 3, .op 4], .op 5], .op 6, .op 7,
    .op 8]

def callingLinked : LinkedMethod := ⟨"A", callingPool, callingMethod, 1⟩

def settingInstrs : Array Instruction :=
  #[⟨0, 3, 0xb2, false, .getStatic ⟨"B", "y", "I"⟩⟩,
    ⟨3, 3, 0xb3, false, .putStatic ⟨"A", "x", "I"⟩⟩, ⟨6, 1, 0xb1, false, .ret .void⟩]

def settingLinked : LinkedMethod := ⟨"A", callingPool, settingMethod, 2⟩

theorem Linker.declare_of_isSome {l : Linker} (h : l.declare.1.toOption.isSome = true) :
    l.declare = (.ok (), l.declare.2) := by
  obtain ⟨u, hu⟩ := Option.isSome_iff_exists.mp h
  exact Prod.ext (ok_of_toOption hu) rfl

def callingDeclared : Linker := callingLinker.declare.2

theorem declare_calling : callingLinker.declare = (.ok (), callingDeclared) :=
  Linker.declare_of_isSome (by decide +kernel)

theorem methods_calling : callingDeclared.methods = [callingLinked, settingLinked] := by
  have hcount : callingDeclared.module.importCount .func = 1 := by decide +kernel
  obtain ⟨start, h⟩ := declarePass_run declares_start (run_eq_ok declare_calling)
  rw [h.methods_eq, hcount]
  rfl

theorem exists_ok {ε α β : Type} {x : Except ε α × β} {b : β} (h : x.1.toOption.isSome = true)
    (hb : x.2 = b) : ∃ a, x = (.ok a, b) := by
  obtain ⟨a, ha⟩ := Option.isSome_iff_exists.mp h
  exact ⟨a, Prod.ext (ok_of_toOption ha) hb⟩

theorem emitMethod_of_lower {m : LinkedMethod} {l : Linker} {instrs : Array Instruction}
    {tree : List Node} {f : Lowering.Function} {types : Array Wasm.FuncType}
    (hstructured : structured m = .ok (instrs, tree))
    (hlower : lower l.resolver l.options.maxSpan m.method instrs tree l.module.types =
      (.ok f, types)) :
    emitMethod m l = .ok () { l with
      module := { l.module with types, bodies := l.module.bodies.push f.encode } } := by
  rw [emitMethod_run, hstructured]
  dsimp only
  rw [hlower]

/-- The second pass succeeds where all methods can be lowered. -/
theorem Linker.emit_of_methods {l : Linker} (hnow : ¬ (!l.declared || l.emitted) = true)
    (hmethods : ∃ l', l.methods.forM emitMethod { l with emitted := true } = .ok () l') :
    l.emit.1 = .ok () := by
  obtain ⟨l', hmethods⟩ := hmethods
  have hpass : ∃ l'', emitPass { l with emitted := true } = .ok () l'' := by
    by_cases hstart : l.start.isSome = true
    · refine ⟨?after, run_bind_eq_ok.mpr ⟨_, _, rfl, run_bind_eq_ok.mpr ⟨(), l', hmethods, ?last⟩⟩⟩
      case last =>
        rw [if_pos hstart]
        rfl
    · refine ⟨l', run_bind_eq_ok.mpr ⟨_, _, rfl, run_bind_eq_ok.mpr ⟨(), l', hmethods, ?_⟩⟩⟩
      rw [if_neg hstart]
      rfl
  obtain ⟨l'', hpass⟩ := hpass
  unfold Linker.emit
  rw [if_neg hnow, run, hpass]

/-- The types with that of the block. -/
def callingTypes : Array Wasm.FuncType :=
  #[⟨[.i32], [.i32]⟩, ⟨[], []⟩, ⟨[], [.i32, .i32]⟩]

theorem emit_calling : callingDeclared.emit.1 = .ok () := by
  have hstructured : structured callingLinked = .ok (callingInstrs, callingTree) :=
    structured_eq_ok (ok_of_toOption (by decide +kernel)) <|
      structureOf_of_repaired #[⟨2, 5, .conditional⟩, ⟨2, 6, .block⟩]
        [⟨2, 6, .block⟩, ⟨2, 5, .conditional⟩] (by decide +kernel)
        (by simp [List.mergeSort, Region.precedes, Region.demote]) rfl
  have hstructured' : structured settingLinked = .ok (settingInstrs, [.op 0, .op 1, .op 2]) :=
    structured_eq_ok (ok_of_toOption (by decide +kernel)) <|
      structureOf_of_repaired #[] [] (by decide +kernel) (by simp) rfl
  have hlower : ∃ f, lower callingDeclared.resolver callingDeclared.options.maxSpan callingMethod
      callingInstrs callingTree callingDeclared.module.types = (.ok f, callingTypes) :=
    exists_ok (by decide +kernel) (by decide +kernel)
  have hlower' : ∃ f, lower callingDeclared.resolver callingDeclared.options.maxSpan settingMethod
      settingInstrs [.op 0, .op 1, .op 2] callingTypes = (.ok f, callingTypes) :=
    exists_ok (by decide +kernel) (by decide +kernel)
  obtain ⟨f, hf⟩ := hlower
  obtain ⟨g, hg⟩ := hlower'
  refine Linker.emit_of_methods (by decide +kernel) ?_
  rw [methods_calling]
  exact ⟨_, run_bind_eq_ok.mpr ⟨(), _, emitMethod_of_lower hstructured hf,
    run_bind_eq_ok.mpr ⟨(), _, emitMethod_of_lower hstructured' hg, rfl⟩⟩⟩

theorem resolves_typed_calling :
    Linker.addAll { options := { unresolved := .imported } } [callingFile] = .ok callingLinker ∧
      callingLinker.declare = (.ok (), callingDeclared) ∧ callingDeclared.Typed ∧
      callingDeclared.function? ⟨"B", "g", "(I)I"⟩ = some 0 ∧
      callingDeclared.function? ⟨"A", "f", "(I)I"⟩ = some 1 ∧
      callingDeclared.global? ⟨"B", "y", "I"⟩ = some 0 ∧
      callingDeclared.global? ⟨"A", "x", "I"⟩ = some 1 ∧
      (∀ ref, (callingDeclared.resolver.function ref).map UInt32.toNat =
        callingDeclared.function? ref) ∧
      callingDeclared.emit.2.Typed ∧ Complete callingDeclared callingDeclared.emit.2 := by
  have hadd : Linker.addAll { options := { unresolved := .imported } } [callingFile] =
      .ok callingLinker := rfl
  have hroom : callingDeclared.module.types.size ≤ 2 ^ 32 := by decide +kernel
  obtain ⟨-, -, htyped, htyped', hwords, -, hcomplete⟩ :=
    Linker.resolves_typed hadd declare_calling hroom
  replace hwords := hwords (by decide +kernel) (by decide +kernel)
  exact ⟨hadd, declare_calling, htyped, by decide +kernel, by decide +kernel, by decide +kernel,
    by decide +kernel, fun ref => (hwords ref).1, htyped', hcomplete emit_calling⟩

end Link

end ClassWasm
