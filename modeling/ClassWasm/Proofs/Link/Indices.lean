/-
  Indices that the first pass hands out. Functions and globals are numbered with the imports first,
  so that a new import moves all that is defined; yet the first pass imports before it defines, and
  whatever has an index keeps it. `Sound` says that indices lead to what the descriptors of their
  members promise, and `Declares` what else is known after each step.
-/
import ClassWasm.Proofs.Link.Stages
import ClassWasm.Proofs.Lowering.Emits
import ClassWasm.Proofs.Lowering.Growth

namespace ClassWasm

namespace Wasm

namespace ImportType

def function? : ImportType → Option UInt32
  | func type => some type
  | _ => none

def global? : ImportType → Option GlobalType
  | global type => some type
  | _ => none

end ImportType

namespace Module

/-- The indices of the types of all functions, imports first. -/
def functionSpace (m : Module) : List UInt32 :=
  m.imports.toList.filterMap (fun i => i.type.function?) ++ m.functions.toList

/-- The types of all globals, imports first. -/
def globalSpace (m : Module) : List GlobalType :=
  m.imports.toList.filterMap (fun i => i.type.global?) ++ m.globals.toList.map Global.type

def functionType? (m : Module) (i : Nat) : Option FuncType :=
  m.functionSpace[i]?.bind fun type => m.types[type.toNat]?

def valueType? (m : Module) (i : Nat) : Option ValType :=
  (m.globalSpace.map GlobalType.type)[i]?

theorem length_functionSpace (m : Module) :
    m.functionSpace.length = m.importCount .func + m.functions.size := by
  have himported : ∀ t : ImportType, t.function?.isSome = decide (t.kind = .func) := by
    intro t
    cases t <;> rfl
  unfold functionSpace importCount
  rw [List.length_append, List.length_filterMap_eq_countP, List.countP_eq_length_filter]
  simp only [himported, Array.length_toList]

theorem length_globalSpace (m : Module) :
    m.globalSpace.length = m.importCount .global + m.globals.size := by
  have himported : ∀ t : ImportType, t.global?.isSome = decide (t.kind = .global) := by
    intro t
    cases t <;> rfl
  unfold globalSpace importCount
  rw [List.length_append, List.length_filterMap_eq_countP, List.countP_eq_length_filter]
  simp only [himported, List.length_map, Array.length_toList]

/-! ## Growth -/

/-- Whatever has an index in `m` has the same one in `m'`. -/
structure Grows (m m' : Module) : Prop where
  types : Extended m.types m'.types
  functions : m.functionSpace <+: m'.functionSpace
  globals : m.globalSpace.map GlobalType.type <+: m'.globalSpace.map GlobalType.type

section

variable {m : Module} {types : Array FuncType}

/-- While nothing is defined, an import gets the next index. -/
theorem functionSpace_import (h : m.functions.size = 0) (i : Import) :
    ({ m with types, imports := m.imports.push i } : Module).functionSpace =
      m.functionSpace ++ i.type.function?.toList := by
  cases hi : i.type.function? <;>
    simp [functionSpace, Array.eq_empty_of_size_eq_zero h, hi]

theorem globalSpace_import (h : m.globals.size = 0) (i : Import) :
    ({ m with types, imports := m.imports.push i } : Module).globalSpace =
      m.globalSpace ++ i.type.global?.toList := by
  cases hi : i.type.global? <;>
    simp [globalSpace, Array.eq_empty_of_size_eq_zero h, hi]

theorem functionSpace_push (type : UInt32) :
    ({ m with types, functions := m.functions.push type } : Module).functionSpace =
      m.functionSpace ++ [type] := by
  simp [functionSpace]

theorem globalSpace_push (g : Global) :
    ({ m with globals := m.globals.push g } : Module).globalSpace = m.globalSpace ++ [g.type] := by
  simp [globalSpace]

theorem grows_import (hfunctions : m.functions.size = 0) (hglobals : m.globals.size = 0)
    (htypes : Extended m.types types) (i : Import) :
    Grows m { m with types, imports := m.imports.push i } := by
  refine ⟨htypes, ?_, ?_⟩
  · rw [functionSpace_import hfunctions]
    exact List.prefix_append _ _
  · rw [globalSpace_import hglobals, List.map_append]
    exact List.prefix_append _ _

theorem grows_function (htypes : Extended m.types types) (type : UInt32) :
    Grows m { m with types, functions := m.functions.push type } := by
  refine ⟨htypes, ?_, List.prefix_rfl⟩
  rw [functionSpace_push]
  exact List.prefix_append _ _

theorem grows_global (g : Global) : Grows m { m with globals := m.globals.push g } := by
  refine ⟨.refl _, List.prefix_rfl, ?_⟩
  rw [globalSpace_push, List.map_append]
  exact List.prefix_append _ _

end

theorem filterMap_modify {α β : Type} {g : α → Option β} {f : α → α} (h : ∀ a, g (f a) = g a)
    (as : List α) (k : Nat) : (as.modify k f).filterMap g = as.filterMap g := by
  induction as generalizing k with
  | nil => simp
  | cons a as ih =>
    rw [List.modify_cons]
    split
    · rw [List.filterMap_cons, List.filterMap_cons, h]
    · rw [List.filterMap_cons, List.filterMap_cons, ih]

/-- Imports may change as long as they stay functions of their types and globals of theirs. -/
theorem grows_modify (m : Module) (k : Nat) {f : Import → Import}
    (hfunction : ∀ i, (f i).type.function? = i.type.function?)
    (hglobal : ∀ i, (f i).type.global?.map GlobalType.type = i.type.global?.map GlobalType.type) :
    Grows m { m with imports := m.imports.modify k f } := by
  have hfunctions := filterMap_modify (g := fun i => i.type.function?) hfunction m.imports.toList k
  have hglobals := filterMap_modify (g := fun i => i.type.global?.map GlobalType.type) hglobal
    m.imports.toList k
  refine ⟨.refl _, ?_, ?_⟩
  · simp only [functionSpace, Array.toList_modify, hfunctions]
    exact List.prefix_rfl
  · simp only [globalSpace, Array.toList_modify, List.map_append, List.map_filterMap, hglobals]
    exact List.prefix_rfl

end Module

end Wasm

namespace Link

open Wasm (ExternKind)

/-! ## Members and their indices -/

section

variable {m m' : Wasm.Module} {descriptor : Text} {i : Nat}

/-- The function has the type of the descriptor. -/
def Signed (m : Wasm.Module) (descriptor : Text) (i : Nat) : Prop :=
  ∃ t n, Descriptor.parseMethod descriptor = .ok t ∧ m.functionSpace[i]? = some (UInt32.ofNat n) ∧
    m.types[n]? = some (.ofMethodType t)

/-- The global has the value type of the descriptor. -/
def Valued (m : Wasm.Module) (descriptor : Text) (i : Nat) : Prop :=
  ∃ t, Descriptor.parseField descriptor = .ok t ∧ m.valueType? i = some (.ofKind t.kind)

theorem Signed.mono (hg : m.Grows m') (h : Signed m descriptor i) : Signed m' descriptor i := by
  obtain ⟨t, n, ht, hspace, htype⟩ := h
  exact ⟨t, n, ht, getElem?_of_prefix hg.functions hspace, hg.types.getElem? htype⟩

theorem Valued.mono (hg : m.Grows m') (h : Valued m descriptor i) : Valued m' descriptor i := by
  obtain ⟨t, ht, hvalue⟩ := h
  exact ⟨t, ht, getElem?_of_prefix hg.globals hvalue⟩

theorem signed_import {types : Array Wasm.FuncType} {t : MethodType} {n : Nat} {i : Wasm.Import}
    (hfunctions : m.functions.size = 0) (ht : Descriptor.parseMethod descriptor = .ok t)
    (hi : i.type = .func (UInt32.ofNat n)) (htype : types[n]? = some (.ofMethodType t)) :
    Signed { m with types, imports := m.imports.push i } descriptor (m.importCount .func) := by
  refine ⟨t, n, ht, ?_, htype⟩
  have hindex := m.length_functionSpace
  rw [hfunctions, Nat.add_zero] at hindex
  rw [Wasm.Module.functionSpace_import hfunctions, ← hindex, hi]
  exact List.getElem?_concat_length

theorem valued_import {t : FieldType} {stores : Bool} {i : Wasm.Import}
    (hglobals : m.globals.size = 0) (ht : Descriptor.parseField descriptor = .ok t)
    (hi : i.type = .global ⟨.ofKind t.kind, stores⟩) :
    Valued { m with imports := m.imports.push i } descriptor (m.importCount .global) := by
  refine ⟨t, ht, ?_⟩
  have hindex := m.length_globalSpace
  rw [hglobals, Nat.add_zero] at hindex
  unfold Wasm.Module.valueType?
  rw [Wasm.Module.globalSpace_import hglobals, ← hindex, hi, List.map_append, ← List.length_map]
  exact List.getElem?_concat_length

theorem signed_function {types : Array Wasm.FuncType} {t : MethodType} {n : Nat}
    (ht : Descriptor.parseMethod descriptor = .ok t) (htype : types[n]? = some (.ofMethodType t)) :
    Signed { m with types, functions := m.functions.push (UInt32.ofNat n) } descriptor
      (m.importCount .func + m.functions.size) := by
  refine ⟨t, n, ht, ?_, htype⟩
  rw [Wasm.Module.functionSpace_push, ← m.length_functionSpace]
  exact List.getElem?_concat_length

theorem valued_global {t : FieldType} {g : Wasm.Global}
    (ht : Descriptor.parseField descriptor = .ok t) (hg : g.type.type = .ofKind t.kind) :
    Valued { m with globals := m.globals.push g } descriptor
      (m.importCount .global + m.globals.size) := by
  refine ⟨t, ht, ?_⟩
  unfold Wasm.Module.valueType?
  rw [Wasm.Module.globalSpace_push, ← m.length_globalSpace, List.map_append, ← hg,
    ← List.length_map]
  exact List.getElem?_concat_length

end

/-- Indices lead to what the descriptors of their members promise. -/
structure Sound (m : Wasm.Module) (imports : List ImportedMember)
    (globals functions : List (MemberRef × Nat)) : Prop where
  distinct : m.types.toList.Nodup
  functions : ∀ p ∈ functions, Signed m p.1.descriptor p.2
  globals : ∀ p ∈ globals, Valued m p.1.descriptor p.2
  importedFunctions : ∀ i ∈ imports, i.kind = .func → Signed m i.ref.descriptor i.index
  importedGlobals : ∀ i ∈ imports, i.kind = .global → Valued m i.ref.descriptor i.index

namespace Sound

variable {m m' : Wasm.Module} {imports : List ImportedMember}
  {globals functions : List (MemberRef × Nat)}

theorem grow (h : Sound m imports globals functions) (hg : m.Grows m') :
    Sound m' imports globals functions where
  distinct := hg.types.distinct h.distinct
  functions p hp := (h.functions p hp).mono hg
  globals p hp := (h.globals p hp).mono hg
  importedFunctions i hi hkind := (h.importedFunctions i hi hkind).mono hg
  importedGlobals i hi hkind := (h.importedGlobals i hi hkind).mono hg

theorem addImport (h : Sound m imports globals functions) {i : ImportedMember}
    (hfunction : i.kind = .func → Signed m i.ref.descriptor i.index)
    (hglobal : i.kind = .global → Valued m i.ref.descriptor i.index) :
    Sound m (imports ++ [i]) globals functions :=
  { h with
    importedFunctions := List.forall_mem_append.mpr
      ⟨h.importedFunctions, List.forall_mem_singleton.mpr hfunction⟩
    importedGlobals := List.forall_mem_append.mpr
      ⟨h.importedGlobals, List.forall_mem_singleton.mpr hglobal⟩ }

theorem addGlobal (h : Sound m imports globals functions) {ref : MemberRef} {i : Nat}
    (hglobal : Valued m ref.descriptor i) : Sound m imports ((ref, i) :: globals) functions :=
  { h with globals := List.forall_mem_cons.mpr ⟨hglobal, h.globals⟩ }

theorem addFunction (h : Sound m imports globals functions) {ref : MemberRef} {i : Nat}
    (hfunction : Signed m ref.descriptor i) : Sound m imports globals ((ref, i) :: functions) :=
  { h with functions := List.forall_mem_cons.mpr ⟨hfunction, h.functions⟩ }

end Sound

/-! ## The first pass -/

/-- Methods as the linker keeps them, with their indices from `base` on. -/
def numbered (base : Nat) (methods : List (LoadedClass × Method × Code)) : List LinkedMethod :=
  methods.mapIdx fun k (c, m, _) => ⟨c.name, c.file.pool, m, base + k⟩

/-- The fields and methods have become globals and functions, the start function perhaps too, and
nothing has been emitted. -/
structure Declares (options : Options) (classes : Hierarchy) (fields : List (Text × Field))
    (methods : List (LoadedClass × Method × Code)) (start : Option Nat) (l : Linker) : Prop
    extends Sound l.module l.imports l.globalIndices l.functionIndices where
  options_eq : l.options = options
  classes_eq : l.classes = classes
  fields_eq : l.globalIndices.map Prod.fst =
    (fields.map fun (owner, f) => (⟨owner, f.name, f.descriptor⟩ : MemberRef)).reverse
  globals_size : l.module.globals.size = fields.length
  methods_eq : l.methods = numbered (l.module.importCount .func) methods
  indices_eq : l.functionIndices = (l.methods.map fun m => (m.ref, m.index)).reverse
  initialisers_eq : l.initialisers =
    (l.methods.filter fun m => m.method.name = initialiserName).map LinkedMethod.index
  start_eq : l.start = start
  start_index : ∀ i ∈ start, i = l.module.importCount .func + methods.length
  functions_size : l.module.functions.size = methods.length + start.toList.length
  bodies_eq : l.module.bodies = #[]

section

variable {options : Options} {classes : Hierarchy} {fields : List (Text × Field)}
  {methods : List (LoadedClass × Method × Code)} {start : Option Nat} {l l' : Linker}

/-- Nothing is defined yet. -/
abbrev Importing (options : Options) (classes : Hierarchy) : Linker → Prop :=
  Declares options classes [] [] none

theorem declares_start : Importing options classes { options, classes, declared := true } where
  distinct := List.nodup_nil
  functions := nofun
  globals := nofun
  importedFunctions := nofun
  importedGlobals := nofun
  options_eq := rfl
  classes_eq := rfl
  fields_eq := rfl
  globals_size := rfl
  methods_eq := rfl
  indices_eq := rfl
  initialisers_eq := rfl
  start_eq := rfl
  start_index := nofun
  functions_size := rfl
  bodies_eq := rfl

/-- A module whose imports and types may be others, with the members that it imports. -/
theorem Importing.changed (h : Importing options classes l) {types : Array Wasm.FuncType}
    {imports : Array Wasm.Import} {members : List ImportedMember}
    (hsound : Sound { l.module with types, imports } members l.globalIndices l.functionIndices) :
    Importing options classes
      { l with imports := members, module := { l.module with types, imports } } where
  toSound := hsound
  options_eq := h.options_eq
  classes_eq := h.classes_eq
  fields_eq := h.fields_eq
  globals_size := h.globals_size
  methods_eq := h.methods_eq
  indices_eq := h.indices_eq
  initialisers_eq := h.initialisers_eq
  start_eq := h.start_eq
  start_index := nofun
  functions_size := h.functions_size
  bodies_eq := h.bodies_eq

theorem makeMutable_keeps (ref : MemberRef) :
    Moves (Keeping (Importing options classes)) (makeMutable ref) := by
  refine moves_modify fun l h => ?_
  dsimp only
  split
  · exact h
  · refine h.changed (h.toSound.grow (Wasm.Module.grows_modify _ _ ?_ ?_)) <;>
    · rintro ⟨module, name, type⟩
      cases type <;> rfl

theorem addGlobal_keeps {ref : MemberRef} {name : Text} {stores : Bool} {t : FieldType}
    (ht : Descriptor.parseField ref.descriptor = .ok t) :
    Moves (Keeping (Importing options classes))
      (addImport ref name (.global ⟨.ofKind t.kind, stores⟩)) := by
  refine moves_modify fun l h => h.changed (Sound.addImport (h.toSound.grow
    (Wasm.Module.grows_import h.functions_size h.globals_size (.refl _) _)) nofun fun _ => ?_)
  exact valued_import h.globals_size ht rfl

theorem addFunction_keeps {ref : MemberRef} {name : Text} {t : MethodType}
    (ht : Descriptor.parseMethod ref.descriptor = .ok t) :
    Moves (Keeping (Importing options classes)) (do
      let type ← typeIndex (.ofMethodType t)
      addImport ref name (.func (UInt32.ofNat type))
      pure (.ok ()) : M (Except Descriptor.Error Unit)) := by
  intro l h
  refine h.changed (Sound.addImport (h.toSound.grow (Wasm.Module.grows_import h.functions_size
    h.globals_size (Wasm.internType_extended l.module.types (.ofMethodType t)) _))
    (fun _ => ?_) nofun)
  exact signed_import h.functions_size ht rfl (Lowering.internType_spec _ _).1

theorem importGlobal_keeps (ref : MemberRef) (stores : Bool) :
    Moves (Keeping (Importing options classes)) (importGlobal ref stores) := by
  refine moves_get.bind fun l => ?_
  split
  · exact moves_pure _
  · split
    · split
      · exact (makeMutable_keeps ref).bind fun _ => moves_pure _
      · exact moves_pure _
    · split
      · exact moves_pure _
      · next t ht => exact (addGlobal_keeps ht).bind fun _ => moves_pure _

theorem importFunction_keeps (ref : MemberRef) :
    Moves (Keeping (Importing options classes)) (importFunction ref) := by
  refine moves_get.bind fun l => ?_
  split
  · exact moves_pure _
  · split
    · exact moves_pure _
    · next t ht => exact addFunction_keeps ht

theorem importFor_keeps (op : Operation) :
    Moves (Keeping (Importing options classes)) (importFor op) := by
  unfold importFor
  dsimp only
  split
  · exact (importGlobal_keeps _ _).bind fun _ => moves_pure _
  · exact (importGlobal_keeps _ _).bind fun _ => moves_pure _
  · exact (importFunction_keeps _).bind fun _ => moves_pure _
  · exact moves_pure _

theorem importForMethod_keeps (cm : LoadedClass × Method × Code) :
    Moves (Keeping (Importing options classes)) (importForMethod cm) := by
  obtain ⟨c, m, code⟩ := cm
  unfold importForMethod
  dsimp only
  split
  · exact moves_throw _
  · refine moves_forM fun i _ => (importFor_keeps i.op).bind fun x => ?_
    split
    · exact moves_pure ()
    · exact moves_throw _

/-! ## Definitions -/

theorem globalOf_type {owner : Text} {f : Field} {g : Wasm.Global} (h : globalOf owner f = .ok g) :
    ∃ t, Descriptor.parseField f.descriptor = .ok t ∧ g.type.type = .ofKind t.kind := by
  unfold globalOf at h
  split at h
  · cases h
  · next t ht =>
    refine ⟨t, ht, ?_⟩
    dsimp only at h
    split at h
    · cases h
      rfl
    · split at h <;> cases h
      rfl

theorem declareGlobal_run {owner : Text} {f : Field}
    (h : Declares options classes fields methods start l)
    (hrun : declareGlobal owner f l = .ok () l') :
    Declares options classes (fields ++ [(owner, f)]) methods start l' := by
  unfold declareGlobal at hrun
  cases hg : globalOf owner f with
  | error e =>
    rw [hg] at hrun
    cases hrun
  | ok g =>
    rw [hg] at hrun
    cases hrun
    obtain ⟨t, ht, htype⟩ := globalOf_type hg
    exact
      { toSound := (h.toSound.grow (Wasm.Module.grows_global g)).addGlobal (valued_global ht htype)
        options_eq := h.options_eq
        classes_eq := h.classes_eq
        fields_eq := by simp [h.fields_eq]
        globals_size := by simp [h.globals_size]
        methods_eq := h.methods_eq
        indices_eq := h.indices_eq
        initialisers_eq := h.initialisers_eq
        start_eq := h.start_eq
        start_index := h.start_index
        functions_size := h.functions_size
        bodies_eq := h.bodies_eq }

theorem declareFunction_run {c : LoadedClass} {m : Method} {code : Code}
    (h : Declares options classes fields methods none l)
    (hrun : declareFunction c m l = .ok () l') :
    Declares options classes fields (methods ++ [(c, m, code)]) none l' := by
  unfold declareFunction at hrun
  dsimp only at hrun
  cases ht : Descriptor.parseMethod m.descriptor with
  | error e =>
    rw [ht] at hrun
    cases hrun
  | ok t =>
    rw [ht] at hrun
    cases hrun
    have hgrown := h.toSound.grow (Wasm.Module.grows_function
      (Wasm.internType_extended l.module.types (.ofMethodType t))
      (UInt32.ofNat (Wasm.internType l.module.types (.ofMethodType t)).1))
    have hsize : l.module.functions.size = methods.length := h.functions_size
    exact
      { toSound := hgrown.addFunction (signed_function ht (Lowering.internType_spec _ _).1)
        options_eq := h.options_eq
        classes_eq := h.classes_eq
        fields_eq := h.fields_eq
        globals_size := h.globals_size
        methods_eq := by
          dsimp only
          rw [h.methods_eq, hsize, numbered, numbered, List.mapIdx_concat]
          rfl
        indices_eq := by
          dsimp only
          rw [h.indices_eq, List.map_append, List.reverse_append]
          rfl
        initialisers_eq := by
          dsimp only
          rw [h.initialisers_eq, List.filter_append, List.map_append]
          by_cases hname : m.name = initialiserName <;> simp [hname]
        start_eq := h.start_eq
        start_index := nofun
        functions_size := by simp [hsize]
        bodies_eq := h.bodies_eq }

/-- Names of exports settle nothing about indices. -/
theorem Declares.named (h : Declares options classes fields methods start l)
    (exportNames : List ((ExternKind × MemberRef) × Text)) (exports : Array Wasm.Export)
    (linkMap : Option LinkMap) :
    Declares options classes fields methods start
      { l with exportNames, linkMap, module := { l.module with exports } } where
  toSound := h.toSound.grow ⟨.refl _, List.prefix_rfl, List.prefix_rfl⟩
  options_eq := h.options_eq
  classes_eq := h.classes_eq
  fields_eq := h.fields_eq
  globals_size := h.globals_size
  methods_eq := h.methods_eq
  indices_eq := h.indices_eq
  initialisers_eq := h.initialisers_eq
  start_eq := h.start_eq
  start_index := h.start_index
  functions_size := h.functions_size
  bodies_eq := h.bodies_eq

theorem addExport_keeps (kind : ExternKind) (ref : MemberRef) (index : Nat) (name : Text) :
    Moves (Keeping (Declares options classes fields methods start))
      (addExport kind ref index name) :=
  moves_modify fun l h => h.named _ _ l.linkMap

theorem exportMethods_keeps :
    Moves (Keeping (Declares options classes fields methods start)) exportMethods :=
  moves_get.bind fun _ => moves_forM fun _ _ => addExport_keeps _ _ _ _

theorem exportGlobals_keeps :
    Moves (Keeping (Declares options classes fields methods start)) exportGlobals := by
  refine moves_get.bind fun l => ?_
  split
  · exact moves_forM fun of _ => addExport_keeps _ _ _ _
  · exact moves_pure ()

theorem declareStart_run (h : Declares options classes fields methods none l)
    (hrun : declareStart l = .ok () l') :
    ∃ start, Declares options classes fields methods start l' := by
  obtain ⟨l₁, _, hget, hrun⟩ := run_bind_eq_ok.mp hrun
  cases hget
  split at hrun
  · cases hrun
    have hgrows := Wasm.Module.grows_function
      (Wasm.internType_extended l.module.types ⟨[], []⟩)
      (UInt32.ofNat (Wasm.internType l.module.types ⟨[], []⟩).1)
    have hsize : l.module.functions.size = methods.length := h.functions_size
    exact ⟨some (l.module.importCount .func + l.module.functions.size),
      { toSound := h.toSound.grow ⟨hgrows.types, hgrows.functions, hgrows.globals⟩
        options_eq := h.options_eq
        classes_eq := h.classes_eq
        fields_eq := h.fields_eq
        globals_size := h.globals_size
        methods_eq := h.methods_eq
        indices_eq := h.indices_eq
        initialisers_eq := h.initialisers_eq
        start_eq := rfl
        start_index := by
          rintro i ⟨⟩
          rw [hsize]
          rfl
        functions_size := by simp [hsize]
        bodies_eq := h.bodies_eq }⟩
  · cases hrun
    exact ⟨none, h⟩

/-- After imports, all static fields become globals and all static methods with code functions. -/
theorem definitions_run (h : Importing options classes l)
    (hrun : definitions classes l = .ok () l') :
    ∃ start, Declares options classes (staticFields classes) (staticMethods classes) start l' := by
  obtain ⟨_, l₁, hglobals, hrun⟩ := run_bind_eq_ok.mp hrun
  obtain ⟨_, l₂, hfunctions, hrun⟩ := run_bind_eq_ok.mp hrun
  obtain ⟨_, l₃, hmethods, hrun⟩ := run_bind_eq_ok.mp hrun
  obtain ⟨_, l₄, hfields, hrun⟩ := run_bind_eq_ok.mp hrun
  obtain ⟨_, l₅, hstart, hrun⟩ := run_bind_eq_ok.mp hrun
  have h₁ : Declares options classes (staticFields classes) [] none l₁ :=
    forM_run (P := fun fields => Declares options classes fields [] none)
      (fun _ _ _ _ => declareGlobal_run) h hglobals
  have h₂ : Declares options classes (staticFields classes) (staticMethods classes) none l₂ :=
    forM_run (P := fun methods => Declares options classes (staticFields classes) methods none)
      (fun _ _ _ _ => declareFunction_run) h₁ hfunctions
  have h₄ := exportGlobals_keeps.of_ok hfields (exportMethods_keeps.of_ok hmethods h₂)
  obtain ⟨start, h₅⟩ := declareStart_run h₄ hstart
  cases hrun
  exact ⟨start, h₅.named _ _ _⟩

theorem declarePass_run (h : Importing options classes l) (hrun : declarePass l = .ok () l') :
    ∃ start, Declares options classes (staticFields classes) (staticMethods classes) start l' := by
  rw [declarePass_eq] at hrun
  obtain ⟨l₀, _, hget, hrun⟩ := run_bind_eq_ok.mp hrun
  cases hget
  rw [h.classes_eq] at hrun
  dsimp only at hrun
  split at hrun
  · obtain ⟨_, l₁, himport, hrun⟩ := run_bind_eq_ok.mp hrun
    exact definitions_run ((moves_forM fun cm _ => importForMethod_keeps cm).of_ok himport h) hrun
  · exact definitions_run h hrun

end

end Link

end ClassWasm
