/-
  Globals of static fields. The first pass gives the fields of all classes their globals in order,
  behind those that are imported. A field that is final and has a constant gets one that never
  changes; yet nothing keeps a method from storing to it. What a method stores to is mutable
  everywhere else (`stores_mutable`): a global of a class because it has no constant, and one that is
  imported because the scan has seen the store.
-/
import ClassWasm.Proofs.Link.Imports

namespace ClassWasm

open Wasm (ExternKind)

/-- Whether a field keeps the constant that it starts with. -/
def Field.isConstant (f : Field) : Bool := f.access.isFinal && f.attributes.constantValue?.isSome

/-- What a list keeps of the item at position `k`. -/
theorem getElem?_filterMap_take {α β : Type} {f : α → Option β} {as : List α} {k : Nat} {a : α}
    {b : β} (ha : as[k]? = some a) (hb : f a = some b) :
    (as.filterMap f)[((as.take k).filterMap f).length]? = some b := by
  obtain ⟨hlt, rfl⟩ := List.getElem?_eq_some_iff.mp ha
  have hsplit : as.filterMap f = (as.take k).filterMap f ++ b :: (as.drop (k + 1)).filterMap f := by
    calc as.filterMap f
        = (as.take k ++ as[k] :: as.drop (k + 1)).filterMap f := by
          rw [List.getElem_cons_drop, List.take_append_drop]
      _ = _ := by rw [List.filterMap_append, List.filterMap_cons_some hb]
  rw [hsplit, List.getElem?_append_right (Nat.le_refl _), Nat.sub_self]
  rfl

namespace Wasm.Module

variable {m : Module}

theorem length_filterMap_global? (imports : List Import) :
    (imports.filterMap fun i => i.type.global?).length =
      (imports.map fun i => i.type.kind).count .global := by
  have himported : ∀ i : Import, i.type.global?.isSome = (i.type.kind == .global) := by
    rintro ⟨module, name, type⟩
    cases type <;> rfl
  rw [List.length_filterMap_eq_countP, List.count, List.countP_map]
  exact congrArg (List.countP · imports) (funext himported)

theorem importCount_global : m.importCount .global =
    (m.imports.toList.filterMap fun i => i.type.global?).length := by
  have hlength := m.length_globalSpace
  simp only [globalSpace, List.length_append, List.length_map, Array.length_toList] at hlength
  omega

theorem globalSpace_defined (k : Nat) :
    m.globalSpace[m.importCount .global + k]? = (m.globals[k]?).map Global.type := by
  rw [importCount_global, globalSpace, List.getElem?_append_right (Nat.le_add_right _ _),
    Nat.add_sub_cancel_left, List.getElem?_map, Array.getElem?_toList]

/-- An imported global comes behind those that are imported before it. -/
theorem globalSpace_imported {k : Nat} {i : Import} {g : GlobalType}
    (hi : m.imports.toList[k]? = some i) (hg : i.type = .global g) :
    ((m.imports.toList.map fun i => i.type.kind).take k).count .global < m.importCount .global ∧
      m.globalSpace[((m.imports.toList.map fun i => i.type.kind).take k).count .global]? =
        some g := by
  have hkept := getElem?_filterMap_take (f := fun i => i.type.global?) hi (by rw [hg]; rfl)
  rw [← List.map_take, ← length_filterMap_global?]
  obtain ⟨hlt, -⟩ := List.getElem?_eq_some_iff.mp hkept
  refine ⟨by rw [importCount_global]; exact hlt, ?_⟩
  rw [globalSpace, List.getElem?_append_left hlt]
  exact hkept

end Wasm.Module

namespace Link

/-- The member that a static field is. -/
def fieldRef (of : Text × Field) : MemberRef := ⟨of.1, of.2.name, of.2.descriptor⟩

/-- Static fields with their indices from `base` on. -/
def numberedFields (base : Nat) (fields : List (Text × Field)) : List (MemberRef × Nat) :=
  fields.mapIdx fun k of => (fieldRef of, base + k)

/-- These static fields have become globals, in order and behind the imports. -/
structure Defines (fields : List (Text × Field)) (l : Linker) : Prop where
  indices : l.globalIndices = (numberedFields (l.module.importCount .global) fields).reverse
  globals : List.Forall₂ (fun of g => globalOf of.1 of.2 = .ok g) fields l.module.globals.toList

section

variable {options : Options} {classes : Hierarchy} {fields : List (Text × Field)} {l l' : Linker}

theorem globalOf_mutable {owner : Text} {f : Field} {g : Wasm.Global}
    (h : globalOf owner f = .ok g) : g.type.mutable = !f.isConstant := by
  unfold globalOf at h
  split at h
  · cases h
  · dsimp only at h
    unfold Field.isConstant
    cases hfinal : f.access.isFinal with
    | false =>
      rw [hfinal] at h
      cases h
      rfl
    | true =>
      rw [hfinal, if_pos rfl] at h
      cases hconstant : f.attributes.constantValue? with
      | none =>
        rw [hconstant] at h
        cases h
        rfl
      | some entry =>
        rw [hconstant] at h
        dsimp only at h
        split at h
        · cases h
          rfl
        · cases h

theorem declareGlobal_defines {owner : Text} {f : Field} (h : Defines fields l)
    (hrun : declareGlobal owner f l = .ok () l') : Defines (fields ++ [(owner, f)]) l' := by
  unfold declareGlobal at hrun
  cases hg : globalOf owner f with
  | error e =>
    rw [hg] at hrun
    cases hrun
  | ok g =>
    rw [hg] at hrun
    cases hrun
    have hsize : l.module.globals.size = fields.length := by
      rw [← Array.length_toList, h.globals.length_eq]
    refine ⟨?_, ?_⟩
    · dsimp only
      rw [h.indices, hsize, numberedFields, numberedFields, List.mapIdx_concat,
        List.reverse_append]
      rfl
    · dsimp only
      rw [Array.toList_push]
      exact List.rel_append h.globals (.cons hg .nil)

/-- What the definition of globals depends on. -/
def Linker.defined (l : Linker) : List (MemberRef × Nat) × Array Wasm.Import × Array Wasm.Global :=
  (l.globalIndices, l.module.imports, l.module.globals)

theorem Defines.congr (h : Defines fields l) (heq : l'.defined = l.defined) :
    Defines fields l' := by
  simp only [Linker.defined, Prod.mk.injEq] at heq
  obtain ⟨hindices, himports, hglobals⟩ := heq
  refine ⟨?_, by rw [hglobals]; exact h.globals⟩
  rw [hindices, h.indices, Wasm.Module.importCount, Wasm.Module.importCount, himports]

theorem Stages.importing (s : Stages l l') (h : Importing options classes l) :
    Importing options classes s.imported := by
  have hrun := s.imported_run
  split at hrun
  · exact (moves_forM fun cm _ => importForMethod_keeps cm).of_ok hrun h
  · exact hrun.symm ▸ h

/-- After imports, all static fields become globals. -/
theorem Stages.defines (s : Stages l l') (h : Importing options classes l) :
    Defines (staticFields classes) l' := by
  have himporting := s.importing h
  have hstart : Defines [] s.imported := by
    refine ⟨List.map_eq_nil_iff.mp himporting.fields_eq, ?_⟩
    rw [Array.toList_eq_nil_iff.mpr (Array.eq_empty_of_size_eq_zero himporting.globals_size)]
    exact .nil
  have hglobals : Defines (staticFields l.classes) s.globals :=
    forM_run (P := Defines) (fun _ _ _ _ => declareGlobal_defines) hstart s.globals_run
  rw [h.classes_eq] at hglobals
  have h₁ := s.same_of_functions Linker.defined (fun _ _ _ => rfl)
    (fun _ _ _ _ _ => rfl) fun _ _ => rfl
  have h₂ := s.same_of_globals Linker.defined fun _ _ _ _ _ _ => rfl
  exact hglobals.congr (h₁.trans h₂)

/-! ## Where stores go -/

/-- The global of a field that keeps its constant. -/
def Linker.ConstantAt (l : Linker) (ref : MemberRef) (i : Nat) : Prop :=
  ∃ k of, (staticFields l.classes)[k]? = some of ∧ i = l.module.importCount .global + k ∧
    of.2.isConstant = true ∧ of.2.name = ref.name ∧ of.2.descriptor = ref.descriptor

theorem Defines.space (h : Defines fields l) {ref : MemberRef} {i : Nat}
    (hi : (ref, i) ∈ l.globalIndices) :
    ∃ k of g, fields[k]? = some of ∧ fieldRef of = ref ∧ i = l.module.importCount .global + k ∧
      l.module.globalSpace[i]? = some g ∧ g.mutable = !of.2.isConstant := by
  rw [h.indices, List.mem_reverse] at hi
  obtain ⟨k, hk, heq⟩ := List.mem_mapIdx.mp hi
  obtain ⟨href, hindex⟩ := Prod.mk.inj heq
  have hat : fields[k]? = some fields[k] := List.getElem?_eq_getElem hk
  obtain ⟨g, hg, hof⟩ := getElem?_of_forall₂ h.globals hat
  refine ⟨k, fields[k], g.type, hat, href, hindex.symm, ?_, globalOf_mutable hof⟩
  rw [← hindex, Wasm.Module.globalSpace_defined, ← Array.getElem?_toList, hg]
  rfl

/-- Every static field has an index in the global index space. -/
theorem Defines.lookup (h : Defines fields l) {of : Text × Field} (hof : of ∈ fields) :
    ∃ i, l.globalIndices.lookup (fieldRef of) = some i ∧
      i < l.module.importCount .global + l.module.globals.size := by
  obtain ⟨k, hk, rfl⟩ := List.getElem_of_mem hof
  have hentry : (fieldRef fields[k], l.module.importCount .global + k) ∈ l.globalIndices := by
    rw [h.indices, List.mem_reverse]
    exact List.mem_mapIdx.mpr ⟨k, hk, rfl⟩
  obtain ⟨i, hi⟩ := Option.isSome_iff_exists.mp
    (List.lookup_isSome_iff.mpr ⟨_, hentry, beq_self_eq_true _⟩)
  obtain ⟨-, -, g, -, -, -, hspace, -⟩ := h.space (mem_of_lookup hi)
  refine ⟨i, hi, ?_⟩
  rw [← Wasm.Module.length_globalSpace]
  exact (List.getElem?_eq_some_iff.mp hspace).1

theorem Scanned.space {ops : List Operation} (h : Scanned classes ops l) {ref : MemberRef} {i : Nat}
    (hi : l.imported? .global ref = some i) :
    ∃ g, i < l.module.importCount .global ∧ l.module.globalSpace[i]? = some g ∧
      (g.mutable = true ↔ .putStatic ref ∈ ops) := by
  obtain ⟨imported, hmem, hkind, rfl, rfl⟩ := imported?_eq_some hi
  obtain ⟨k, hat⟩ := List.mem_iff_getElem?.mp hmem
  obtain ⟨imp, hmodule, hstands⟩ := getElem?_of_forall₂ h.stands hat
  have hglobal := hstands.kind
  rw [hkind] at hglobal
  obtain ⟨g, hg⟩ : ∃ g, imp.type = .global g := by
    cases htype : imp.type with
    | global g => exact ⟨g, rfl⟩
    | _ =>
      rw [htype] at hglobal
      cases hglobal
  obtain ⟨hlt, hspace⟩ := Wasm.Module.globalSpace_imported hmodule hg
  rw [h.indices k imported hat, hkind, List.map_take, h.kinds_eq]
  exact ⟨g, hlt, hspace, hstands.mutable g hg⟩

/-- Where a method stores, the global is mutable unless its field keeps a constant. -/
theorem Defines.stores_space {ops : List Operation} (h : Defines (staticFields classes) l)
    (hscanned : Scanned classes ops l) {ref : MemberRef} {i : Nat} (hi : l.global? ref = some i)
    (hstored : l.imported? .global ref = some i → .putStatic ref ∈ ops) :
    ∃ g, l.module.globalSpace[i]? = some g ∧ (g.mutable = true ↔ ¬ l.ConstantAt ref i) := by
  unfold Linker.global? at hi
  split at hi
  · next c f hf =>
    obtain ⟨-, hname, hdescriptor⟩ := Hierarchy.staticField?_eq_some hf
    obtain ⟨k, of, g, hk, href, rfl, hspace, hmutable⟩ := h.space (mem_of_lookup hi)
    obtain ⟨-, hof, hofdesc⟩ := MemberRef.mk.inj href
    refine ⟨g, hspace, ?_⟩
    have hiff : l.ConstantAt ref (l.module.importCount .global + k) ↔ of.2.isConstant = true := by
      constructor
      · rintro ⟨k', of', hk', heq, hconstant, -⟩
        obtain rfl := Nat.add_left_cancel heq
        rw [hscanned.classes_eq, hk] at hk'
        cases hk'
        exact hconstant
      · intro hconstant
        exact ⟨k, of, hscanned.classes_eq ▸ hk, rfl, hconstant, hof.trans hname,
          hofdesc.trans hdescriptor⟩
    rw [hmutable, hiff, Bool.not_eq_true, Bool.not_eq_true']
  · obtain ⟨g, hlt, hspace, hmutable⟩ := hscanned.space hi
    refine ⟨g, hspace, iff_of_true (hmutable.mpr (hstored hi)) ?_⟩
    rintro ⟨k, of, -, rfl, -⟩
    omega

/-! ## Emitted bodies -/

/-- A method stores to a field by an instruction that control reaches. -/
def LinkedMethod.Stores (m : LinkedMethod) (ref : MemberRef) : Prop :=
  ∃ instrs type typing k i, decode m.pool ((m.method.code?.map Code.bytes).getD []) = .ok instrs ∧
    Lowering.check m.method instrs = .ok (type, typing) ∧ instrs[k]? = some i ∧
    (StackTyping.stackAt typing k).isSome = true ∧ i.op = .putStatic ref

theorem LinkedMethod.Stores.mem_operations {m : LinkedMethod} {ref : MemberRef} (h : m.Stores ref) :
    .putStatic ref ∈ m.operations := by
  obtain ⟨instrs, -, -, k, i, hd, -, hi, -, hop⟩ := h
  unfold LinkedMethod.operations operationsOf
  rw [hd]
  exact hop ▸ List.mem_map_of_mem (Array.mem_toList_iff.mpr (Array.mem_of_getElem? hi))

/-- A body stores as the instructions of its method that control reaches, in globals of their
fields. -/
theorem lowered_stores {m : LinkedMethod} {instrs : Array Instruction} {tree : List Node}
    {resolver : Lowering.Resolver} {maxSpan : Int} {types types' : Array Wasm.FuncType}
    {f : Lowering.Function} (hstructured : structured m = .ok (instrs, tree))
    (hlower : lower resolver maxSpan m.method instrs tree types = (.ok f, types')) :
    (∀ ref, m.Stores ref → (resolver.global ref).isSome = true) ∧
      ∀ g, .globalSet g ∈ Wasm.Instr.plainsOf f.body →
        ∃ ref, m.Stores ref ∧ resolver.global ref = some g := by
  obtain ⟨hd, htree⟩ := structured_of_ok hstructured
  have hok : (lower resolver maxSpan m.method instrs tree types).1 = .ok f := by rw [hlower]
  obtain ⟨type, typing, hcheck, hadded⟩ :=
    (lower_adds resolver maxSpan m.method instrs tree types).2 f hok
  constructor
  · rintro ref ⟨instrs', type', typing', k, i, hd', hcheck', hi, hk, hop⟩
    obtain rfl := Except.ok.inj (hd.symm.trans hd')
    obtain ⟨-, rfl⟩ := Prod.mk.inj (Except.ok.inj (hcheck.symm.trans hcheck'))
    have hresolved := Lowering.lower_settles hd htree hcheck resolver maxSpan types
    rw [hok] at hresolved
    have hlt := (Array.getElem?_eq_some_iff.mp hi).1
    obtain ⟨hresolves, -⟩ := hresolved k i (Nat.zero_le k) hlt hi hk
    rw [hop] at hresolves
    exact hresolves
  · intro g hg
    rcases hadded _ hg with hlocal | hnames
    · cases hlocal
    · cases hnames with
      | @set k i ref _ hi hk hop hglobal =>
        exact ⟨ref, ⟨instrs, type, typing, k, i, hd, hcheck, hi, hk, hop⟩, hglobal⟩

/-- The start function only calls. -/
theorem startFunction_stores (initialisers : List Nat) (g : UInt32) :
    .globalSet g ∉ Wasm.Instr.plainsOf (startFunction initialisers).body := by
  rw [Wasm.Instr.mem_plainsOf]
  rintro ⟨i, hi, hg⟩
  obtain ⟨f, -, rfl⟩ := List.mem_map.mp hi
  simp [Wasm.Instr.plains] at hg

/-- What a method stores to is a global of the field, which is mutable unless the field keeps a
constant. -/
theorem Declares.stores {start : Option Nat}
    (h : Declares options classes (staticFields classes) (staticMethods classes) start l)
    (hdefines : Defines (staticFields classes) l)
    (hscanned : Scanned classes (scannedOperations options classes) l) {m : LinkedMethod}
    (hm : m ∈ l.methods) {ref : MemberRef} (hstores : m.Stores ref) {i : Nat}
    (hi : l.global? ref = some i) :
    ∃ g, l.module.globalSpace[i]? = some g ∧ (g.mutable = true ↔ ¬ l.ConstantAt ref i) := by
  refine hdefines.stores_space hscanned hi fun himported => ?_
  have hkey := imported?_isSome.mp (Option.isSome_of_eq_some himported)
  rw [hscanned.keys, mem_missing] at hkey
  obtain ⟨⟨op, hop, -⟩, -⟩ := hkey
  unfold scannedOperations at hop ⊢
  split at hop
  · next hpolicy =>
    rw [if_pos hpolicy, ← h.operations_eq]
    exact List.mem_flatMap.mpr ⟨m, hm, hstores.mem_operations⟩
  · exact (List.not_mem_nil hop).elim

/-- The function of a method. Its stores go to globals of the fields that the method stores to, each
of which is mutable in the module of `l'` unless the field keeps a constant. -/
structure Linker.Storing (l l' : Linker) (m : LinkedMethod) (f : Lowering.Function) : Prop where
  lowered : ∃ instrs tree types types', structured m = .ok (instrs, tree) ∧
    lower l.resolver l.options.maxSpan m.method instrs tree types = (.ok f, types')
  resolved : ∀ ref, m.Stores ref → (l.global? ref).isSome = true
  targets : ∀ g, .globalSet g ∈ Wasm.Instr.plainsOf f.body → ∃ ref i type, m.Stores ref ∧
    l.global? ref = some i ∧ g = UInt32.ofNat i ∧ l'.module.globalSpace[i]? = some type ∧
    (type.mutable = true ↔ ¬ l.ConstantAt ref i)

theorem Lowers.storing {start : Option Nat}
    (h : Declares options classes (staticFields classes) (staticMethods classes) start l)
    (hdefines : Defines (staticFields classes) l)
    (hscanned : Scanned classes (scannedOperations options classes) l)
    (hglobals : l'.module.globalSpace = l.module.globalSpace) {m : LinkedMethod}
    (hm : m ∈ l.methods) {body : Wasm.FuncBody} (hbody : Lowers l l' m body) :
    ∃ f, body = f.encode ∧ l.Storing l' m f := by
  obtain ⟨instrs, tree, f, types, types', hstructured, hlower, rfl, -⟩ := hbody
  obtain ⟨hresolved, htargets⟩ := lowered_stores hstructured hlower
  refine ⟨f, rfl, ⟨instrs, tree, types, types', hstructured, hlower⟩, fun ref href => ?_,
    fun g hg => ?_⟩
  · have hsome := hresolved ref href
    rwa [Linker.resolver, Option.isSome_map] at hsome
  · obtain ⟨ref, hstores, hglobal⟩ := htargets g hg
    obtain ⟨i, hi, rfl⟩ := Option.map_eq_some_iff.mp hglobal
    obtain ⟨type, hspace, hmutable⟩ := h.stores hdefines hscanned hm hstores hi
    exact ⟨ref, i, type, hstores, hi, rfl, hglobals ▸ hspace, hmutable⟩

/-- What an item of one list has, as a list of its own. -/
theorem exists_forall₂ {α β γ : Type} {R : α → γ → Prop} {S : α → β → Prop} {make : β → γ}
    {as : List α} {cs : List γ} (h : List.Forall₂ R as cs)
    (hmake : ∀ a ∈ as, ∀ c, R a c → ∃ b, c = make b ∧ S a b) :
    ∃ bs, cs = bs.map make ∧ List.Forall₂ S as bs := by
  induction h with
  | nil => exact ⟨[], rfl, .nil⟩
  | @cons a c as cs hac _ ih =>
    obtain ⟨b, rfl, hb⟩ := hmake a List.mem_cons_self c hac
    obtain ⟨bs, rfl, hbs⟩ := ih fun a ha => hmake a (List.mem_cons_of_mem _ ha)
    exact ⟨b :: bs, rfl, .cons hb hbs⟩

/-- Where linking succeeds, every store in a function is one of its method that control reaches, and
goes to a global of the field. The global is mutable unless the field keeps a constant. -/
theorem Linker.stores_mutable {files : List ClassFile} {added : Linker}
    (hadd : Linker.addAll { options } files = .ok added) (hdeclare : added.declare = (.ok (), l))
    (hemit : l.emit.1 = .ok ()) :
    link options files = .ok (l.emit.2.module, l.linkMap.getD {}) ∧
    ∃ functions, l.emit.2.module.bodies.toList = functions.map Lowering.Function.encode ++
        (l.start.map fun _ => (startFunction l.initialisers).encode).toList ∧
      List.Forall₂ (l.Storing l.emit.2) l.methods functions ∧
      ∀ g, .globalSet g ∉ Wasm.Instr.plainsOf (startFunction l.initialisers).body := by
  obtain ⟨start, -, hdeclares, ⟨stages⟩⟩ := Linker.declare_stages hadd hdeclare
  have hscanned := (stages.scanned scanned_start).1
  have hdefines := stages.defines declares_start
  have hpair : l.emit = (.ok (), l.emit.2) := Prod.ext hemit rfl
  obtain ⟨hglobals, hlinkMap⟩ : l.emit.2.module.globalSpace = l.module.globalSpace ∧
      l.emit.2.linkMap = l.linkMap := by
    obtain ⟨_, types, bodies, -, heq⟩ := l.emit_later
    rw [heq]
    exact ⟨rfl, rfl⟩
  obtain ⟨bodies, hbodies, hlowers⟩ := emitPass_run (Linker.emit_eq_ok hpair)
  obtain ⟨functions, rfl, hfunctions⟩ := exists_forall₂ hlowers fun m hm body hbody =>
    hbody.storing hdeclares hdefines hscanned hglobals hm
  refine ⟨?_, functions, ?_, hfunctions, startFunction_stores _⟩
  · rw [← hlinkMap]
    unfold link
    rw [hadd]
    dsimp only [bind, Except.bind]
    rw [hdeclare]
    dsimp only
    rw [hpair]
  · rw [hbodies]
    dsimp only
    rw [hdeclares.bodies_eq]
    rfl

theorem stores_mutable_calling :
    Linker.addAll { options := { unresolved := .imported } } [callingFile] = .ok callingLinker ∧
      callingLinker.declare = (.ok (), callingDeclared) ∧ callingDeclared.emit.1 = .ok () ∧
      ∃ functions, callingDeclared.emit.2.module.bodies.toList =
          functions.map Lowering.Function.encode ++ [(startFunction [2]).encode] ∧
        List.Forall₂ (callingDeclared.Storing callingDeclared.emit.2) [callingLinked, settingLinked]
          functions := by
  have hadd : Linker.addAll { options := { unresolved := .imported } } [callingFile] =
      .ok callingLinker := rfl
  obtain ⟨-, functions, hbodies, hfunctions, -⟩ :=
    Linker.stores_mutable hadd declare_calling emit_calling
  have hinitialisers : callingDeclared.initialisers = [2] := by decide +kernel
  have hstart : callingDeclared.start = some 3 := by decide +kernel
  rw [hinitialisers, hstart] at hbodies
  rw [methods_calling] at hfunctions
  exact ⟨hadd, declare_calling, emit_calling, functions, hbodies, hfunctions⟩

/-! ## A class that stores to its constant -/

def constantPool : Pool :=
  ⟨#[none, some (.utf8 "A"), some (.classRef 1), some (.utf8 "x"), some (.utf8 "I"),
    some (.nameAndType 3 4), some (.fieldRef 2 5)]⟩

/-- Sets `A.x` to 1. -/
def overwritingMethod : Method :=
  ⟨⟨0x0009⟩, "f", "()V", [.code ⟨1, 0, [0x04, 0xb3, 0, 6, 0xb1], [], []⟩]⟩

def constantFile : ClassFile :=
  ⟨0, 52, constantPool, ⟨0x0021⟩, 2, 0, [],
    [⟨⟨0x0018⟩, "x", "I", [.constantValue (.integer 1)]⟩], [overwritingMethod], []⟩

def constantLinker : Linker := { options := {}, classes := [⟨constantFile, "A", .empty⟩] }

def overwritingInstrs : Array Instruction :=
  #[⟨0, 1, 0x04, false, .const (.int 1)⟩, ⟨1, 3, 0xb3, false, .putStatic ⟨"A", "x", "I"⟩⟩,
    ⟨4, 1, 0xb1, false, .ret .void⟩]

def overwritingLinked : LinkedMethod := ⟨"A", constantPool, overwritingMethod, 0⟩

theorem structured_overwriting :
    structured overwritingLinked = .ok (overwritingInstrs, [.op 0, .op 1, .op 2]) :=
  structured_eq_ok (ok_of_toOption (by decide +kernel)) <|
    structureOf_of_repaired #[] [] (by decide +kernel) (by simp) rfl

def constantDeclared : Linker := constantLinker.declare.2

theorem declare_constant : constantLinker.declare = (.ok (), constantDeclared) :=
  Linker.declare_of_isSome (by decide +kernel)

theorem methods_constant : constantDeclared.methods = [overwritingLinked] := by
  have hcount : constantDeclared.module.importCount .func = 0 := by decide +kernel
  obtain ⟨start, h⟩ := declarePass_run declares_start (run_eq_ok declare_constant)
  rw [h.methods_eq, hcount]
  rfl

theorem lower_overwriting : ∃ f, lower constantDeclared.resolver constantDeclared.options.maxSpan
    overwritingMethod overwritingInstrs [.op 0, .op 1, .op 2] constantDeclared.module.types =
      (.ok f, constantDeclared.module.types) ∧ .globalSet 0 ∈ Wasm.Instr.plainsOf f.body := by
  have hstores : ((lower constantDeclared.resolver constantDeclared.options.maxSpan
      overwritingMethod overwritingInstrs [.op 0, .op 1, .op 2]
      constantDeclared.module.types).1.toOption.map
        fun f => decide (.globalSet 0 ∈ Wasm.Instr.plainsOf f.body)) = some true := by
    decide +kernel
  have htypes : (lower constantDeclared.resolver constantDeclared.options.maxSpan overwritingMethod
      overwritingInstrs [.op 0, .op 1, .op 2] constantDeclared.module.types).2 =
        constantDeclared.module.types := by decide +kernel
  obtain ⟨f, hf, hmem⟩ := Option.map_eq_some_iff.mp hstores
  exact ⟨f, Prod.ext (ok_of_toOption hf) htypes, of_decide_eq_true hmem⟩

theorem Linker.emit_of_forM (hnow : ¬ (!l.declared || l.emitted) = true) (hstart : l.start = none)
    (hmethods : l.methods.forM emitMethod { l with emitted := true } = .ok () l') :
    l.emit = (.ok (), l') := by
  have hpass : emitPass { l with emitted := true } = .ok () l' := by
    refine run_bind_eq_ok.mpr ⟨_, _, rfl, run_bind_eq_ok.mpr ⟨(), l', hmethods, ?_⟩⟩
    rw [hstart]
    rfl
  unfold Linker.emit
  rw [if_neg hnow, run, hpass]

/-- The store of a method to the constant of its class links, and its global never changes. -/
theorem constant_stored :
    Linker.addAll { options := {} } [constantFile] = .ok constantLinker ∧
      constantLinker.declare = (.ok (), constantDeclared) ∧ constantDeclared.emit.1 = .ok () ∧
      (∃ f : Lowering.Function, constantDeclared.emit.2.module.bodies.toList = [f.encode] ∧
        .globalSet 0 ∈ Wasm.Instr.plainsOf f.body) ∧
      constantDeclared.emit.2.module.globalSpace[0]? = some ⟨.i32, false⟩ := by
  obtain ⟨f, hf, hmem⟩ := lower_overwriting
  have hmethods : constantDeclared.methods.forM emitMethod
      { constantDeclared with emitted := true } = .ok () { constantDeclared with
        emitted := true
        module := { constantDeclared.module with
          bodies := constantDeclared.module.bodies.push f.encode } } := by
    rw [methods_constant]
    exact run_bind_eq_ok.mpr ⟨(), _, emitMethod_of_lower structured_overwriting hf, rfl⟩
  have hemit := Linker.emit_of_forM (by decide +kernel) (by decide +kernel) hmethods
  have hbodies : constantDeclared.module.bodies = #[] := by decide +kernel
  have hspace : constantDeclared.module.globalSpace[0]? = some ⟨.i32, false⟩ := by decide +kernel
  rw [hemit]
  refine ⟨rfl, declare_constant, rfl, ⟨f, ?_, hmem⟩, hspace⟩
  dsimp only
  rw [hbodies]
  rfl

end

end Link

end ClassWasm
