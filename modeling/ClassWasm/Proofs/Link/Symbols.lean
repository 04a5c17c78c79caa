/-
  The link map. It comes from the tables in which the linker looks members up, not from the module,
  so what it says of fields and exports holds as far as members are told apart by class, name and
  descriptor. Classes never have the same name, but a class may have one static member twice; where
  none does, every symbol leads to its member (`linkMap_describes`).
-/
import ClassWasm.Proofs.Link.Exports

namespace ClassWasm

/-- No static field and no static method with code is there twice. -/
structure ClassFile.Distinct (file : ClassFile) : Prop where
  fields : ((file.fields.filter fun f => f.access.isStatic).map fun f =>
    (f.name, f.descriptor)).Nodup
  methods : ((file.methods.filter fun m => m.access.isStatic && m.code?.isSome).map fun m =>
    (m.name, m.descriptor)).Nodup

namespace Link

open Wasm (ExternKind)

/-! ## Members are told apart -/

theorem map_fst_zipWith {α β γ δ : Type} {R : α → β → Prop} {f : α → γ} {g : β → δ} {as : List α}
    {bs : List β} (h : List.Forall₂ R as bs) :
    (List.zipWith (fun a b => (f a, g b)) as bs).map Prod.fst = as.map f := by
  induction h with
  | nil => rfl
  | cons _ _ ih => rw [List.zipWith_cons_cons, List.map_cons, List.map_cons, ih]

section

variable {options : Options} {classes : Hierarchy} {l l' : Linker}

theorem nodup_fieldRefs (hnames : (classes.map LoadedClass.name).Nodup)
    (hdistinct : ∀ c ∈ classes, c.file.Distinct) : ((staticFields classes).map fieldRef).Nodup := by
  unfold staticFields
  rw [List.map_flatMap]
  refine nodup_flatMap_of_owner MemberRef.owner hnames (fun c hc => ?_) fun c hc ref href => ?_
  · have hfields := (hdistinct c hc).fields
    rw [List.map_map]
    refine List.Nodup.of_map (fun ref : MemberRef => (ref.name, ref.descriptor)) ?_
    rw [List.map_map]
    exact hfields
  · rw [List.map_map] at href
    obtain ⟨f, -, rfl⟩ := List.mem_map.mp href
    rfl

theorem nodup_methodRefs (hnames : (classes.map LoadedClass.name).Nodup)
    (hdistinct : ∀ c ∈ classes, c.file.Distinct) :
    ((staticMethods classes).map methodRef).Nodup := by
  unfold staticMethods
  rw [List.map_flatMap]
  refine nodup_flatMap_of_owner MemberRef.owner hnames (fun c hc => ?_) fun c hc ref href => ?_
  · have hmethods := (hdistinct c hc).methods
    rw [← List.filterMap_eq_filter, List.map_filterMap] at hmethods
    refine List.Nodup.of_map (fun ref : MemberRef => (ref.name, ref.descriptor)) ?_
    rw [List.map_map, List.map_filterMap]
    -- Both sides list the keys of static methods that have code.
    convert hmethods using 2 with m
    cases hstatic : m.access.isStatic with
    | false => simp [Option.guard, hstatic]
    | true => cases hcode : m.code? <;> simp [Option.guard, hstatic, hcode, methodRef]
  · obtain ⟨cm, hcm, rfl⟩ := List.mem_map.mp href
    exact congrArg LoadedClass.name (mem_methods_of.mp hcm).1

/-! ## Exports by member -/

variable {requests : List ExportRequest}

theorem Exported.mem_exportNames (h : Exported requests l)
    {entry : (ExternKind × MemberRef) × Text} : entry ∈ l.exportNames ↔
      ∃ (k : Nat) (r : ExportRequest) (e : Wasm.Export),
      requests[k]? = some r ∧ l.module.exports.toList[k]? = some e ∧ entry = (r.key, e.name) := by
  rw [h.names, List.mem_reverse, List.mem_iff_getElem?]
  simp only [List.getElem?_zipWith_eq_some]
  constructor
  · rintro ⟨k, r, e, hr, he, rfl⟩
    exact ⟨k, r, e, hr, he, rfl⟩
  · rintro ⟨k, r, e, hr, he, rfl⟩
    exact ⟨k, r, e, hr, he, rfl⟩

theorem Exported.grants (h : Exported requests l) {k : Nat} {r : ExportRequest} {e : Wasm.Export}
    (hr : requests[k]? = some r) (he : l.module.exports.toList[k]? = some e) : Grants r e := by
  obtain ⟨e', he', hgrants⟩ := getElem?_of_forall₂ h.granted hr
  obtain rfl := Option.some.inj (he.symm.trans he')
  exact hgrants

/-- A member under a name has an export of that name. -/
theorem Exported.of_name (h : Exported requests l) (kind : ExternKind) (ref : MemberRef)
    (hname : exportNameOf l kind ref ≠ ⟨[]⟩) :
    ∃ (k : Nat) (r : ExportRequest) (e : Wasm.Export), requests[k]? = some r ∧
      l.module.exports.toList[k]? = some e ∧ r.key = (kind, ref) ∧
        e.name = exportNameOf l kind ref := by
  unfold exportNameOf at hname ⊢
  cases hlookup : l.exportNames.lookup (kind, ref) with
  | none =>
    rw [hlookup] at hname
    exact (hname rfl).elim
  | some name =>
    obtain ⟨k, r, e, hr, he, heq⟩ := h.mem_exportNames.mp (mem_of_lookup hlookup)
    obtain ⟨hkey, rfl⟩ := Prod.mk.inj heq
    exact ⟨k, r, e, hr, he, hkey.symm, rfl⟩

/-- Where no member asks twice, it is found under the name that it got. -/
theorem Exported.name_of (h : Exported requests l) (hkeys : (requests.map ExportRequest.key).Nodup)
    {k : Nat} {r : ExportRequest} {e : Wasm.Export} (hr : requests[k]? = some r)
    (he : l.module.exports.toList[k]? = some e) : exportNameOf l r.kind r.ref = e.name := by
  have hentry := h.mem_exportNames.mpr ⟨k, r, e, hr, he, rfl⟩
  rw [h.names] at hentry
  change (l.exportNames.lookup r.key).getD _ = _
  rw [h.names,
    lookup_reverse_of_mem (map_fst_zipWith h.granted ▸ hkeys) (List.mem_reverse.mp hentry)]
  rfl

theorem mem_requests {r : ExportRequest} (h : r ∈ l.requests) :
    (∃ m ∈ l.methods, r = l.methodRequest m) ∨
      ∃ of ∈ staticFields l.classes, r = l.fieldRequest of := by
  rcases List.mem_append.mp h with h | h
  · obtain ⟨m, hm, rfl⟩ := List.mem_map.mp h
    exact .inl ⟨m, List.mem_of_mem_filter hm, rfl⟩
  · unfold Linker.fieldRequests at h
    split at h
    · obtain ⟨of, hof, rfl⟩ := List.mem_map.mp h
      exact .inr ⟨of, hof, rfl⟩
    · cases h

theorem nodup_requests (hmethods : (l.methods.map LinkedMethod.ref).Nodup)
    (hfields : ((staticFields l.classes).map fieldRef).Nodup) :
    (l.requests.map ExportRequest.key).Nodup := by
  unfold Linker.requests
  rw [List.map_append]
  refine List.nodup_append.mpr ⟨?_, ?_, ?_⟩
  · refine List.Nodup.of_map Prod.snd ?_
    rw [Linker.methodRequests, List.map_map, List.map_map]
    exact hmethods.sublist (List.filter_sublist.map _)
  · unfold Linker.fieldRequests
    split
    · refine List.Nodup.of_map Prod.snd ?_
      rw [List.map_map, List.map_map]
      exact hfields
    · exact List.nodup_nil
  · rintro key hmethod _ hfield rfl
    obtain ⟨r, hr, rfl⟩ := List.mem_map.mp hmethod
    obtain ⟨m, -, rfl⟩ := List.mem_map.mp hr
    unfold Linker.fieldRequests at hfield
    split at hfield
    · obtain ⟨r', hr', hkey⟩ := List.mem_map.mp hfield
      obtain ⟨of, -, rfl⟩ := List.mem_map.mp hr'
      cases hkey
    · cases hfield

/-! ## What the link map says -/

/-- The symbol of an import that comes behind others. -/
structure Symbol.OfImport (before : List Wasm.Import) (imp : Wasm.Import) (s : Symbol) : Prop where
  kind : s.kind = imp.type.kind.name
  index : s.index = UInt32.ofNat ((before.map fun i => i.type.kind).count imp.type.kind)
  mutable : s.mutable = (imp.type.global?.map Wasm.GlobalType.mutable).getD false
  module : imp.module = dotted s.owner
  name : imp.name = if imp.type.kind = .func then s.name ++ s.descriptor else s.name

/-- The symbol of a method is about the function of that index. -/
structure Symbol.OfMethod (index : Nat) (cm : LoadedClass × Method × Code) (s : Symbol) : Prop where
  kind : s.kind = ExternKind.func.name
  index : s.index = UInt32.ofNat index
  member : (⟨s.owner, s.name, s.descriptor⟩ : MemberRef) = methodRef cm

/-- The symbols are those of the imports, static methods and static fields, in order and none left
out. Methods have their functions behind the imported ones. -/
structure LinkMap.Describes (map : LinkMap) (l : Linker) : Prop where
  imports_length : map.imports.length = l.module.imports.size
  imports : ∀ (k : Nat) s imp, map.imports[k]? = some s → l.module.imports[k]? = some imp →
    s.OfImport (l.module.imports.toList.take k) imp
  functions_length : map.functions.length = (staticMethods l.classes).length
  functions : ∀ (k : Nat) s cm, map.functions[k]? = some s →
    (staticMethods l.classes)[k]? = some cm → s.OfMethod (l.module.importCount .func + k) cm
  globals_length : map.globals.length = l.module.globals.size
  globals : List.Forall₂ (fun of s => s.kind = ExternKind.global.name ∧
    (⟨s.owner, s.name, s.descriptor⟩ : MemberRef) = fieldRef of)
    (staticFields l.classes) map.globals
  start : map.start = l.module.start

/-- Symbols of fields lead to the globals of the module one by one. What a symbol is exported under
is the name of an export of its kind and index, and no exported function belongs to two symbols. -/
structure LinkMap.Locates (map : LinkMap) (l : Linker) : Prop where
  globals : ∀ (k : Nat) s g, map.globals[k]? = some s → l.module.globals[k]? = some g →
    s.index = UInt32.ofNat (l.module.importCount .global + k) ∧ s.mutable = g.type.mutable
  exports : ∀ s, s ∈ map.globals ∨ s ∈ map.functions ∨ s ∈ map.imports → s.exportName ≠ ⟨[]⟩ →
    ∃ e ∈ l.module.exports.toList, e.name = s.exportName ∧ e.kind.name = s.kind ∧ e.index = s.index
  exported : ∀ e ∈ l.module.exports.toList, e.kind = .func →
    (∃! k : Nat, (map.functions[k]?).map Symbol.exportName = some e.name) ∧
      ∀ s, s ∈ map.globals ∨ s ∈ map.imports → s.exportName ≠ e.name

theorem Stages.linkMap_eq (s : Stages l l') : l'.linkMap = some (buildLinkMap l') := by
  rw [s.done]
  rfl

/-- The start function as the linker and its module have it. -/
def Linker.starting (l : Linker) : Option Nat × Option UInt32 := (l.start, l.module.start)

theorem declareStart_starting (h : l.starting = (none, none)) (hrun : declareStart l = .ok () l') :
    l'.module.start = l'.start.map UInt32.ofNat := by
  obtain ⟨hstart, hmark⟩ := Prod.mk.inj h
  obtain ⟨_, _, hget, hrun⟩ := run_bind_eq_ok.mp hrun
  cases hget
  split at hrun
  · cases hrun
    rfl
  · cases hrun
    rw [hstart, hmark]
    rfl

theorem Stages.starting_of_exports (s : Stages l l') : s.exports.starting = l.starting := by
  have hfunctions := s.same_until_functions Linker.starting (fun _ _ _ _ => rfl)
    (fun _ _ _ => rfl) fun _ _ _ _ _ _ => rfl
  have hmethods := (exportMethods_same Linker.starting fun _ _ _ => rfl).of_ok s.methodExports_run
  have hglobals := (exportGlobals_same Linker.starting fun _ _ _ => rfl).of_ok s.exports_run
  exact hglobals.trans (hmethods.trans hfunctions)

theorem Stages.start_eq (s : Stages l l') (h : l.starting = (none, none)) :
    l'.module.start = l'.start.map UInt32.ofNat := by
  have hstarted := declareStart_starting (s.starting_of_exports.trans h) s.started_run
  rw [s.done]
  exact hstarted

theorem importSymbol_ofImport {ops : List Operation} (h : Scanned classes ops l) {k : Nat}
    {s : Symbol} {imp : Wasm.Import} (hs : (buildLinkMap l).imports[k]? = some s)
    (himp : l.module.imports[k]? = some imp) : s.OfImport (l.module.imports.toList.take k) imp := by
  rw [← Array.getElem?_toList] at himp
  obtain ⟨⟨i, imp₁⟩, hzip, rfl⟩ := Option.map_eq_some_iff.mp (List.getElem?_map ▸ hs)
  obtain ⟨hi, himp₁⟩ := List.getElem?_zip_eq_some.mp hzip
  obtain ⟨imp₂, himp₂, hstands⟩ := getElem?_of_forall₂ h.stands hi
  obtain rfl : imp = imp₁ := Option.some.inj (himp.symm.trans himp₁)
  obtain rfl : imp = imp₂ := Option.some.inj (himp.symm.trans himp₂)
  have hindex := h.indices k i hi
  refine ⟨congrArg ExternKind.name hstands.kind.symm, ?_, ?_, hstands.module, ?_⟩
  · rw [hstands.kind, List.map_take, ← h.kinds_eq, ← List.map_take, ← hindex]
    rfl
  · unfold importSymbol
    cases imp.type <;> rfl
  · rw [hstands.kind]
    exact hstands.name

theorem functionSymbol_ofMethod {fields : List (Text × Field)}
    {methods : List (LoadedClass × Method × Code)} {start : Option Nat}
    (h : Declares options classes fields methods start l) {k : Nat} {s : Symbol}
    {cm : LoadedClass × Method × Code} (hs : (buildLinkMap l).functions[k]? = some s)
    (hcm : methods[k]? = some cm) : s.OfMethod (l.module.importCount .func + k) cm := by
  obtain ⟨m, hm, rfl⟩ := Option.map_eq_some_iff.mp (List.getElem?_map ▸ hs)
  rw [h.methods_eq, numbered, List.getElem?_mapIdx, hcm] at hm
  obtain rfl := Option.some.inj hm
  exact ⟨rfl, rfl, rfl⟩

/-- What always holds of the link map. -/
theorem buildLinkMap_describes {start : Option Nat} {ops : List Operation}
    (h : Declares options classes (staticFields classes) (staticMethods classes) start l)
    (hscanned : Scanned classes ops l) (hstart : l.module.start = l.start.map UInt32.ofNat) :
    (buildLinkMap l).Describes l where
  imports_length := by
    simp [buildLinkMap, hscanned.stands.length_eq]
  imports k s imp hs himp := importSymbol_ofImport hscanned hs himp
  functions_length := by
    simp [buildLinkMap, h.methods_eq, h.classes_eq, numbered]
  functions k s cm hs hcm := functionSymbol_ofMethod h hs (h.classes_eq ▸ hcm)
  globals := List.forall₂_map_right_iff.mpr (List.forall₂_same.mpr fun of _ => ⟨rfl, rfl⟩)
  globals_length := by
    simp [buildLinkMap, h.globals_size, h.classes_eq]
  start := hstart.symm

theorem map_fst_numberedFields (base : Nat) (fields : List (Text × Field)) :
    (numberedFields base fields).map Prod.fst = fields.map fieldRef := by
  refine List.ext_getElem? fun k => ?_
  unfold numberedFields
  rw [List.getElem?_map, List.getElem?_map, List.getElem?_mapIdx, Option.map_map]
  rfl

theorem globalSymbol_located (hdefines : Defines (staticFields l.classes) l)
    (hfields : ((staticFields l.classes).map fieldRef).Nodup) {k : Nat} {s : Symbol}
    {g : Wasm.Global} (hs : (buildLinkMap l).globals[k]? = some s)
    (hg : l.module.globals[k]? = some g) :
    s.index = UInt32.ofNat (l.module.importCount .global + k) ∧ s.mutable = g.type.mutable := by
  obtain ⟨of, hof, rfl⟩ := Option.map_eq_some_iff.mp (List.getElem?_map ▸ hs)
  have hlookup : l.globalIndices.lookup (fieldRef of) =
      some (l.module.importCount .global + k) := by
    obtain ⟨hk, rfl⟩ := List.getElem?_eq_some_iff.mp hof
    rw [hdefines.indices]
    refine lookup_reverse_of_mem ?_ (List.mem_mapIdx.mpr ⟨k, hk, rfl⟩)
    rw [map_fst_numberedFields]
    exact hfields
  have hindex : (l.globalIndices.lookup ⟨of.1, of.2.name, of.2.descriptor⟩).getD 0 =
      l.module.importCount .global + k := by
    change (l.globalIndices.lookup (fieldRef of)).getD 0 = _
    rw [hlookup, Option.getD_some]
  unfold globalSymbol
  simp only [hindex, Nat.add_sub_cancel_left, hg, Option.map_some, Option.getD_some, and_self]

/-- A symbol that has an export has that of its member. -/
theorem symbol_exported (h : Exported l.requests l)
    (hmethods : (l.methods.map LinkedMethod.ref).Nodup) {s : Symbol}
    (hs : s ∈ (buildLinkMap l).globals ∨ s ∈ (buildLinkMap l).functions ∨
      s ∈ (buildLinkMap l).imports)
    (hname : s.exportName ≠ ⟨[]⟩) :
    ∃ e ∈ l.module.exports.toList, e.name = s.exportName ∧ e.kind.name = s.kind ∧
      e.index = s.index := by
  rcases hs with hs | hs | hs
  · obtain ⟨of, hof, rfl⟩ := List.mem_map.mp hs
    obtain ⟨k, r, e, hr, he, hkey, hexport⟩ := h.of_name .global (fieldRef of) hname
    have hgrants := h.grants hr he
    obtain ⟨hkind, href⟩ := Prod.mk.inj hkey
    refine ⟨e, List.mem_of_getElem? he, hexport, ?_, ?_⟩
    · rw [hgrants.kind, hkind]
      rfl
    · rw [hgrants.index]
      rcases mem_requests (List.mem_of_getElem? hr) with ⟨m, -, rfl⟩ | ⟨of', -, rfl⟩
      · cases hkind
      · change UInt32.ofNat ((l.globalIndices.lookup (fieldRef of')).getD 0) = _
        rw [show fieldRef of' = fieldRef of from href]
        rfl
  · obtain ⟨m, hm, rfl⟩ := List.mem_map.mp hs
    obtain ⟨k, r, e, hr, he, hkey, hexport⟩ := h.of_name .func m.ref hname
    have hgrants := h.grants hr he
    obtain ⟨hkind, href⟩ := Prod.mk.inj hkey
    refine ⟨e, List.mem_of_getElem? he, hexport, ?_, ?_⟩
    · rw [hgrants.kind, hkind]
      rfl
    · rw [hgrants.index]
      rcases mem_requests (List.mem_of_getElem? hr) with ⟨m', hm', rfl⟩ | ⟨of, -, rfl⟩
      · obtain rfl := List.inj_on_of_nodup_map hmethods hm' hm href
        rfl
      · cases hkind
  · obtain ⟨i, -, rfl⟩ := List.mem_map.mp hs
    exact (hname rfl).elim

theorem Text.append_ne_empty {a b : Text} (h : a ≠ ⟨[]⟩) : a ++ b ≠ ⟨[]⟩ := by
  intro heq
  have hbytes : a.bytes ++ b.bytes = [] := congrArg Text.bytes heq
  exact h (congrArg Text.mk (List.append_eq_nil_iff.mp hbytes).1)

theorem Chosen.ne_empty {used : List Text} {name descriptor result : Text}
    (h : Chosen used name descriptor result) (hname : name ≠ ⟨[]⟩) : result ≠ ⟨[]⟩ := by
  obtain ⟨n, -, rfl, -⟩ := h.first
  have hbase : (if name ∈ used then name ++ descriptor else name) ≠ ⟨[]⟩ := by
    split
    · exact Text.append_ne_empty hname
    · exact hname
  unfold candidate
  split
  · exact hbase
  · exact Text.append_ne_empty hbase

theorem methodRequest_ne_empty (l : Linker) (m : LinkedMethod) :
    (l.methodRequest m).name ≠ ⟨[]⟩ := by
  have hname : m.qualifiedName ≠ ⟨[]⟩ := by
    unfold LinkedMethod.qualifiedName qualified
    refine Text.append_ne_empty fun h => ?_
    have hlength := congrArg (fun t => t.bytes.length) h
    simp [Text.ofString] at hlength
  unfold Linker.methodRequest
  dsimp only
  split
  · exact Text.append_ne_empty hname
  · exact hname

/-- The method that an exported function is. -/
theorem Exported.method_of (h : Exported l.requests l) {k : Nat} {e : Wasm.Export}
    (he : l.module.exports.toList[k]? = some e) (hkind : e.kind = .func) :
    ∃ m ∈ l.methods, l.requests[k]? = some (l.methodRequest m) := by
  obtain ⟨hlt, -⟩ := List.getElem?_eq_some_iff.mp he
  have hk : k < l.requests.length := h.granted.length_eq ▸ hlt
  have hr : l.requests[k]? = some l.requests[k] := List.getElem?_eq_getElem hk
  rcases mem_requests (List.mem_of_getElem? hr) with ⟨m, hm, heq⟩ | ⟨of, -, heq⟩
  · exact ⟨m, hm, heq ▸ hr⟩
  · cases hkind.symm.trans ((h.grants hr he).kind.trans (congrArg ExportRequest.kind heq))

theorem Exported.name_ne_empty (h : Exported l.requests l) {e : Wasm.Export}
    (he : e ∈ l.module.exports.toList) (hkind : e.kind = .func) : e.name ≠ ⟨[]⟩ := by
  obtain ⟨k, hat⟩ := List.mem_iff_getElem?.mp he
  obtain ⟨m, -, hr⟩ := h.method_of hat hkind
  obtain ⟨used, hchosen⟩ := (h.grants hr hat).name
  exact hchosen.ne_empty (methodRequest_ne_empty l m)

/-- Every exported function is that of one method. -/
theorem function_exported (h : Exported l.requests l)
    (hmethods : (l.methods.map LinkedMethod.ref).Nodup)
    (hfields : ((staticFields l.classes).map fieldRef).Nodup) {e : Wasm.Export}
    (he : e ∈ l.module.exports.toList) (hkind : e.kind = .func) :
    ∃! k : Nat, ((buildLinkMap l).functions[k]?).map Symbol.exportName = some e.name := by
  have hsymbol (k : Nat) : ((buildLinkMap l).functions[k]?).map Symbol.exportName =
      (l.methods[k]?).map fun m => exportNameOf l .func m.ref := by
    unfold buildLinkMap
    rw [List.getElem?_map, Option.map_map]
    rfl
  simp only [hsymbol]
  obtain ⟨k, hat⟩ := List.mem_iff_getElem?.mp he
  obtain ⟨m, hm, hr⟩ := h.method_of hat hkind
  obtain ⟨j, hatj⟩ := List.mem_iff_getElem?.mp hm
  refine ⟨j, ?_, fun j' hj' => ?_⟩
  · dsimp only
    rw [hatj]
    exact congrArg some (h.name_of (nodup_requests hmethods hfields) hr hat)
  -- Two methods under one name have one export, hence one request, hence are one member.
  · obtain ⟨m', hm', hname⟩ := Option.map_eq_some_iff.mp hj'
    have hne := h.name_ne_empty he hkind
    obtain ⟨k', r', e', hr', he', hkey, hname'⟩ := h.of_name .func m'.ref (hname ▸ hne)
    have hnumber : k < (l.module.exports.toList.map Wasm.Export.name).length := by
      rw [List.length_map]
      exact (List.getElem?_eq_some_iff.mp hat).1
    have hsame : k = k' := by
      refine (List.getElem?_inj hnumber h.distinct).mp ?_
      rw [List.getElem?_map, List.getElem?_map, hat, he', Option.map_some, Option.map_some, hname',
        hname]
    subst hsame
    cases hr.symm.trans hr'
    have href : m.ref = m'.ref := congrArg Prod.snd hkey
    have hplace : j < (l.methods.map LinkedMethod.ref).length := by
      rw [List.length_map]
      exact (List.getElem?_eq_some_iff.mp hatj).1
    refine ((List.getElem?_inj hplace hmethods).mp ?_).symm
    rw [List.getElem?_map, List.getElem?_map, hatj, hm', Option.map_some, Option.map_some, href]

theorem field_not_exported (h : Exported l.requests l)
    (hmethods : (l.methods.map LinkedMethod.ref).Nodup) {e : Wasm.Export}
    (he : e ∈ l.module.exports.toList) (hkind : e.kind = .func) (hname : e.name ≠ ⟨[]⟩) {s : Symbol}
    (hs : s ∈ (buildLinkMap l).globals ∨ s ∈ (buildLinkMap l).imports) : s.exportName ≠ e.name := by
  intro heq
  rcases hs with hs | hs
  · obtain ⟨e', he', hname', hkind', -⟩ := symbol_exported h hmethods (.inl hs) (heq ▸ hname)
    obtain rfl := List.inj_on_of_nodup_map h.distinct he' he (hname'.trans heq)
    obtain ⟨of, -, rfl⟩ := List.mem_map.mp hs
    have hkinds : ExternKind.func.name = ExternKind.global.name := hkind ▸ hkind'
    exact absurd hkinds (by decide)
  · obtain ⟨i, -, rfl⟩ := List.mem_map.mp hs
    exact hname heq.symm

theorem buildLinkMap_locates (hexported : Exported l.requests l)
    (hdefines : Defines (staticFields l.classes) l)
    (hmethods : (l.methods.map LinkedMethod.ref).Nodup)
    (hfields : ((staticFields l.classes).map fieldRef).Nodup) : (buildLinkMap l).Locates l where
  globals _ _ _ hs hg := globalSymbol_located hdefines hfields hs hg
  exports _ hs hname := symbol_exported hexported hmethods hs hname
  exported _ he hkind := ⟨function_exported hexported hmethods hfields he hkind,
    fun _ hs => field_not_exported hexported hmethods he hkind
      (hexported.name_ne_empty he hkind) hs⟩

theorem map_ref_numbered (base : Nat) (methods : List (LoadedClass × Method × Code)) :
    (numbered base methods).map LinkedMethod.ref = methods.map methodRef := by
  have hmap := congrArg
    (List.map fun (owner, _, m) => (⟨owner, m.name, m.descriptor⟩ : MemberRef))
    (map_numbered base methods)
  rw [List.map_map, List.map_map] at hmap
  exact hmap

/-- The link map lists the imports, the static methods and the static fields as the module has them.
Where no class has a static member twice, it tells for each of them where it is and under which name
it is exported. -/
theorem Linker.linkMap_describes {options : Options} {files : List ClassFile} {added : Linker}
    (hadd : Linker.addAll { options } files = .ok added) (hdeclare : added.declare = (.ok (), l)) :
    ∃ map, l.linkMap = some map ∧ l.classes.map LoadedClass.file = files ∧ map.Describes l ∧
      ((∀ file ∈ files, file.Distinct) → map.Locates l) := by
  obtain ⟨start, hfiles, hdeclares, ⟨stages⟩⟩ := Linker.declare_stages hadd hdeclare
  have hstart := stages.start_eq rfl
  obtain ⟨hscanned, -⟩ := stages.scanned scanned_start
  refine ⟨buildLinkMap l, stages.linkMap_eq, hdeclares.classes_eq.symm ▸ hfiles,
    buildLinkMap_describes hdeclares hscanned hstart, fun hdistinct => ?_⟩
  obtain ⟨classes, hloads, rfl⟩ := Linker.addAll_eq_ok.mp hadd
  have hnames := hloads.names
  have hmembers : ∀ c ∈ classes, c.file.Distinct := fun c hc =>
    hdistinct c.file (hfiles ▸ List.mem_map_of_mem hc)
  refine buildLinkMap_locates (stages.exported exported_start) ?_ ?_ ?_
  · exact hdeclares.classes_eq.symm ▸ stages.defines declares_start
  · rw [hdeclares.methods_eq, map_ref_numbered]
    exact nodup_methodRefs hnames hmembers
  · rw [hdeclares.classes_eq]
    exact nodup_fieldRefs hnames hmembers

theorem linkMap_describes_calling :
    Linker.addAll { options := { unresolved := .imported } } [callingFile] = .ok callingLinker ∧
      callingLinker.declare = (.ok (), callingDeclared) ∧
      ∃ map, callingDeclared.linkMap = some map ∧ map.Describes callingDeclared ∧
        map.Locates callingDeclared := by
  have hadd : Linker.addAll { options := { unresolved := .imported } } [callingFile] =
      .ok callingLinker := rfl
  have hdistinct : ∀ file ∈ [callingFile], file.Distinct := by
    intro file hfile
    rw [List.mem_singleton.mp hfile]
    exact ⟨by decide, by decide⟩
  obtain ⟨map, hmap, -, hdescribes, hlocates⟩ := Linker.linkMap_describes hadd declare_calling
  exact ⟨hadd, declare_calling, map, hmap, hdescribes, hlocates hdistinct⟩

/-! ## A class that has a field twice -/

def repeatedFile : ClassFile :=
  ⟨0, 52, ⟨#[none, some (.utf8 "A"), some (.classRef 1)]⟩, ⟨0x0021⟩, 2, 0, [],
    [⟨⟨0x0008⟩, "x", "I", []⟩, ⟨⟨0x0008⟩, "x", "I", []⟩], [], []⟩

def repeatedLinker : Linker := { options := {}, classes := [⟨repeatedFile, "A", .empty⟩] }

/-- There are two globals, and both symbols are about the second. -/
theorem repeated_misplaced :
    Linker.addAll { options := {} } [repeatedFile] = .ok repeatedLinker ∧
      repeatedLinker.declare = (.ok (), repeatedLinker.declare.2) ∧
      repeatedLinker.declare.2.module.importCount .global = 0 ∧
      repeatedLinker.declare.2.module.globals.size = 2 ∧
      (repeatedLinker.declare.2.linkMap.map fun map => map.globals.map Symbol.index) =
        some [1, 1] := by
  have hsome : repeatedLinker.declare.1.toOption.isSome = true := by decide +kernel
  obtain ⟨u, hu⟩ := Option.isSome_iff_exists.mp hsome
  exact ⟨rfl, Prod.ext (ok_of_toOption hu) rfl, by decide +kernel, by decide +kernel,
    by decide +kernel⟩

end

end Link

end ClassWasm
