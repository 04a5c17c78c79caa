/-
  Exports. Each request for an export gets a name that is not in use: the name itself, or where that
  is taken the name with the descriptor, or that with the first number that is free. So many numbers
  cannot all be taken (`unusedName_spec`), and names never meet, whatever classes and members are
  called (`exports_complete`).
-/
import ClassWasm.Proofs.Link.Globals

namespace ClassWasm

theorem Text.ofString_injective : Function.Injective Text.ofString := by
  intro s t h
  have hbytes : s.toByteArray = t.toByteArray :=
    ByteArray.ext (Array.toList_inj.mp (Text.mk.inj h))
  exact String.toByteArray_inj.mp hbytes

theorem Text.append_right_injective (t : Text) : Function.Injective (t ++ ·) := by
  rintro ⟨a⟩ ⟨b⟩ h
  exact congrArg Text.mk (List.append_cancel_left (congrArg Text.bytes h))

namespace Link

open Wasm (ExternKind)

/-! ## Names that are not in use -/

theorem candidate_injective (base : Text) : Function.Injective (candidate base) := by
  have hlonger (n : Nat) : base ≠ base ++ (s!"#{n + 1}" : Text) := by
    intro h
    have hlength := congrArg (fun t => t.bytes.length) h
    simp [Text.ofString] at hlength
  intro m n h
  unfold candidate at h
  split at h <;> split at h
  · omega
  · exact (hlonger n h).elim
  · exact (hlonger m h.symm).elim
  · have hnumber := Text.ofString_injective (Text.append_right_injective base h)
    have hrepr : Nat.repr (m + 1) = Nat.repr (n + 1) := by simpa [toString] using hnumber
    have := Nat.repr_inj.mp hrepr
    omega

/-- A list is too short to hold one candidate more than it has items. -/
theorem exists_candidate (used : List Text) (base : Text) :
    ∃ n ≤ used.length, candidate base n ∉ used := by
  by_contra hall
  push Not at hall
  have hnodup : ((List.range (used.length + 1)).map (candidate base)).Nodup :=
    List.nodup_range.map (candidate_injective base)
  have hsubset : (List.range (used.length + 1)).map (candidate base) ⊆ used := by
    intro t ht
    obtain ⟨n, hn, rfl⟩ := List.mem_map.mp ht
    exact hall n (Nat.lt_succ_iff.mp (List.mem_range.mp hn))
  have hlength := (hnodup.subperm hsubset).length_le
  rw [List.length_map, List.length_range] at hlength
  omega

/-- What a name becomes where others are in use: the first candidate that is free, of the name or,
where that is taken, of the name with the descriptor. -/
structure Chosen (used : List Text) (name descriptor result : Text) : Prop where
  fresh : result ∉ used
  first : ∃ n ≤ used.length,
    result = candidate (if name ∈ used then name ++ descriptor else name) n ∧
      ∀ m < n, candidate (if name ∈ used then name ++ descriptor else name) m ∈ used

theorem unusedName_spec (used : List Text) (name descriptor : Text) :
    Chosen used name descriptor (unusedName used name descriptor) := by
  unfold unusedName
  dsimp only
  generalize hbase : (if name ∈ used then name ++ descriptor else name) = base
  obtain ⟨n, hn, hfree⟩ := exists_candidate used base
  split
  · next k hk =>
    obtain ⟨hfresh, hk, hfirst⟩ := List.find?_range_eq_some.mp hk
    refine ⟨of_decide_eq_true hfresh, k, ?_, by rw [hbase], fun m hm => ?_⟩
    · exact Nat.lt_succ_iff.mp (List.mem_range.mp hk)
    · rw [hbase]
      simpa using hfirst m hm
  · next hnone =>
    have htaken := List.find?_range_eq_none.mp hnone n (Nat.lt_succ_iff.mpr hn)
    exact absurd hfree (by simpa using htaken)

/-! ## Requests -/

/-- A member that is to be exported, with its index and the name that it asks for. -/
structure ExportRequest where
  kind : ExternKind
  ref : MemberRef
  index : Nat
  name : Text

/-- The member that a request is about. -/
def ExportRequest.key (r : ExportRequest) : ExternKind × MemberRef := (r.kind, r.ref)

/-- The methods that the policy selects, in order. -/
def Linker.selected (l : Linker) : List LinkedMethod :=
  l.methods.filter fun m => l.options.exports.selects m.method

def LinkedMethod.qualifiedName (m : LinkedMethod) : Text := qualified m.owner m.method.name

/-- What a method asks for. Where several have the same name, each adds its descriptor. -/
def Linker.methodRequest (l : Linker) (m : LinkedMethod) : ExportRequest :=
  ⟨.func, m.ref, m.index,
    if (l.selected.map LinkedMethod.qualifiedName).count m.qualifiedName > 1 then
      m.qualifiedName ++ m.method.descriptor
    else m.qualifiedName⟩

def Linker.methodRequests (l : Linker) : List ExportRequest := l.selected.map l.methodRequest

def Linker.fieldRequest (l : Linker) (of : Text × Field) : ExportRequest :=
  ⟨.global, fieldRef of, (l.globalIndices.lookup (fieldRef of)).getD 0, qualified of.1 of.2.name⟩

def Linker.fieldRequests (l : Linker) : List ExportRequest :=
  if l.options.exportGlobals then (staticFields l.classes).map l.fieldRequest else []

/-- All that is to be exported: methods and, where that is asked for, static fields. -/
def Linker.requests (l : Linker) : List ExportRequest := l.methodRequests ++ l.fieldRequests

/-- The export that answers a request. -/
structure Grants (r : ExportRequest) (e : Wasm.Export) : Prop where
  kind : e.kind = r.kind
  index : e.index = UInt32.ofNat r.index
  name : ∃ used, Chosen used r.name r.ref.descriptor e.name

/-- Each request has an export of its own, in order, and no two names are the same. -/
structure Exported (requests : List ExportRequest) (l : Linker) : Prop where
  granted : List.Forall₂ Grants requests l.module.exports.toList
  distinct : (l.module.exports.toList.map Wasm.Export.name).Nodup
  names : l.exportNames = (List.zipWith (fun r e => (r.key, Wasm.Export.name e)) requests
    l.module.exports.toList).reverse

section

variable {requests : List ExportRequest} {l l' : Linker}

theorem addExport_exported (h : Exported requests l) (r : ExportRequest)
    (hrun : addExport r.kind r.ref r.index r.name l = .ok () l') :
    Exported (requests ++ [r]) l' := by
  cases hrun
  have hchosen := unusedName_spec (l.module.exports.toList.map Wasm.Export.name) r.name
    r.ref.descriptor
  refine ⟨?_, ?_, ?_⟩
  · dsimp only
    rw [Array.toList_push]
    exact List.rel_append h.granted (.cons ⟨rfl, rfl, _, hchosen⟩ .nil)
  · dsimp only
    rw [Array.toList_push, List.map_append]
    refine List.nodup_append.mpr ⟨h.distinct, List.nodup_singleton _, ?_⟩
    rintro name hname _ hlast rfl
    rw [List.map_singleton, List.mem_singleton] at hlast
    rw [hlast] at hname
    exact hchosen.fresh hname
  · dsimp only
    rw [Array.toList_push, List.zipWith_append h.granted.length_eq, List.reverse_append, h.names]
    rfl

theorem exportMethods_exported (h : Exported [] l) (hrun : exportMethods l = .ok () l') :
    Exported l.methodRequests l' := by
  obtain ⟨_, _, hget, hrun⟩ := run_bind_eq_ok.mp hrun
  cases hget
  have hnone : Exported (([] : List LinkedMethod).map l.methodRequest) l := h
  refine forM_run (P := fun done => Exported (done.map l.methodRequest)) ?_ hnone hrun
  intro done m l₁ l₂ h₁ hrun
  rw [List.map_append]
  exact addExport_exported h₁ (l.methodRequest m) hrun

theorem exportGlobals_exported (h : Exported requests l) (hrun : exportGlobals l = .ok () l') :
    Exported (requests ++ l.fieldRequests) l' := by
  obtain ⟨_, _, hget, hrun⟩ := run_bind_eq_ok.mp hrun
  cases hget
  unfold Linker.fieldRequests
  split at hrun
  · next hexports =>
    rw [if_pos hexports]
    have hnone : Exported (requests ++ ([] : List (Text × Field)).map l.fieldRequest) l := by
      rwa [List.map_nil, List.append_nil]
    refine forM_run (P := fun done => Exported (requests ++ done.map l.fieldRequest)) ?_ hnone hrun
    intro done of l₁ l₂ h₁ hrun
    rw [List.map_append, ← List.append_assoc]
    exact addExport_exported h₁ (l.fieldRequest of) hrun
  · next hexports =>
    cases hrun
    rwa [if_neg hexports, List.append_nil]

/-- What requests depend on. -/
def Linker.requesting (l : Linker) :
    Options × Hierarchy × List LinkedMethod × List (MemberRef × Nat) :=
  (l.options, l.classes, l.methods, l.globalIndices)

theorem Linker.methodRequests_congr (h : l'.requesting = l.requesting) :
    l'.methodRequests = l.methodRequests := by
  simp only [Linker.requesting, Prod.mk.injEq] at h
  obtain ⟨hoptions, -, hmethods, -⟩ := h
  have hselected : l'.selected = l.selected := by
    unfold Linker.selected
    rw [hoptions, hmethods]
  have hmethod : l'.methodRequest = l.methodRequest := by
    funext m
    unfold Linker.methodRequest
    rw [hselected]
  rw [Linker.methodRequests, Linker.methodRequests, hselected, hmethod]

theorem Linker.fieldRequests_congr (h : l'.requesting = l.requesting) :
    l'.fieldRequests = l.fieldRequests := by
  simp only [Linker.requesting, Prod.mk.injEq] at h
  obtain ⟨hoptions, hclasses, -, hindices⟩ := h
  have hfield : l'.fieldRequest = l.fieldRequest := by
    funext of
    unfold Linker.fieldRequest
    rw [hindices]
  rw [Linker.fieldRequests, Linker.fieldRequests, hoptions, hclasses, hfield]

/-- What has been exported. -/
def Linker.exported (l : Linker) : Array Wasm.Export × List ((ExternKind × MemberRef) × Text) :=
  (l.module.exports, l.exportNames)

theorem Exported.congr (h : Exported requests l) (heq : l'.exported = l.exported) :
    Exported requests l' := by
  simp only [Linker.exported, Prod.mk.injEq] at heq
  obtain ⟨hexports, hnames⟩ := heq
  exact ⟨by rw [hexports]; exact h.granted, by rw [hexports]; exact h.distinct,
    by rw [hexports, hnames]; exact h.names⟩

theorem Stages.exported (s : Stages l l') (h : Exported [] l) : Exported l'.requests l' := by
  have hfunctions : Exported [] s.functions :=
    h.congr (s.same_until_functions Linker.exported (fun _ _ _ _ => rfl) (fun _ _ _ => rfl)
      fun _ _ _ _ _ _ => rfl)
  have hmethods := exportMethods_exported hfunctions s.methodExports_run
  have hglobals := exportGlobals_exported hmethods s.exports_run
  have hsame := (exportMethods_same Linker.requesting fun _ _ _ => rfl).of_ok
    s.methodExports_run
  have hlast := s.same_of_functions Linker.requesting (fun _ _ _ => rfl)
    (fun _ _ _ _ _ => rfl) fun _ _ => rfl
  rw [Linker.requests, Linker.methodRequests_congr hlast,
    Linker.fieldRequests_congr (hlast.trans hsame.symm)]
  exact hglobals.congr
    (s.same_of_exports Linker.exported (fun _ _ _ _ _ => rfl) fun _ _ => rfl)

theorem exported_start {options : Options} {classes : Hierarchy} :
    Exported [] { options, classes, declared := true } :=
  ⟨.nil, List.nodup_nil, rfl⟩

/-- Every method that the policy selects is exported under its own index, in order and never an
initialiser, and where that is asked for every static field behind them. No two exports have the
same name, and a name that is taken is always replaced by one that is free. -/
theorem Linker.exports_complete {options : Options} {files : List ClassFile} {added : Linker}
    (hadd : Linker.addAll { options } files = .ok added) (hdeclare : added.declare = (.ok (), l)) :
    l.classes.map LoadedClass.file = files ∧
      l.methods.map (fun m => (m.owner, m.pool, m.method)) =
        (staticMethods l.classes).map (fun (c, m, _) => (c.name, c.file.pool, m)) ∧
      (∀ (k : Nat) m, l.methods[k]? = some m → m.index = k + l.module.importCount .func) ∧
      (l.module.exports.toList.map Wasm.Export.name).Nodup ∧
      l.module.exports.toList.map (fun e => (e.kind, e.index)) =
        (l.methods.filter fun m => options.exports.selects m.method).map
            (fun m => (ExternKind.func, UInt32.ofNat m.index)) ++
          (if options.exportGlobals then (staticFields l.classes).map fun of =>
            (ExternKind.global, UInt32.ofNat ((l.globalIndices.lookup (fieldRef of)).getD 0))
          else []) ∧
      (∀ m, options.exports.selects m = true → m.name ≠ initialiserName) ∧
      (∀ of ∈ staticFields l.classes, ∃ i, l.globalIndices.lookup (fieldRef of) = some i ∧
        i < l.module.importCount .global + l.module.globals.size) ∧
      ∀ used name descriptor, Chosen used name descriptor (unusedName used name descriptor) := by
  obtain ⟨start, hfiles, hdeclares, ⟨stages⟩⟩ := Linker.declare_stages hadd hdeclare
  have hexported := stages.exported exported_start
  have hdefines := stages.defines declares_start
  rw [hdeclares.classes_eq]
  refine ⟨hfiles, ?_, fun k m hk => ?_, hexported.distinct, ?_, fun m hm => ?_,
    fun of hof => hdefines.lookup hof, unusedName_spec⟩
  · rw [hdeclares.methods_eq]
    exact map_numbered _ _
  · exact getElem?_numbered (hdeclares.methods_eq ▸ hk)
  · have hmembers := map_eq_of_forall₂ (f := fun r => (r.kind, UInt32.ofNat r.index))
      (g := fun e => (e.kind, e.index)) (hexported.granted.imp fun r e h => Prod.ext h.kind h.index)
    rw [hmembers, Linker.requests, List.map_append, Linker.methodRequests, List.map_map,
      Linker.fieldRequests, hdeclares.options_eq, hdeclares.classes_eq, Linker.selected,
      hdeclares.options_eq]
    split
    · rw [List.map_map]
      rfl
    · rfl
  · exact (of_decide_eq_true (Bool.and_eq_true_iff.mp hm).1)

/-! ## A class whose names meet -/

def namedMethod (name : Text) : Method := ⟨⟨0x0009⟩, name, "()V", [.code ⟨0, 0, [0xb1], [], []⟩]⟩

/-- The field `f` would get the name of the method `f` and, with its descriptor, that of `fI`. -/
def meetingFile : ClassFile :=
  ⟨0, 52, ⟨#[none, some (.utf8 "C"), some (.classRef 1)]⟩, ⟨0x0021⟩, 2, 0, [],
    [⟨⟨0x0008⟩, "f", "I", []⟩], [namedMethod "f", namedMethod "fI"], []⟩

def meetingLinker : Linker :=
  { options := { exportGlobals := true }, classes := [⟨meetingFile, "C", .empty⟩] }

theorem exports_complete_meeting :
    Linker.addAll { options := { exportGlobals := true } } [meetingFile] = .ok meetingLinker ∧
      meetingLinker.declare = (.ok (), meetingLinker.declare.2) ∧
      (meetingLinker.declare.2.module.exports.toList.map Wasm.Export.name).Nodup ∧
      meetingLinker.declare.2.module.exports.toList.map Wasm.Export.name =
        ["C.f", "C.fI", "C.fI#2"] := by
  have hadd : Linker.addAll { options := { exportGlobals := true } } [meetingFile] =
      .ok meetingLinker := rfl
  have hsome : meetingLinker.declare.1.toOption.isSome = true := by decide +kernel
  obtain ⟨u, hu⟩ := Option.isSome_iff_exists.mp hsome
  have hdeclare : meetingLinker.declare = (.ok (), meetingLinker.declare.2) :=
    Prod.ext (ok_of_toOption hu) rfl
  obtain ⟨-, -, -, hdistinct, -⟩ := Linker.exports_complete hadd hdeclare
  exact ⟨hadd, hdeclare, hdistinct, by decide +kernel⟩

end

end Link

end ClassWasm
