/-
  Imports. The first pass goes through the operations of all methods in order and imports each
  member that no class provides where it is first referred to; a later store only makes the imported
  global mutable. `Scanned` says what the linker imports after a list of operations, one operation
  keeps it (`importFor_run`), and so does the whole pass. The second pass refers to nothing else, so
  it misses no member (`imports_complete`).
-/
import ClassWasm.Proofs.Link.Resolution
import ClassWasm.Proofs.Link.Stages
import ClassWasm.Proofs.Lowering.Progress

namespace ClassWasm

open Wasm (ExternKind)

/-- The member that an operation refers to. -/
def Operation.member? : Operation → Option (ExternKind × MemberRef)
  | .getStatic ref | .putStatic ref => some (.global, ref)
  | .invokeStatic ref => some (.func, ref)
  | _ => none

/-- Whether a loaded class has the member that a reference means. -/
def Hierarchy.provides (h : Hierarchy) : ExternKind × MemberRef → Bool
  | (.global, ref) => (h.staticField? ref).isSome
  | (.func, ref) => (h.staticMethod? ref).isSome
  | _ => false

/-! ## Lists without repetition -/

theorem eraseDups_concat {α : Type} [BEq α] [LawfulBEq α] (as : List α) (a : α) :
    (as ++ [a]).eraseDups = if a ∈ as then as.eraseDups else as.eraseDups ++ [a] := by
  rw [List.eraseDups_append]
  split
  · next h => simp [List.removeAll, h]
  · next h => simp [List.removeAll, h, List.eraseDups_cons]

theorem nodup_eraseDups {α : Type} [BEq α] [LawfulBEq α] (as : List α) : as.eraseDups.Nodup := by
  induction as using List.reverseRecOn with
  | nil => exact List.nodup_nil
  | append_singleton as a ih =>
    rw [eraseDups_concat]
    split
    · exact ih
    · next h =>
      refine List.nodup_append.mpr ⟨ih, List.nodup_singleton a, fun b hb c hc => ?_⟩
      rintro rfl
      rw [List.mem_singleton] at hc
      exact h (hc ▸ List.mem_eraseDups.mp hb)

/-- Where the items of one list correspond to those of another, one of which is replaced. -/
theorem forall₂_modify {α β : Type} {R S : α → β → Prop} {f : β → β} {as : List α} {bs : List β}
    {k : Nat} (h : List.Forall₂ R as bs) (hat : ∀ a b, as[k]? = some a → R a b → S a (f b))
    (helse : ∀ j a b, j ≠ k → as[j]? = some a → R a b → S a b) :
    List.Forall₂ S as (bs.modify k f) := by
  induction h generalizing k with
  | nil =>
    rw [List.modify_nil]
    exact .nil
  | @cons a b as bs hab hrest ih =>
    cases k with
    | zero =>
      refine .cons (hat a b rfl hab) ?_
      refine List.forall₂_iff_get.mpr ⟨hrest.length_eq, fun j hj hj' => ?_⟩
      exact helse (j + 1) _ _ (Nat.succ_ne_zero j) (List.getElem?_eq_getElem hj) (hrest.get hj hj')
    | succ k =>
      refine .cons (helse 0 a b (Nat.succ_ne_zero k).symm rfl hab) (ih hat fun j a b hj => ?_)
      exact helse (j + 1) a b (by omega)

namespace Link

/-! ## Operations of methods -/

/-- The operations of code, none where it cannot be read. -/
def operationsOf (pool : Pool) (bytes : Bytes) : List Operation :=
  match decode pool bytes with
  | .ok instrs => instrs.toList.map Instruction.op
  | .error _ => []

/-- The operations of all methods that become functions, in order. -/
def operations (classes : Hierarchy) : List Operation :=
  (staticMethods classes).flatMap fun (c, _, code) => operationsOf c.file.pool code.bytes

/-- The members that operations refer to and no class provides, in order of the first reference. -/
def missing (classes : Hierarchy) (ops : List Operation) : List (ExternKind × MemberRef) :=
  ((ops.filterMap Operation.member?).filter fun m => !classes.provides m).eraseDups

def ImportedMember.key (i : ImportedMember) : ExternKind × MemberRef := (i.kind, i.ref)

/-- The import of a module for a member. A global is mutable where the field is stored to. -/
structure Stands (stored : MemberRef → Prop) (i : ImportedMember) (imp : Wasm.Import) : Prop where
  kind : imp.type.kind = i.kind
  module : imp.module = dotted i.ref.owner
  name : imp.name = if i.kind = .func then i.ref.name ++ i.ref.descriptor else i.ref.name
  mutable : ∀ g, imp.type = .global g → (g.mutable = true ↔ stored i.ref)

/-- What the linker imports for a list of operations. Each import is numbered within its kind. -/
structure Scanned (classes : Hierarchy) (ops : List Operation) (l : Linker) : Prop where
  classes_eq : l.classes = classes
  keys : l.imports.map ImportedMember.key = missing classes ops
  stands : List.Forall₂ (Stands fun ref => .putStatic ref ∈ ops) l.imports l.module.imports.toList
  indices : ∀ (k : Nat) i, l.imports[k]? = some i →
    i.index = ((l.imports.take k).map ImportedMember.kind).count i.kind

section

variable {classes : Hierarchy} {ops : List Operation} {op : Operation} {l l' : Linker}
  {kind : ExternKind} {ref : MemberRef}

theorem missing_concat (classes : Hierarchy) (ops : List Operation) (op : Operation) :
    missing classes (ops ++ [op]) = match op.member? with
      | none => missing classes ops
      | some m => if classes.provides m ∨ m ∈ missing classes ops then missing classes ops
        else missing classes ops ++ [m] := by
  unfold missing
  rw [List.filterMap_append, List.filter_append]
  cases hm : op.member? with
  | none => simp [hm]
  | some m =>
    cases hp : classes.provides m with
    | true => simp [hm, hp]
    | false => simp [hm, hp, eraseDups_concat]

theorem mem_missing {m : ExternKind × MemberRef} :
    m ∈ missing classes ops ↔ (∃ op ∈ ops, op.member? = some m) ∧ classes.provides m = false := by
  simp [missing]

theorem imported?_isSome :
    (l.imported? kind ref).isSome ↔ (kind, ref) ∈ l.imports.map ImportedMember.key := by
  simp [Linker.imported?, ImportedMember.key]

theorem Stands.congr {P Q : MemberRef → Prop} {i : ImportedMember} {imp : Wasm.Import}
    (h : Stands P i imp) (hPQ : i.kind = .global → (P i.ref ↔ Q i.ref)) : Stands Q i imp := by
  refine { h with mutable := fun g hg => (h.mutable g hg).trans (hPQ ?_) }
  rw [← h.kind, hg]
  rfl

namespace Scanned

theorem kinds_eq (h : Scanned classes ops l) :
    l.imports.map ImportedMember.kind = l.module.imports.toList.map fun i => i.type.kind := by
  exact (map_eq_of_forall₂ (h.stands.imp fun _ _ hs => hs.kind)).symm

theorem importCount (h : Scanned classes ops l) (kind : ExternKind) :
    l.module.importCount kind = (l.imports.map ImportedMember.kind).count kind := by
  rw [h.kinds_eq, List.count, List.countP_map, List.countP_eq_length_filter]
  unfold Wasm.Module.importCount
  congr 2

/-- An operation that refers to no member which is missing so far stores to no imported field. -/
theorem not_stored (h : Scanned classes ops l) (hm : ∀ m ∈ op.member?, m ∉ missing classes ops) :
    ∀ i ∈ l.imports, i.kind = .global → op ≠ .putStatic i.ref := by
  rintro i hi hkind rfl
  refine hm _ rfl ?_
  rw [← h.keys, ← hkind]
  exact List.mem_map_of_mem hi

/-- No import turns mutable where the operation stores to none of the fields. -/
theorem stands_concat (h : Scanned classes ops l)
    (hold : ∀ i ∈ l.imports, i.kind = .global → op ≠ .putStatic i.ref) :
    List.Forall₂ (Stands fun ref => .putStatic ref ∈ ops ++ [op]) l.imports
      l.module.imports.toList := by
  have hboth := (List.forall₂_and_left _ _).mpr ⟨hold, h.stands⟩
  refine hboth.imp fun i imp ⟨hi, hs⟩ => hs.congr fun hkind => ?_
  rw [List.mem_append, List.mem_singleton, or_iff_left (Ne.symm (hi hkind))]

/-- An operation changes nothing where it refers to no member or to one that is provided. -/
theorem keep (h : Scanned classes ops l)
    (hm : ∀ m ∈ op.member?, classes.provides m ∨ m ∈ missing classes ops)
    (hold : ∀ i ∈ l.imports, i.kind = .global → op ≠ .putStatic i.ref) :
    Scanned classes (ops ++ [op]) l where
  classes_eq := h.classes_eq
  keys := by
    rw [h.keys, missing_concat]
    split
    · rfl
    · next m hop => rw [if_pos (hm m hop)]
  stands := h.stands_concat hold
  indices := h.indices

/-- A member that is neither provided nor imported yet becomes the last import. -/
theorem add (h : Scanned classes ops l) (hm : op.member? = some (kind, ref))
    (hprovided : classes.provides (kind, ref) = false) (hnew : (kind, ref) ∉ missing classes ops)
    (types : Array Wasm.FuncType) {imp : Wasm.Import} {i : ImportedMember}
    (hi : i = ⟨kind, ref, l.module.importCount kind⟩)
    (hstands : Stands (fun ref => .putStatic ref ∈ ops ++ [op]) i imp) :
    Scanned classes (ops ++ [op]) { l with
      imports := l.imports ++ [i]
      module := { l.module with types, imports := l.module.imports.push imp } } where
  classes_eq := h.classes_eq
  keys := by
    rw [missing_concat, hm]
    dsimp only
    rw [if_neg (by simp [hprovided, hnew]), List.map_append, h.keys, hi]
    rfl
  stands := by
    have hold : ∀ i ∈ l.imports, i.kind = .global → op ≠ .putStatic i.ref := by
      refine h.not_stored fun m hop => ?_
      obtain rfl := Option.some.inj (hm.symm.trans hop)
      exact hnew
    dsimp only
    rw [Array.toList_push]
    exact List.rel_append (h.stands_concat hold) (.cons hstands .nil)
  indices := by
    intro k j hj
    dsimp only at hj ⊢
    rcases Nat.lt_or_ge k l.imports.length with hk | hk
    · rw [List.getElem?_append_left hk] at hj
      rw [List.take_append_of_le_length hk.le]
      exact h.indices k j hj
    · obtain ⟨hlt, -⟩ := List.getElem?_eq_some_iff.mp hj
      rw [List.length_append, List.length_singleton] at hlt
      obtain rfl : k = l.imports.length := by omega
      rw [List.getElem?_concat_length] at hj
      cases hj
      rw [List.take_left, hi, h.importCount]

/-- A store to an imported field makes the global mutable, and that of no other field. -/
theorem makeMutable (h : Scanned classes ops l) (hmem : (.global, ref) ∈ missing classes ops)
    (hrun : makeMutable ref l = .ok () l') : Scanned classes (ops ++ [.putStatic ref]) l' := by
  have hnodup : (l.imports.map ImportedMember.key).Nodup := by
    rw [h.keys]
    exact nodup_eraseDups _
  cases hrun
  dsimp only
  split
  · next hnone =>
    rw [List.findIdx?_eq_none_iff] at hnone
    rw [← h.keys] at hmem
    obtain ⟨i, hi, hkey⟩ := List.mem_map.mp hmem
    obtain ⟨hkind, href⟩ := Prod.mk.inj hkey
    simpa [hkind, href] using hnone i hi
  · next k hk =>
    obtain ⟨hlt, hfound, -⟩ := List.findIdx?_eq_some_iff_getElem.mp hk
    have hkey : l.imports[k].kind = .global ∧ l.imports[k].ref = ref := by simpa using hfound
    refine ⟨h.classes_eq, ?_, ?_, h.indices⟩
    · rw [missing_concat]
      dsimp only [Operation.member?]
      rw [if_pos (.inr hmem)]
      exact h.keys
    · dsimp only
      rw [Array.toList_modify]
      refine forall₂_modify h.stands (fun i imp hi hs => ?_) fun j i imp hj hi hs => ?_
      · rw [List.getElem?_eq_getElem hlt] at hi
        cases hi
        obtain ⟨module, name, type⟩ := imp
        have hkind := hs.kind
        rw [hkey.1] at hkind
        cases type with
        | global g =>
          refine ⟨hs.kind, hs.module, hs.name, ?_⟩
          rintro _ ⟨⟩
          simp [hkey.2]
        | _ => cases hkind
      · refine hs.congr fun hkind => ?_
        rw [List.mem_append, List.mem_singleton, or_iff_left]
        intro heq
        obtain ⟨hltj, rfl⟩ := List.getElem?_eq_some_iff.mp hi
        have href := (Operation.putStatic.inj heq).trans hkey.2.symm
        rw [← List.length_map ImportedMember.key] at hlt hltj
        have hsame : (l.imports.map ImportedMember.key)[j] =
            (l.imports.map ImportedMember.key)[k] := by
          simp [ImportedMember.key, hkind, hkey.1, href]
        exact hj (hnodup.getElem_inj_iff.mp hsame)

end Scanned

/-! ## The scan -/

/-- A member that no class provides and that is not imported has not been referred to. -/
theorem not_referred (hprovided : classes.provides (kind, ref) = false)
    (hnew : (kind, ref) ∉ missing classes ops) (hop : op.member? = some (kind, ref)) : op ∉ ops :=
  fun hmem => hnew (mem_missing.mpr ⟨⟨op, hmem, hop⟩, hprovided⟩)

theorem importGlobal_run (stores : Bool) (h : Scanned classes ops l)
    (hrun : importGlobal ref stores l = .ok (.ok ()) l') :
    Scanned classes (ops ++ [if stores then .putStatic ref else .getStatic ref]) l' := by
  have hmember : (if stores then Operation.putStatic ref else .getStatic ref).member? =
      some (.global, ref) := by
    cases stores <;> rfl
  obtain ⟨_, _, hget, hrun⟩ := run_bind_eq_ok.mp hrun
  cases hget
  have hprovides : (classes.staticField? ref).isSome = classes.provides (.global, ref) := rfl
  rw [h.classes_eq, hprovides] at hrun
  cases hprovided : classes.provides (.global, ref) with
  | true =>
    rw [hprovided] at hrun
    cases hrun
    refine h.keep (fun m hm => .inl ?_) (h.not_stored fun m hm hmem => ?_) <;>
    · obtain rfl := Option.some.inj (hmember.symm.trans hm)
      first
        | exact hprovided
        | exact absurd (mem_missing.mp hmem).2 (by simp [hprovided])
  | false =>
    rw [hprovided, if_neg Bool.false_ne_true] at hrun
    split at hrun
    · next himported =>
      rw [imported?_isSome, h.keys] at himported
      cases stores with
      | true =>
        obtain ⟨_, _, hmake, hrun⟩ := run_bind_eq_ok.mp hrun
        cases hrun
        exact h.makeMutable himported hmake
      | false =>
        cases hrun
        refine h.keep (fun m hm => .inr ?_) fun i _ _ => nofun
        obtain rfl := Option.some.inj hm
        exact himported
    · next himported =>
      rw [imported?_isSome, h.keys] at himported
      cases ht : Descriptor.parseField ref.descriptor with
      | error e =>
        rw [ht] at hrun
        cases hrun
      | ok t =>
        rw [ht] at hrun
        cases hrun
        refine h.add hmember hprovided himported _ rfl ⟨rfl, rfl, rfl, ?_⟩
        rintro _ ⟨⟩
        have hfresh : Operation.putStatic ref ∉ ops := not_referred hprovided himported rfl
        cases stores <;> simp [hfresh]

theorem importFunction_run (h : Scanned classes ops l)
    (hrun : importFunction ref l = .ok (.ok ()) l') :
    Scanned classes (ops ++ [.invokeStatic ref]) l' := by
  obtain ⟨_, _, hget, hrun⟩ := run_bind_eq_ok.mp hrun
  cases hget
  rw [h.classes_eq] at hrun
  split at hrun
  · next hknown =>
    cases hrun
    refine h.keep (fun m hm => ?_) fun i _ _ => nofun
    obtain rfl := Option.some.inj hm
    rw [Bool.or_eq_true, imported?_isSome, h.keys] at hknown
    exact hknown
  · next hknown =>
    rw [Bool.or_eq_true, imported?_isSome, h.keys, not_or] at hknown
    cases ht : Descriptor.parseMethod ref.descriptor with
    | error e =>
      rw [ht] at hrun
      cases hrun
    | ok t =>
      rw [ht] at hrun
      cases hrun
      have hprovided : classes.provides (.func, ref) = false := Bool.eq_false_iff.mpr hknown.1
      exact h.add rfl hprovided hknown.2 _ rfl ⟨rfl, rfl, rfl, nofun⟩

/-- An operation of the scan. -/
theorem importFor_run (h : Scanned classes ops l) (hrun : importFor op l = .ok (.ok ()) l') :
    Scanned classes (ops ++ [op]) l' := by
  have hreported {ref : MemberRef} {x : M (Except Descriptor.Error Unit)}
      (hx : (do return (← x).mapError (MethodFault.reference ref) : M (Except MethodFault Unit)) l =
        .ok (.ok ()) l') : x l = .ok (.ok ()) l' := by
    obtain ⟨y, l₁, hy, hmap⟩ := run_bind_eq_ok.mp hx
    obtain ⟨heq, rfl⟩ := EStateM.Result.ok.inj hmap
    rw [hy, mapError_eq_ok heq]
  cases op with
  | getStatic ref => exact importGlobal_run false h (hreported hrun)
  | putStatic ref => exact importGlobal_run true h (hreported hrun)
  | invokeStatic ref => exact importFunction_run h (hreported hrun)
  | _ =>
    cases hrun
    exact h.keep (fun m hm => by cases hm) fun i _ _ => nofun

/-- The body of a method. -/
theorem importForMethod_run {cm : LoadedClass × Method × Code} (h : Scanned classes ops l)
    (hrun : importForMethod cm l = .ok () l') :
    (∃ instrs, decode cm.1.file.pool cm.2.2.bytes = .ok instrs) ∧
      Scanned classes (ops ++ operationsOf cm.1.file.pool cm.2.2.bytes) l' := by
  obtain ⟨c, m, code⟩ := cm
  unfold importForMethod at hrun
  dsimp only at hrun ⊢
  unfold operationsOf
  cases hd : decode c.file.pool code.bytes with
  | error e =>
    rw [hd] at hrun
    cases hrun
  | ok instrs =>
    rw [hd] at hrun
    refine ⟨⟨instrs, rfl⟩, ?_⟩
    have hnone : Scanned classes (ops ++ ([] : List Instruction).map Instruction.op) l := by
      rwa [List.map_nil, List.append_nil]
    refine forM_run (P := fun done => Scanned classes (ops ++ done.map Instruction.op))
      (fun done i l₁ l₂ h₁ h₂ => ?_) hnone hrun
    obtain ⟨x, l₃, hx, h₂⟩ := run_bind_eq_ok.mp h₂
    cases x with
    | error fault => cases h₂
    | ok u =>
      cases h₂
      rw [List.map_append, ← List.append_assoc]
      exact importFor_run h₁ hx

/-- All these bodies can be read and have been scanned. -/
structure ScannedBodies (classes : Hierarchy) (done : List (LoadedClass × Method × Code))
    (l : Linker) : Prop where
  decodes : ∀ cm ∈ done, ∃ instrs, decode cm.1.file.pool cm.2.2.bytes = .ok instrs
  scanned : Scanned classes (done.flatMap fun cm => operationsOf cm.1.file.pool cm.2.2.bytes) l

theorem ScannedBodies.step {done : List (LoadedClass × Method × Code)}
    {cm : LoadedClass × Method × Code} (h : ScannedBodies classes done l)
    (hrun : importForMethod cm l = .ok () l') : ScannedBodies classes (done ++ [cm]) l' := by
  obtain ⟨hdecodes, hscanned⟩ := importForMethod_run h.scanned hrun
  refine ⟨List.forall_mem_append.mpr ⟨h.decodes, List.forall_mem_singleton.mpr hdecodes⟩, ?_⟩
  rw [List.flatMap_append, List.flatMap_singleton]
  exact hscanned

/-- What the scan depends on. -/
def Linker.imported (l : Linker) : Hierarchy × List ImportedMember × Array Wasm.Import :=
  (l.classes, l.imports, l.module.imports)

theorem Scanned.congr (h : Scanned classes ops l) (heq : l'.imported = l.imported) :
    Scanned classes ops l' := by
  simp only [Linker.imported, Prod.mk.injEq] at heq
  obtain ⟨hclasses, himports, hmodule⟩ := heq
  exact ⟨by rw [hclasses, h.classes_eq], by rw [himports, h.keys],
    by rw [himports, hmodule]; exact h.stands, by rw [himports]; exact h.indices⟩

theorem Stages.imported_eq (s : Stages l l') : l'.imported = s.imported.imported := by
  have h₁ := s.same_of_functions Linker.imported (fun _ _ _ => rfl)
    (fun _ _ _ _ _ => rfl) fun _ _ => rfl
  have h₂ := s.same_of_globals Linker.imported fun _ _ _ _ _ _ => rfl
  exact h₁.trans (h₂.trans (s.same_of_imported Linker.imported fun _ _ _ => rfl))

/-- The operations that the first pass imports for. -/
def scannedOperations (options : Options) (classes : Hierarchy) : List Operation :=
  if options.unresolved = .imported then operations classes else []

theorem Stages.scanned (s : Stages l l') (h : Scanned classes [] l) :
    Scanned classes (scannedOperations l.options classes) l' ∧
      (l.options.unresolved = .imported → ∀ cm ∈ staticMethods classes,
        ∃ instrs, decode cm.1.file.pool cm.2.2.bytes = .ok instrs) := by
  have hrun := s.imported_run
  rw [h.classes_eq] at hrun
  unfold scannedOperations
  split
  · next hpolicy =>
    rw [if_pos hpolicy] at hrun
    have hnone : ScannedBodies classes [] l := ⟨fun cm hcm => (List.not_mem_nil hcm).elim, h⟩
    have hbodies : ScannedBodies classes (staticMethods classes) s.imported :=
      forM_run (fun _ _ _ _ => ScannedBodies.step) hnone hrun
    exact ⟨hbodies.scanned.congr s.imported_eq, fun _ => hbodies.decodes⟩
  · next hpolicy =>
    rw [if_neg hpolicy] at hrun
    have hstart : Scanned classes [] s.imported := hrun.symm ▸ h
    exact ⟨hstart.congr s.imported_eq, fun himported => absurd himported hpolicy⟩

/-! ## The second pass -/

theorem of_mem_numbered {base : Nat} {methods : List (LoadedClass × Method × Code)}
    {m : LinkedMethod} (h : m ∈ numbered base methods) :
    ∃ cm ∈ methods, m.owner = cm.1.name ∧ m.pool = cm.1.file.pool ∧ m.method = cm.2.1 := by
  obtain ⟨k, hk, rfl⟩ := List.mem_mapIdx.mp h
  exact ⟨_, List.getElem_mem hk, rfl, rfl, rfl⟩

/-- Where the second pass fails, it is for one of the methods and for what the first has settled. -/
theorem Linker.emit_eq_error {e : Error} (h : l.emit.1 = .error e) :
    e = .phase .emitOutOfOrder ∨ ∃ m ∈ l.methods,
      (∃ fault, structured m = .error fault ∧ e = .method m.ref fault) ∨
      ∃ instrs tree types reason, structured m = .ok (instrs, tree) ∧
        (lower l.resolver l.options.maxSpan m.method instrs tree types).1 = .error reason ∧
        e = .ofLowering m.ref reason := by
  unfold Linker.emit at h
  split at h
  · cases h
    exact .inl rfl
  · refine .inr ?_
    unfold run at h
    split at h
    · cases h
    · next e' l' hpass =>
      cases h
      obtain hget | ⟨_, _, hget, hpass⟩ := run_bind_eq_error.mp hpass
      · cases hget
      cases hget
      obtain hmethods | ⟨_, l₁, -, hlast⟩ := run_bind_eq_error.mp hpass
      · obtain ⟨m, hm, l₁, hlater, hrun⟩ := forM_error (fun m _ => emitMethod_later m) hmethods
        obtain ⟨_, types, bodies, -, rfl⟩ := hlater
        refine ⟨m, hm, ?_⟩
        rw [emitMethod_run] at hrun
        cases hstructured : structured m with
        | error fault =>
          rw [hstructured] at hrun
          cases hrun
          exact .inl ⟨fault, rfl, rfl⟩
        | ok it =>
          obtain ⟨instrs, tree⟩ := it
          rw [hstructured] at hrun
          dsimp only at hrun
          split at hrun
          · next reason types' hlower =>
            cases hrun
            exact .inr ⟨instrs, tree, types, reason, rfl, congrArg Prod.fst hlower, rfl⟩
          · cases hrun
      · split at hlast <;> cases hlast

theorem structured_of_ok {m : LinkedMethod} {instrs : Array Instruction} {tree : List Node}
    (h : structured m = .ok (instrs, tree)) :
    decode m.pool ((m.method.code?.map Code.bytes).getD []) = .ok instrs ∧
      structureOf instrs = .ok tree := by
  obtain ⟨instrs', hinstrs, h⟩ := bind_eq_ok.mp h
  obtain ⟨tree', htree, h⟩ := bind_eq_ok.mp h
  cases h
  exact ⟨mapError_eq_ok hinstrs, mapError_eq_ok htree⟩

/-- Where code can be read, only its regions can be at fault. -/
theorem structured_error {m : LinkedMethod} {instrs : Array Instruction} {fault : MethodFault}
    (hd : decode m.pool ((m.method.code?.map Code.bytes).getD []) = .ok instrs)
    (h : structured m = .error fault) : ∃ e, fault = .region e := by
  unfold structured at h
  rw [hd] at h
  change ((structureOf instrs).mapError MethodFault.region >>= fun tree => .ok (instrs, tree)) = _
    at h
  cases htree : structureOf instrs with
  | ok tree =>
    rw [htree] at h
    cases h
  | error e =>
    rw [htree] at h
    cases h
    exact ⟨e, rfl⟩

/-- A method that does not pass the check refers to nothing yet. -/
theorem check_causes {m : Method} {instrs : Array Instruction} {e : Lowering.Error}
    (h : Lowering.check m instrs = .error e) : Cause.unresolvedSymbol ∉ e.causes := by
  have htyping (e : StackTyping.Error) : Cause.unresolvedSymbol ∉ e.causes := by
    cases e with
    | operation _ _ e => cases e <;> simp [StackTyping.Error.causes, StackTyping.StepError.causes]
    | _ => simp [StackTyping.Error.causes]
  unfold Lowering.check at h
  repeat' split at h
  all_goals cases h
  all_goals first
    | exact htyping _
    | simp [Lowering.Error.causes]

/-- Where all members that are reached resolve, a method fails to lower for another reason. -/
theorem lower_causes {m : LinkedMethod} {instrs : Array Instruction} {tree : List Node}
    {types : Array Wasm.FuncType} {reason : Lowering.Error} {maxSpan : Int}
    {resolver : Lowering.Resolver} (hstructured : structured m = .ok (instrs, tree))
    (hresolves : ∀ i ∈ instrs, resolver.Resolves i.op)
    (h : (lower resolver maxSpan m.method instrs tree types).1 = .error reason) :
    Cause.unresolvedSymbol ∉ reason.causes := by
  obtain ⟨hd, htree⟩ := structured_of_ok hstructured
  cases hcheck : Lowering.check m.method instrs with
  | error e =>
    unfold lower at h
    rw [hcheck] at h
    cases h
    exact check_causes hcheck
  | ok typed =>
    have hsettles := Lowering.lower_settles hd htree hcheck resolver maxSpan types
    rw [h] at hsettles
    obtain hunresolved | ⟨k, i, index, -, -, -, -, rfl⟩ := hsettles.2
    · obtain ⟨i, hi, hnot⟩ := hunresolved.exists_not_resolves
      exact absurd (hresolves i hi) hnot
    · simp [Lowering.Error.causes]

theorem causes_ofLowering (ref : MemberRef) (reason : Lowering.Error)
    (h : Cause.unresolvedSymbol ∉ reason.causes) :
    Cause.unresolvedSymbol ∉ (Error.ofLowering ref reason).causes := by
  cases reason with
  | crash index => exact h
  | _ => simpa [Error.ofLowering, Error.causes, MethodFault.causes] using h

/-- Methods whose code can be read and refers only to what the linker has settled. -/
def Linker.Settled (l : Linker) : Prop :=
  ∀ m ∈ l.methods, ∃ instrs,
    decode m.pool ((m.method.code?.map Code.bytes).getD []) = .ok instrs ∧
      ∀ i ∈ instrs, l.resolver.Resolves i.op

theorem Linker.Settled.emit_causes (h : l.Settled) {e : Error} (hemit : l.emit.1 = .error e) :
    Cause.unresolvedSymbol ∉ e.causes := by
  obtain rfl | ⟨m, hm, ⟨fault, hfault, rfl⟩ | hlowered⟩ := Linker.emit_eq_error hemit
  · simp [Error.causes]
  · obtain ⟨instrs, hd, -⟩ := h m hm
    obtain ⟨e, rfl⟩ := structured_error hd hfault
    cases e <;> simp [Error.causes, MethodFault.causes, Region.Error.causes]
  · obtain ⟨instrs, tree, types, reason, hstructured, hlower, rfl⟩ := hlowered
    obtain ⟨instrs', hd, hresolves⟩ := h m hm
    obtain rfl := Except.ok.inj ((structured_of_ok hstructured).1.symm.trans hd)
    exact causes_ofLowering m.ref reason (lower_causes hstructured hresolves hlower)

/-! ## Both passes -/

/-- The operations of a method. -/
def LinkedMethod.operations (m : LinkedMethod) : List Operation :=
  operationsOf m.pool ((m.method.code?.map Code.bytes).getD [])

/-- The operations of all methods that have become functions, in order. -/
def Linker.operations (l : Linker) : List Operation := l.methods.flatMap LinkedMethod.operations

theorem operations_numbered {methods : List (LoadedClass × Method × Code)} (base : Nat)
    (h : ∀ cm ∈ methods, cm.2.1.code? = some cm.2.2) :
    (numbered base methods).flatMap LinkedMethod.operations =
      methods.flatMap fun cm => operationsOf cm.1.file.pool cm.2.2.bytes := by
  have hmap : (numbered base methods).map LinkedMethod.operations =
      methods.map fun cm => operationsOf cm.1.file.pool cm.2.2.bytes := by
    refine List.ext_getElem? fun k => ?_
    unfold numbered
    rw [List.getElem?_map, List.getElem?_map, List.getElem?_mapIdx, Option.map_map]
    cases hk : methods[k]? with
    | none => rfl
    | some cm =>
      simp [LinkedMethod.operations, h cm (List.mem_of_getElem? hk)]
  rw [List.flatMap_def, hmap, ← List.flatMap_def]

/-- A member that is provided or imported has an index. -/
theorem Declares.resolves {options : Options} {start : Option Nat}
    (h : Declares options classes (staticFields classes) (staticMethods classes) start l)
    (hscanned : Scanned classes ops l) (hop : op ∈ ops) : l.resolver.Resolves op := by
  have hknown {m : ExternKind × MemberRef} (hm : op.member? = some m) :
      classes.provides m = true ∨ m ∈ l.imports.map ImportedMember.key := by
    rw [hscanned.keys, mem_missing]
    by_cases hp : classes.provides m = true
    · exact .inl hp
    · exact .inr ⟨⟨op, hop, hm⟩, Bool.eq_false_iff.mpr hp⟩
  have hglobal {ref : MemberRef} (hm : op.member? = some (.global, ref)) :
      ((l.global? ref).map UInt32.ofNat).isSome = true := by
    rw [Option.isSome_map, Linker.global?]
    cases hf : l.classes.staticField? ref with
    | some cf => exact h.lookup_field hf
    | none =>
      refine imported?_isSome.mpr ((hknown hm).resolve_left ?_)
      rw [← h.classes_eq, Hierarchy.provides, hf]
      exact Bool.false_ne_true
  cases op with
  | getStatic ref => exact hglobal rfl
  | putStatic ref => exact hglobal rfl
  | invokeStatic ref =>
    change ((l.function? ref).map UInt32.ofNat).isSome = true
    rw [Option.isSome_map, Linker.function?]
    cases hm : l.classes.staticMethod? ref with
    | some cm =>
      obtain ⟨i, hi⟩ := h.lookup_method hm
      exact Option.isSome_iff_exists.mpr ⟨i, hi⟩
    | none =>
      refine imported?_isSome.mpr ((hknown rfl).resolve_left ?_)
      rw [← h.classes_eq, Hierarchy.provides, hm]
      exact Bool.false_ne_true
  | _ => trivial

theorem Declares.operations_eq {options : Options} {fields : List (Text × Field)}
    {start : Option Nat} (h : Declares options classes fields (staticMethods classes) start l) :
    l.operations = operations classes := by
  rw [Linker.operations, h.methods_eq]
  exact operations_numbered _ fun cm hcm => (mem_staticMethods.mp hcm).2.2.2

theorem scanned_start {options : Options} :
    Scanned classes [] { options, classes, declared := true } :=
  ⟨rfl, rfl, .nil, nofun⟩

/-- The steps of the first pass on the classes of `files`, and what it settles. -/
theorem Linker.declare_stages {options : Options} {files : List ClassFile} {added : Linker}
    (hadd : Linker.addAll { options } files = .ok added) (hdeclare : added.declare = (.ok (), l)) :
    ∃ start, added.classes.map LoadedClass.file = files ∧
      Declares options added.classes (staticFields added.classes) (staticMethods added.classes)
        start l ∧
      Nonempty (Stages { options, classes := added.classes, declared := true } l) := by
  obtain ⟨classes, hloads, rfl⟩ := Linker.addAll_eq_ok.mp hadd
  unfold Linker.declare at hdeclare
  rw [if_neg Bool.false_ne_true] at hdeclare
  have hpass := run_eq_ok hdeclare
  obtain ⟨start, hdeclares⟩ := declarePass_run declares_start hpass
  exact ⟨start, hloads.files.map_file, hdeclares, declarePass_stages hpass⟩

/-- Under the import policy, whatever the methods refer to has an index after the first pass, so
that the second never misses a symbol. The imports are the members that no class provides, each once
and in order of the first reference, and a global is mutable where a method stores to it. -/
theorem Linker.imports_complete {options : Options} {files : List ClassFile} {added : Linker}
    (hadd : Linker.addAll { options } files = .ok added)
    (himported : options.unresolved = .imported) (hdeclare : added.declare = (.ok (), l)) :
    l.classes.map LoadedClass.file = files ∧
      l.methods.map (fun m => (m.owner, m.pool, m.method)) =
        (staticMethods l.classes).map (fun (c, m, _) => (c.name, c.file.pool, m)) ∧
      l.Settled ∧ (∀ e, l.emit.1 = .error e → Cause.unresolvedSymbol ∉ Fault.causes e) ∧
      l.imports.map ImportedMember.key = missing l.classes l.operations ∧
      (l.imports.map ImportedMember.key).Nodup ∧
      List.Forall₂ (Stands fun ref => .putStatic ref ∈ l.operations) l.imports
        l.module.imports.toList := by
  obtain ⟨start, hfiles, hdeclares, ⟨stages⟩⟩ := Linker.declare_stages hadd hdeclare
  obtain ⟨hscanned, hdecodes⟩ := stages.scanned scanned_start
  rw [scannedOperations, if_pos himported, ← hdeclares.operations_eq] at hscanned
  have hsettled : l.Settled := by
    intro m hm
    have hnumbered := hdeclares.methods_eq ▸ hm
    obtain ⟨cm, hcm, -, hpool, hmethod⟩ := of_mem_numbered hnumbered
    obtain ⟨instrs, hd⟩ := hdecodes himported cm hcm
    have hread : decode m.pool ((m.method.code?.map Code.bytes).getD []) = .ok instrs := by
      rw [hpool, hmethod, (mem_staticMethods.mp hcm).2.2.2]
      exact hd
    refine ⟨instrs, hread, fun i hi => hdeclares.resolves hscanned ?_⟩
    refine List.mem_flatMap.mpr ⟨m, hm, ?_⟩
    unfold LinkedMethod.operations operationsOf
    rw [hread]
    exact List.mem_map_of_mem (Array.mem_toList_iff.mpr hi)
  refine ⟨by rw [hdeclares.classes_eq, hfiles], ?_, hsettled, fun e he => hsettled.emit_causes he,
    ?_, ?_, hscanned.stands⟩
  · rw [hdeclares.methods_eq, hdeclares.classes_eq]
    exact map_numbered _ _
  · rw [hdeclares.classes_eq]
    exact hscanned.keys
  · rw [hscanned.keys]
    exact nodup_eraseDups _

theorem imports_complete_calling :
    Linker.addAll { options := { unresolved := .imported } } [callingFile] = .ok callingLinker ∧
      callingLinker.declare = (.ok (), callingDeclared) ∧ callingDeclared.Settled ∧
      callingDeclared.imports.map ImportedMember.key =
        [(.func, ⟨"B", "g", "(I)I"⟩), (.global, ⟨"B", "y", "I"⟩)] := by
  have hadd : Linker.addAll { options := { unresolved := .imported } } [callingFile] =
      .ok callingLinker := rfl
  obtain ⟨-, -, hsettled, -⟩ := Linker.imports_complete hadd rfl declare_calling
  exact ⟨hadd, declare_calling, hsettled, by decide +kernel⟩

end

end Link

end ClassWasm
