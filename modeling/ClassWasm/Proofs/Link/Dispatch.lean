/-
  What a call reaches. The linker and the machine look for the method of a reference in the same
  classes, from the class that the reference names upwards. The machine takes the first method of
  the name and type, and has none if that is not static or has no code; the linker passes over such
  a method. So they agree where no class declares a method of the name and type below the one that
  the linker finds (`Linker.dispatches`), and where a class has the method once, a call runs the
  same instructions in both.
-/
import ClassWasm.ClassFile.Parser
import ClassWasm.Proofs.Link.Imports
import ClassWasm.Proofs.Link.Symbols

namespace ClassWasm

theorem ancestry_map {α β : Type} {f : α → β} {named? : Text → Option α} {superName : β → Text}
    (n : Nat) (name : Text) :
    ancestry (fun name => (named? name).map f) superName n name =
      (ancestry named? (fun a => superName (f a)) n name).map f := by
  induction n generalizing name with
  | zero => rfl
  | succ n ih =>
    unfold ancestry
    cases named? name with
    | none => rfl
    | some c => exact congrArg (f c :: ·) (ih _)

theorem ancestry_of_none {α : Type} {named? : Text → Option α} {superName : α → Text} {name : Text}
    (h : named? name = none) (n : Nat) : ancestry named? superName n name = [] := by
  cases n with
  | zero => rfl
  | succ n =>
    unfold ancestry
    rw [h]

namespace Hierarchy

variable {h : Hierarchy} {ref : MemberRef} {c : LoadedClass} {m : Method}

/-- The first method of the name and type of a reference, with its class. -/
def declared? (h : Hierarchy) (ref : MemberRef) : Option (LoadedClass × Method) :=
  (h.chain ref.owner).findSome? fun c => (c.file.findMethod? ref.name ref.descriptor).map (c, ·)

/-- On the way from the class that a reference names up to `c` no class declares a method of its
name and type. -/
def Unshadowed (h : Hierarchy) (ref : MemberRef) (c : LoadedClass) : Prop :=
  ∃ below above, h.chain ref.owner = below ++ c :: above ∧
    ∀ c' ∈ below, c'.file.findMethod? ref.name ref.descriptor = none

theorem declared?_eq_some : h.declared? ref = some (c, m) ↔
    c.file.findMethod? ref.name ref.descriptor = some m ∧ h.Unshadowed ref c := by
  unfold declared?
  rw [List.findSome?_eq_some_iff]
  constructor
  · rintro ⟨below, c', above, hchain, hfind, hbelow⟩
    obtain ⟨m', hm', heq⟩ := Option.map_eq_some_iff.mp hfind
    cases heq
    exact ⟨hm', below, above, hchain, fun c' hc' => Option.map_eq_none_iff.mp (hbelow c' hc')⟩
  · rintro ⟨hm, below, above, hchain, hbelow⟩
    refine ⟨below, c, above, hchain, by rw [hm]; rfl, fun c' hc' => ?_⟩
    rw [hbelow c' hc']
    rfl

theorem staticMethod?_declares (hm : h.staticMethod? ref = some (c, m)) :
    c.file.findMethod? ref.name ref.descriptor = some m ∧
      (m.access.isStatic && m.code?.isSome) = true := by
  obtain ⟨_, c', -, hfind⟩ := Lookup.exists_of_run (Lookup.found?_eq_some.mp hm)
  dsimp only [methodLookup] at hfind
  split at hfind
  · split at hfind <;> cases hfind
    exact ⟨‹_›, ‹_›⟩
  · cases hfind

/-- What is declared first is found where it can be called. -/
theorem staticMethod?_of_declared (hm : h.declared? ref = some (c, m))
    (hcallable : (m.access.isStatic && m.code?.isSome) = true) :
    h.staticMethod? ref = some (c, m) := by
  obtain ⟨hfind, below, above, hchain, hbelow⟩ := declared?_eq_some.mp hm
  rw [staticMethod?_eq]
  refine List.findSome?_eq_some_iff.mpr ⟨below, c, above, hchain, ?_, fun c' hc' => ?_⟩ <;>
    dsimp only [methodLookup]
  · rw [hfind]
    exact if_pos hcallable
  · rw [hbelow c' hc']

end Hierarchy

namespace Machine

variable {classes : Hierarchy} {ref : MemberRef} {c : LoadedClass} {m : Method}

/-- The method that a reference selects, with its class: the first of its name and type, if that is
static and has code. Whether the code can be read does not matter. -/
def Program.selected? (p : Program) (ref : MemberRef) : Option (LoadedClass × Method) :=
  let found := (p.chain ref.owner).findSome? fun c =>
    (c.findMethod? ref.name ref.descriptor).map (c, ·)
  found.bind fun (c, m) =>
    if m.method.access.isStatic && m.routine?.isSome then some (c.toLoadedClass, m.method) else none

/-- What a class keeps of a method. -/
def PreparedMethod.of (c : LoadedClass) (m : Method) : PreparedMethod :=
  ⟨m, m.code?.map fun code => Routine.load c.name c.file.pool m code⟩

theorem named?_ofLoaded (name : Text) :
    Program.named? (classes.map .ofLoaded) name = (classes.named? name).map .ofLoaded :=
  List.find?_map ..

theorem findMethod?_ofLoaded (c : LoadedClass) (name descriptor : Text) :
    (PreparedClass.ofLoaded c).findMethod? name descriptor =
      (c.file.findMethod? name descriptor).map (.of c) := List.find?_map ..

theorem chain_ofLoaded (name : Text) :
    Program.chain (classes.map .ofLoaded) name = (classes.chain name).map .ofLoaded := by
  unfold Program.chain
  rw [List.length_map, funext named?_ofLoaded]
  exact ancestry_map _ _

theorem found_ofLoaded :
    ((Program.chain (classes.map .ofLoaded) ref.owner).findSome? fun c =>
      (c.findMethod? ref.name ref.descriptor).map (c, ·)) =
    (classes.declared? ref).map fun (c, m) => (.ofLoaded c, .of c m) := by
  unfold Hierarchy.declared?
  rw [chain_ofLoaded, List.findSome?_map, List.map_findSome?]
  congr 1
  funext c
  rw [Function.comp_apply, Function.comp_apply, findMethod?_ofLoaded, Option.map_map,
    Option.map_map]
  rfl

/-- Of classes that are loaded, the machine has the method that is declared first. -/
theorem selected?_ofLoaded :
    Program.selected? (classes.map .ofLoaded) ref =
      (classes.declared? ref).filter fun (_, m) => m.access.isStatic && m.code?.isSome := by
  unfold Program.selected?
  dsimp only
  rw [found_ofLoaded]
  cases classes.declared? ref with
  | none => rfl
  | some cm =>
    simp [PreparedMethod.of, Option.filter, PreparedClass.ofLoaded]

theorem selected?_iff : Program.selected? (classes.map .ofLoaded) ref = some (c, m) ↔
    classes.staticMethod? ref = some (c, m) ∧ classes.Unshadowed ref c := by
  rw [selected?_ofLoaded, Option.filter_eq_some_iff]
  constructor
  · rintro ⟨hdeclared, hcallable⟩
    exact ⟨Hierarchy.staticMethod?_of_declared hdeclared hcallable,
      (Hierarchy.declared?_eq_some.mp hdeclared).2⟩
  · rintro ⟨hfound, hunshadowed⟩
    obtain ⟨hfind, hcallable⟩ := Hierarchy.staticMethod?_declares hfound
    exact ⟨Hierarchy.declared?_eq_some.mpr ⟨hfind, hunshadowed⟩, hcallable⟩

/-- A call runs the method that is selected, as far as its code can be loaded. -/
theorem routine_of_selected (h : Program.selected? (classes.map .ofLoaded) ref = some (c, m)) :
    ∃ code, m.code? = some code ∧ Program.routine (classes.map .ofLoaded) ref =
      ((Routine.load c.name c.file.pool m code).mapError .load).map (.ofLoaded c, ·) := by
  rw [selected?_ofLoaded, Option.filter_eq_some_iff] at h
  obtain ⟨hdeclared, hcallable⟩ := h
  obtain ⟨hstatic, hcode⟩ := Bool.and_eq_true_iff.mp hcallable
  obtain ⟨code, hcode⟩ := Option.isSome_iff_exists.mp hcode
  have hnamed : (Program.named? (classes.map .ofLoaded) ref.owner).isNone = false := by
    rw [named?_ofLoaded]
    cases hnone : classes.named? ref.owner with
    | some _ => rfl
    | none =>
      unfold Hierarchy.declared? Hierarchy.chain at hdeclared
      rw [ancestry_of_none hnone] at hdeclared
      cases hdeclared
  refine ⟨code, hcode, ?_⟩
  unfold Program.routine
  rw [hnamed, if_neg Bool.false_ne_true, methodLookup_found?, found_ofLoaded, hdeclared]
  simp only [Option.map_some, PreparedMethod.of, hcode, hstatic]
  cases Routine.load c.name c.file.pool m code <;> rfl

/-- Where no method is selected, a call fails before any code is loaded. -/
theorem routine_of_not_selected {p : Program} (h : p.selected? ref = none) :
    ∃ e, p.routine ref = .error e ∧ ∀ e', e ≠ .load e' := by
  unfold Program.routine
  split
  · exact ⟨_, rfl, nofun⟩
  · unfold Program.selected? at h
    dsimp only at h
    rw [methodLookup_found?]
    split
    · exact ⟨_, rfl, nofun⟩
    · next c m hfound =>
      rw [hfound] at h
      split
      · exact ⟨_, rfl, nofun⟩
      · next loaded hloaded =>
        split
        · exact ⟨_, rfl, nofun⟩
        · next hstatic =>
          rw [Option.bind_some, hloaded, if_pos (by simpa using hstatic)] at h
          cases h

end Machine

namespace Link

open Machine (Routine)

/-! ## Functions of methods -/

/-- The class has no other static method with code of the name and type. -/
def Sole (c : LoadedClass) (m : Method) : Prop :=
  c.file.methods.countP (fun m' => m'.access.isStatic && m'.code?.isSome &&
    decide (m'.name = m.name ∧ m'.descriptor = m.descriptor)) = 1

instance (c : LoadedClass) (m : Method) : Decidable (Sole c m) :=
  inferInstanceAs (Decidable (_ = 1))

section

variable {options : Options} {classes : Hierarchy} {start : Option Nat} {l l' : Linker}
  {c : LoadedClass} {m : Method}

theorem Sole.count (h : Sole c m) (hnames : (classes.map LoadedClass.name).Nodup)
    (hc : c ∈ classes) :
    (staticMethods classes).countP
      (fun cm => methodRef cm = ⟨c.name, m.name, m.descriptor⟩) = 1 := by
  unfold staticMethods
  rw [countP_flatMap_of_owner hnames hc, List.countP_filterMap, ← h]
  · congr 1
    funext m'
    cases m'.access.isStatic <;> cases m'.code? <;> simp [methodRef]
  · intro c' _ cm hcm href
    rw [← (mem_methods_of.mp hcm).1]
    exact congrArg MemberRef.owner (of_decide_eq_true href)

theorem map_index_numbered (base : Nat) (methods : List (LoadedClass × Method × Code)) :
    (numbered base methods).map (fun m => (m.ref, m.index)) =
      methods.mapIdx fun k cm => (methodRef cm, base + k) := by
  refine List.ext_getElem? fun k => ?_
  unfold numbered
  rw [List.getElem?_map, List.getElem?_mapIdx, List.getElem?_mapIdx, Option.map_map]
  rfl

/-- A reference to a method that its class has once leads to the function of that method. -/
theorem Declares.function_sole {fields : List (Text × Field)} {ref : MemberRef}
    (h : Declares options classes fields (staticMethods classes) start l)
    (hnames : (classes.map LoadedClass.name).Nodup) (hm : classes.staticMethod? ref = some (c, m))
    (hsole : Sole c m) :
    ∃ k, l.function? ref = some (l.module.importCount .func + k) ∧
      l.methods[k]? = some ⟨c.name, c.file.pool, m, l.module.importCount .func + k⟩ := by
  obtain ⟨⟨code, hmem⟩, -⟩ := Hierarchy.staticMethod?_eq_some hm
  obtain ⟨k, hk⟩ := List.mem_iff_getElem?.mp hmem
  obtain ⟨hc, -⟩ := mem_staticMethods.mp hmem
  refine ⟨k, ?_, ?_⟩
  · unfold Linker.function?
    rw [h.classes_eq, hm, h.indices_eq, h.methods_eq, map_index_numbered]
    exact lookup_numbered methodRef _ hk (hsole.count hnames hc)
  · rw [h.methods_eq, numbered, List.getElem?_mapIdx, hk]
    rfl

/-- The machine loads what the linker has lowered, as the same instructions. -/
theorem Lowers.loads {linked : LinkedMethod} {body : Wasm.FuncBody} (h : Lowers l l' linked body) :
    ∃ code r tree, linked.method.code? = some code ∧
      Routine.load linked.owner linked.pool linked.method code = .ok r ∧
      structured linked = .ok (r.instrs, tree) := by
  obtain ⟨instrs, tree, f, types, types', hstructured, hlower, -⟩ := h
  obtain ⟨type, typing, hcheck, -⟩ := (lower_adds _ _ _ _ _ _).2 f (congrArg Prod.fst hlower)
  obtain ⟨-, code, hcode, hhandlers⟩ := Lowering.check_runnable hcheck
  obtain ⟨htype, -⟩ := Lowering.check_eq_ok hcheck
  obtain ⟨hdecode, -⟩ := structured_of_ok hstructured
  rw [hcode] at hdecode
  refine ⟨code, ⟨⟨linked.owner, linked.method.name, linked.method.descriptor⟩,
    type.params.map FieldType.kind, type.resultKind, code.maxLocals.toNat, code.maxStack.toNat,
    instrs, .ofInstructions instrs⟩, tree, hcode, ?_, hstructured⟩
  unfold Routine.load
  rw [htype]
  change (if !code.handlers.isEmpty then _ else _) = _
  rw [hhandlers, if_neg (by simp), show decode linked.pool code.bytes = .ok instrs from hdecode]
  rfl

/-- The machine selects the method that the linker finds, unless a class below declares another one;
where it selects none the call fails before any code is read. A selected method that its class has
once is at the index that the linker gives the reference: the body there is the lowering of the
instructions that the machine runs. -/
theorem Linker.dispatches {files : List ClassFile} {machine : Machine} {added : Linker}
    (hmachine : Machine.ofFiles files = .ok machine)
    (hadd : Linker.addAll { options } files = .ok added) (ref : MemberRef) :
    (∀ c m, machine.program.selected? ref = some (c, m) ↔
      added.classes.staticMethod? ref = some (c, m) ∧ added.classes.Unshadowed ref c) ∧
    (machine.program.selected? ref = none →
      ∃ e, machine.program.routine ref = .error e ∧ ∀ e', e ≠ .load e') ∧
    ∀ c m, machine.program.selected? ref = some (c, m) →
      (∃ code, m.code? = some code ∧ machine.program.routine ref =
        ((Routine.load c.name c.file.pool m code).mapError .load).map (.ofLoaded c, ·)) ∧
      ∀ l, added.declare = (.ok (), l) → l.emit.1 = .ok () → Sole c m →
        ∃ k body r tree, l.function? ref = some (l.module.importCount .func + k) ∧
          l.emit.2.module.bodies[k]? = some body ∧
          Lowers l l.emit.2 ⟨c.name, c.file.pool, m, l.module.importCount .func + k⟩ body ∧
          structured ⟨c.name, c.file.pool, m, l.module.importCount .func + k⟩ =
            .ok (r.instrs, tree) ∧
          machine.program.routine ref = .ok (.ofLoaded c, r) := by
  obtain ⟨classes, blocks, hfiles, -, rfl⟩ := Machine.ofFiles_eq_ok.mp hmachine
  have hadded : added = { options, classes } := by
    obtain ⟨classes', hfiles', rfl⟩ := Linker.addAll_eq_ok.mp hadd
    rw [hfiles.files.unique hfiles'.files]
  subst hadded
  refine ⟨fun c m => Machine.selected?_iff, Machine.routine_of_not_selected, ?_⟩
  intro c m hselected
  obtain ⟨code, hcode, hroutine⟩ := Machine.routine_of_selected hselected
  refine ⟨⟨code, hcode, hroutine⟩, fun l hdeclare hemit hsole => ?_⟩
  obtain ⟨start, -, hdeclares, -⟩ := Linker.declare_stages hadd hdeclare
  obtain ⟨k, hfunction, hk⟩ :=
    hdeclares.function_sole hfiles.names (Machine.selected?_iff.mp hselected).1 hsole
  have hcomplete := hdeclares.complete_of_emit hemit
  obtain ⟨-, -, hmethods⟩ := l.emit_later.settled
  obtain ⟨-, body, hbody, hlowers⟩ := hcomplete.methods k _ (hmethods ▸ hk)
  obtain ⟨code', r, tree, hcode', hload, hstructured⟩ := hlowers.loads
  obtain rfl := Option.some.inj (hcode.symm.trans hcode')
  refine ⟨k, body, r, tree, hfunction, hbody, hlowers, hstructured, ?_⟩
  rw [hroutine, show Routine.load c.name c.file.pool m code = .ok r from hload]
  rfl

theorem dispatches_calling :
    ∃ machine, Machine.ofFiles [callingFile] = .ok machine ∧
      Linker.addAll { options := { unresolved := .imported } } [callingFile] = .ok callingLinker ∧
      machine.program.selected? ⟨"A", "f", "(I)I"⟩ =
        some (⟨callingFile, "A", .empty⟩, callingMethod) ∧
      callingLinker.declare = (.ok (), callingDeclared) ∧ callingDeclared.emit.1 = .ok () ∧
      ∃ k body r, callingDeclared.function? ⟨"A", "f", "(I)I"⟩ =
          some (callingDeclared.module.importCount .func + k) ∧
        callingDeclared.emit.2.module.bodies[k]? = some body ∧
        machine.program.routine ⟨"A", "f", "(I)I"⟩ =
          .ok (.ofLoaded ⟨callingFile, "A", .empty⟩, r) := by
  have hadd : Linker.addAll { options := { unresolved := .imported } } [callingFile] =
      .ok callingLinker := rfl
  have hmachine : ∃ machine, Machine.ofFiles [callingFile] = .ok machine := ⟨_, rfl⟩
  obtain ⟨machine, hmachine⟩ := hmachine
  obtain ⟨hselects, -, hcalls⟩ := Linker.dispatches hmachine hadd ⟨"A", "f", "(I)I"⟩
  have hselected := (hselects ⟨callingFile, "A", .empty⟩ callingMethod).mpr
    ⟨rfl, [], [], rfl, nofun⟩
  have hsole : Sole ⟨callingFile, "A", .empty⟩ callingMethod := by decide
  obtain ⟨k, body, r, -, hfunction, hbody, -, -, hroutine⟩ :=
    (hcalls _ _ hselected).2 _ declare_calling emit_calling hsole
  exact ⟨machine, hmachine, hadd, hselected, declare_calling, emit_calling, k, body, r, hfunction,
    hbody, hroutine⟩

/-! ## A method that is hidden -/

/-- A class with `static int f() { return 3; }`. -/
def returningBytes : Bytes :=
  [0xca, 0xfe, 0xba, 0xbe, 0, 0, 0, 52, 0, 6, 1, 0, 1, 0x42, 7, 0, 1, 1, 0, 1, 0x66,
    1, 0, 3, 0x28, 0x29, 0x49, 1, 0, 4, 0x43, 0x6f, 0x64, 0x65, 0, 0x21, 0, 2, 0, 0, 0, 0, 0, 0,
    0, 1, 0, 9, 0, 3, 0, 4, 0, 1, 0, 5, 0, 0, 0, 14, 0, 1, 0, 0, 0, 0, 0, 2, 0x06, 0xac, 0, 0, 0, 0,
    0, 0]

/-- A class below that one with `static native int f();`. -/
def nativeBytes : Bytes :=
  [0xca, 0xfe, 0xba, 0xbe, 0, 0, 0, 52, 0, 7, 1, 0, 1, 0x44, 7, 0, 1, 1, 0, 1, 0x42, 7, 0, 3,
    1, 0, 1, 0x66, 1, 0, 3, 0x28, 0x29, 0x49, 0, 0x21, 0, 2, 0, 4, 0, 0, 0, 0, 0, 1,
    1, 9, 0, 5, 0, 6, 0, 0, 0, 0]

def returningMethod : Method := ⟨⟨0x0009⟩, "f", "()I", [.code ⟨1, 0, [0x06, 0xac], [], []⟩]⟩

def returningFile : ClassFile :=
  ⟨0, 52, ⟨#[none, some (.utf8 "B"), some (.classRef 1), some (.utf8 "f"), some (.utf8 "()I"),
    some (.utf8 "Code")]⟩, ⟨0x0021⟩, 2, 0, [], [], [returningMethod], []⟩

def nativeFile : ClassFile :=
  ⟨0, 52, ⟨#[none, some (.utf8 "D"), some (.classRef 1), some (.utf8 "B"), some (.classRef 3),
    some (.utf8 "f"), some (.utf8 "()I")]⟩, ⟨0x0021⟩, 2, 4, [], [],
    [⟨⟨0x0109⟩, "f", "()I", []⟩], []⟩

def nativeLinker : Linker :=
  { options := {}, classes := [⟨returningFile, "B", .empty⟩, ⟨nativeFile, "D", "B"⟩] }

/-- The linker passes over the method of the class and finds that of the superclass. -/
theorem native_passed_over :
    ClassFile.parse returningBytes = .ok returningFile ∧
      ClassFile.parse nativeBytes = .ok nativeFile ∧
      Linker.addAll { options := {} } [returningFile, nativeFile] = .ok nativeLinker ∧
      nativeLinker.classes.staticMethod? ⟨"D", "f", "()I"⟩ =
        some (⟨returningFile, "B", .empty⟩, returningMethod) ∧
      ∃ machine, Machine.ofFiles [returningFile, nativeFile] = .ok machine ∧
        machine.program.selected? ⟨"D", "f", "()I"⟩ = none ∧
        machine.program.routine ⟨"D", "f", "()I"⟩ = .error (.notRunnable ⟨"D", "f", "()I"⟩) :=
  ⟨by cbv, by cbv, rfl, rfl, _, rfl, rfl, rfl⟩

end

end Link

end ClassWasm
