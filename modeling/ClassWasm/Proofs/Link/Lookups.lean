/-
  Lookups of members among classes that are loaded together. The linker and the machine look for
  fields and methods in the superclasses of a class without a mark on those they have passed. So
  each lookup ends within as many classes as there are files, or comes back to a class and never
  ends (`lookups_settle`). It ends wherever no class is above itself (`lookups_end`). Nothing else
  that is loaded is refused for it: a class may name itself as its superclass, and a class with an
  empty name is above every class that has no superclass (`circular_never_ends`).
-/
import ClassWasm.Proofs.Link.Dispatch
import ClassWasm.Proofs.Machine.Superclasses

namespace ClassWasm

namespace Link

open Machine (PreparedClass Program)

/-! ## Ends of lookups -/

/-- Every lookup ends within the classes that are loaded, with what it finds or at a name that is
not loaded, or comes round and never ends. -/
theorem lookups_settle {options : Options} {files : List ClassFile} :
    (∀ added, Linker.addAll { options } files = .ok added → ∀ ref,
      (added.classes.fieldLookup ref).Settles files.length ref.owner ∧
      (added.classes.methodLookup ref).Settles files.length ref.owner ∧
      (∀ found, added.classes.staticField? ref = some found ↔
        (added.classes.fieldLookup ref).run ref.owner = some (some found)) ∧
      ∀ found, added.classes.staticMethod? ref = some found ↔
        (added.classes.methodLookup ref).run ref.owner = some (some found)) ∧
    ∀ machine, Machine.ofFiles files = .ok machine → ∀ ref,
      (machine.program.fieldLookup ref).Settles files.length ref.owner ∧
      (machine.program.methodLookup ref).Settles files.length ref.owner ∧
      (∀ c, machine.program.fieldOwner ref = .ok c ↔
        (machine.program.fieldLookup ref).run ref.owner = some (some c)) ∧
      ∀ c r, machine.program.routine ref = .ok (c, r) ↔
        ∃ m, (machine.program.methodLookup ref).run ref.owner = some (some (c, m)) ∧
          m.method.access.isStatic = true ∧ m.routine? = some (.ok r) := by
  refine ⟨fun added hadd ref => ?_, fun machine hmachine ref => ?_⟩
  · obtain ⟨classes, hloads, rfl⟩ := Linker.addAll_eq_ok.mp hadd
    rw [hloads.files.length_eq]
    exact ⟨Lookup.settles (fun _ => rfl) _, Lookup.settles (fun _ => rfl) _,
      fun _ => Lookup.found?_eq_some, fun _ => Lookup.found?_eq_some⟩
  · obtain ⟨classes, blocks, hloads, -, rfl⟩ := Machine.ofFiles_eq_ok.mp hmachine
    rw [hloads.files.length_eq, ← List.length_map PreparedClass.ofLoaded]
    exact ⟨Lookup.settles (fun _ => rfl) _, Lookup.settles (fun _ => rfl) _,
      fun _ => Machine.fieldOwner_eq_ok_iff, fun _ _ => Machine.routine_eq_ok_iff⟩

/-- The method of the superclass is found behind the class that has none to call. -/
theorem lookups_settle_inherited :
    Linker.addAll { options := {} } [returningFile, nativeFile] = .ok nativeLinker ∧
      (∃ k ≤ 2, (nativeLinker.classes.methodLookup ⟨"D", "f", "()I"⟩).Ends k "D"
        (some (⟨returningFile, "B", .empty⟩, returningMethod))) ∧
      ∃ machine, Machine.ofFiles [returningFile, nativeFile] = .ok machine ∧
        ∃ k ≤ 2, (machine.program.methodLookup ⟨"D", "f", "()I"⟩).Ends k "D"
          (some (.ofLoaded ⟨nativeFile, "D", "B"⟩, ⟨⟨⟨0x0109⟩, "f", "()I", []⟩, none⟩)) := by
  have hadd : Linker.addAll { options := {} } [returningFile, nativeFile] = .ok nativeLinker := rfl
  obtain ⟨hlinker, hprogram⟩ := @lookups_settle {} [returningFile, nativeFile]
  obtain ⟨-, hsettles, -, hfound⟩ := hlinker nativeLinker hadd ⟨"D", "f", "()I"⟩
  refine ⟨hadd, (hsettles.ends _).mp ((hfound _).mp rfl), _, rfl, ?_⟩
  obtain ⟨-, hsettles', -⟩ := hprogram _ rfl ⟨"D", "f", "()I"⟩
  exact (hsettles'.ends _).mp ((Lookup.runFrom_eq_run 1 _).symm.trans rfl)

/-! ## Where no class is above itself -/

section

variable {α β : Type} {l : Lookup α β} {n : Nat} {name : Text} {p : Program} {f : α → PreparedClass}

/-- `f` makes the classes of a program from those that are searched. -/
theorem ends_of_acyclic (hacyclic : p.Acyclic) (h : l.Settles n name)
    (hnamed : ∀ name, p.named? name = (l.named? name).map f)
    (hsuper : ∀ c, (f c).superName = l.superName c) : (l.run name).isSome := by
  cases hrun : l.run name with
  | some r => rfl
  | none =>
    have hsupers : ∀ a b, l.Ascends a b → (l.named? b).isSome → p.Super a b := by
      rintro a _ ⟨c, hc, -, rfl⟩ hb
      obtain ⟨d, hd⟩ := Option.isSome_iff_exists.mp hb
      have hd' : p.named? (f c).superName = some (f d) := by rw [hsuper, hnamed, hd]; rfl
      exact ⟨f c, f d, by rw [hnamed, hc]; rfl, hd',
        (Program.mem_of_named? hd').2.trans (hsuper c)⟩
    obtain ⟨a, habove⟩ := (h.never.mp hrun).transGen hsupers
    exact absurd habove (hacyclic a)

end

/-- Every lookup ends where no class is above itself. -/
theorem lookups_end {classes : Hierarchy} (hacyclic : Program.Acyclic (classes.map .ofLoaded))
    (ref : MemberRef) :
    ((classes.fieldLookup ref).run ref.owner).isSome ∧
      ((classes.methodLookup ref).run ref.owner).isSome ∧
      ((Program.fieldLookup (classes.map .ofLoaded) ref).run ref.owner).isSome ∧
      ((Program.methodLookup (classes.map .ofLoaded) ref).run ref.owner).isSome :=
  have hid : ∀ name, Program.named? (classes.map .ofLoaded) name =
      (Program.named? (classes.map .ofLoaded) name).map id := fun _ => (Option.map_id_apply ..).symm
  ⟨ends_of_acyclic hacyclic (Lookup.settles (fun _ => rfl) _) Machine.named?_ofLoaded fun _ => rfl,
    ends_of_acyclic hacyclic (Lookup.settles (fun _ => rfl) _) Machine.named?_ofLoaded fun _ => rfl,
    ends_of_acyclic hacyclic (Lookup.settles (fun _ => rfl) _) hid fun _ => rfl,
    ends_of_acyclic hacyclic (Lookup.settles (fun _ => rfl) _) hid fun _ => rfl⟩

/-! ## Classes above themselves -/

/-- The class `A` that extends `A`. -/
def circularBytes : Bytes :=
  [0xca, 0xfe, 0xba, 0xbe, 0, 0, 0, 52, 0, 3, 1, 0, 1, 0x41, 7, 0, 1, 0, 0x21, 0, 2, 0, 2, 0, 0,
    0, 0, 0, 0, 0, 0]

/-- A class without a superclass, whose name is empty. -/
def namelessBytes : Bytes :=
  [0xca, 0xfe, 0xba, 0xbe, 0, 0, 0, 52, 0, 3, 1, 0, 0, 7, 0, 1, 0, 0x21, 0, 2, 0, 0, 0, 0,
    0, 0, 0, 0, 0, 0]

def circularFile : ClassFile :=
  ⟨0, 52, ⟨#[none, some (.utf8 "A"), some (.classRef 1)]⟩, ⟨0x0021⟩, 2, 2, [], [], [], []⟩

def namelessFile : ClassFile :=
  ⟨0, 52, ⟨#[none, some (.utf8 .empty), some (.classRef 1)]⟩, ⟨0x0021⟩, 2, 0, [], [], [], []⟩

def circularLinker : Linker :=
  { options := {}, classes := [⟨circularFile, "A", "A"⟩, ⟨namelessFile, .empty, .empty⟩] }

/-- A class that is above itself is accepted, and no lookup of a member that it lacks ends. -/
theorem circular_never_ends :
    ClassFile.parse circularBytes = .ok circularFile ∧
      ClassFile.parse namelessBytes = .ok namelessFile ∧
      Linker.addAll { options := {} } [circularFile, namelessFile] = .ok circularLinker ∧
      ∃ machine, Machine.ofFiles [circularFile, namelessFile] = .ok machine ∧
        ∀ owner ∈ ([("A" : Text), .empty] : List Text),
          (circularLinker.classes.fieldLookup ⟨owner, "x", "I"⟩).run owner = none ∧
          (circularLinker.classes.methodLookup ⟨owner, "f", "()V"⟩).run owner = none ∧
          (machine.program.fieldLookup ⟨owner, "x", "I"⟩).run owner = none ∧
          (machine.program.methodLookup ⟨owner, "f", "()V"⟩).run owner = none := by
  refine ⟨by cbv, by cbv, rfl, _, rfl, fun owner howner => ?_⟩
  rcases List.mem_pair.mp howner with rfl | rfl
  all_goals
    exact ⟨Lookup.Ascends.run_self ⟨_, rfl, rfl, rfl⟩, Lookup.Ascends.run_self ⟨_, rfl, rfl, rfl⟩,
      Lookup.Ascends.run_self ⟨_, rfl, rfl, rfl⟩, Lookup.Ascends.run_self ⟨_, rfl, rfl, rfl⟩⟩

end Link

end ClassWasm
