/-
  Classes that are loaded together. A linker and a machine take class files one by one, each under
  its own name and only if no other class has it. So the same lists of files can be loaded into both
  (`Linker.addAll_eq_ok`, `Machine.ofFiles_eq_ok`), and they hold the same classes in the same
  order; the machine gives their static fields values at once.
-/
import ClassWasm.Link.Linker
import ClassWasm.Machine
import ClassWasm.Proofs.Results

namespace ClassWasm

/-- The files are those of the classes, in order. -/
abbrev FilesOf (files : List ClassFile) (classes : Hierarchy) : Prop :=
  List.Forall₂ (fun file c => LoadedClass.ofFile file = .ok c) files classes

/-- The classes of the files, no two of which have the same name. -/
structure Loads (files : List ClassFile) (classes : Hierarchy) : Prop where
  files : FilesOf files classes
  names : (classes.map LoadedClass.name).Nodup

theorem parseMethod_void : Descriptor.parseMethod "()V" = .ok ⟨[], none⟩ := by
  decide +kernel

theorem LoadedClass.file_of_ofFile {file : ClassFile} {c : LoadedClass}
    (h : LoadedClass.ofFile file = .ok c) : c.file = file := by
  obtain ⟨name, -, h⟩ := bind_eq_ok.mp h
  cases h
  rfl

theorem FilesOf.map_file {files : List ClassFile} {classes : Hierarchy}
    (h : FilesOf files classes) :
    classes.map LoadedClass.file = files := by
  rw [map_eq_of_forall₂ (f := id) (h.imp fun _ _ => LoadedClass.file_of_ofFile), List.map_id]

theorem FilesOf.unique {files : List ClassFile} {classes classes' : Hierarchy}
    (h : FilesOf files classes) (h' : FilesOf files classes') : classes = classes' := by
  induction h generalizing classes' with
  | nil =>
    cases h'
    rfl
  | cons hc _ ih =>
    cases h' with
    | cons hc' h' => rw [Except.ok.inj (hc.symm.trans hc'), ih h']

theorem nodup_names_concat {before : Hierarchy} {c : LoadedClass}
    (hbefore : (before.map LoadedClass.name).Nodup) (hc : c.name ∉ before.map LoadedClass.name) :
    ((before ++ [c]).map LoadedClass.name).Nodup := by
  rw [List.map_append, List.map_singleton]
  exact List.nodup_append.mpr ⟨hbefore, List.nodup_singleton _, fun name hname name' hname' heq =>
    hc (List.mem_singleton.mp hname' ▸ heq ▸ hname)⟩

theorem not_mem_names {before classes : Hierarchy} {c : LoadedClass}
    (h : ((before ++ c :: classes).map LoadedClass.name).Nodup) :
    c.name ∉ before.map LoadedClass.name := by
  intro hmem
  rw [List.map_append, List.map_cons] at h
  exact (List.nodup_append.mp h).2.2 _ hmem _ List.mem_cons_self rfl

theorem find?_isSome_iff_mem_map {α β : Type} [DecidableEq β] {name : α → β} {as : List α} {b : β} :
    (as.find? fun a => name a = b).isSome = true ↔ b ∈ as.map name := by
  rw [List.find?_isSome, List.mem_map]
  simp only [decide_eq_true_eq]

/-! ## Linkers -/

namespace Link

variable {options : Options} {before : Hierarchy} {l : Linker}

theorem Linker.add_eq_ok {file : ClassFile} :
    Linker.add { options, classes := before } file = .ok l ↔ ∃ c, LoadedClass.ofFile file = .ok c ∧
      c.name ∉ before.map LoadedClass.name ∧ l = { options, classes := before ++ [c] } := by
  unfold Linker.add
  rw [if_neg Bool.false_ne_true]
  cases hc : LoadedClass.ofFile file with
  | error e => exact ⟨nofun, nofun⟩
  | ok c =>
    dsimp only
    by_cases hname : c.name ∈ before.map LoadedClass.name
    · rw [Hierarchy.named?, if_pos (find?_isSome_iff_mem_map.mpr hname)]
      refine ⟨nofun, ?_⟩
      rintro ⟨_, ⟨⟩, hnew, -⟩
      exact absurd hname hnew
    · rw [Hierarchy.named?, if_neg fun h => hname (find?_isSome_iff_mem_map.mp h)]
      refine ⟨fun h => ?_, ?_⟩
      · cases h
        exact ⟨c, rfl, hname, rfl⟩
      · rintro ⟨_, ⟨⟩, -, rfl⟩
        rfl

/-- Files behind classes that a linker already has. -/
theorem Linker.addAll_after (hbefore : (before.map LoadedClass.name).Nodup)
    {files : List ClassFile} :
    Linker.addAll { options, classes := before } files = .ok l ↔ ∃ classes, FilesOf files classes ∧
      ((before ++ classes).map LoadedClass.name).Nodup ∧
      l = { options, classes := before ++ classes } := by
  induction files generalizing before with
  | nil =>
    refine ⟨fun h => ?_, ?_⟩
    · cases h
      exact ⟨[], .nil, by rwa [List.append_nil], by rw [List.append_nil]⟩
    · rintro ⟨_, ⟨⟩, -, rfl⟩
      rw [List.append_nil]
      rfl
  | cons file files ih =>
    refine ⟨fun h => ?_, ?_⟩
    · obtain ⟨l₁, hfile, h⟩ := bind_eq_ok.mp h
      obtain ⟨c, hc, hnew, rfl⟩ := Linker.add_eq_ok.mp hfile
      obtain ⟨classes, hfiles, hnames, rfl⟩ := (ih (nodup_names_concat hbefore hnew)).mp h
      rw [List.append_assoc] at hnames ⊢
      exact ⟨c :: classes, .cons hc hfiles, hnames, rfl⟩
    · rintro ⟨_, hfiles, hnames, rfl⟩
      cases hfiles with
      | @cons _ c _ classes hc hfiles =>
        have hnew := not_mem_names hnames
        refine bind_eq_ok.mpr ⟨_, Linker.add_eq_ok.mpr ⟨c, hc, hnew, rfl⟩, ?_⟩
        refine (ih (nodup_names_concat hbefore hnew)).mpr ⟨classes, hfiles, ?_, ?_⟩ <;>
          rw [List.append_assoc]
        · exact hnames
        · rfl

theorem Linker.addAll_eq_ok {files : List ClassFile} :
    Linker.addAll { options } files = .ok l ↔
      ∃ classes, Loads files classes ∧ l = { options, classes } := by
  have hnone : (([] : Hierarchy).map LoadedClass.name).Nodup := List.nodup_nil
  refine (Linker.addAll_after hnone).trans ⟨?_, ?_⟩
  · rintro ⟨classes, hfiles, hnames, rfl⟩
    exact ⟨classes, ⟨hfiles, hnames⟩, rfl⟩
  · rintro ⟨classes, h, rfl⟩
    exact ⟨classes, h.files, h.names, rfl⟩

end Link

/-! ## Machines -/

namespace Machine

/-- The values of the static fields of each class. -/
abbrev StaticsOf (classes : Hierarchy) (blocks : List Statics) : Prop :=
  List.Forall₂ (fun c statics => classStatics c = .ok statics) classes blocks

theorem addClass_eq_ok {before : Hierarchy} {statics : Statics} {file : ClassFile}
    {done : Program × Statics} :
    addClass (before.map .ofLoaded, statics) file = .ok done ↔
      ∃ c own, LoadedClass.ofFile file = .ok c ∧ c.name ∉ before.map LoadedClass.name ∧
        classStatics c = .ok own ∧ done = ((before ++ [c]).map .ofLoaded, statics ++ own) := by
  have hknown (name : Text) :
      (Program.named? (before.map PreparedClass.ofLoaded) name).isSome = true ↔
        name ∈ before.map LoadedClass.name := by
    rw [Program.named?, find?_isSome_iff_mem_map, List.map_map]
    rfl
  unfold addClass
  cases hc : LoadedClass.ofFile file with
  | error e => exact ⟨nofun, nofun⟩
  | ok c =>
    simp only [Except.mapError, bind, Except.bind]
    by_cases hname : c.name ∈ before.map LoadedClass.name
    · rw [if_pos ((hknown c.name).mpr hname)]
      refine ⟨nofun, ?_⟩
      rintro ⟨_, _, ⟨⟩, hnew, -⟩
      exact absurd hname hnew
    · rw [if_neg fun h => hname ((hknown c.name).mp h)]
      cases hown : classStatics c with
      | error e =>
        refine ⟨nofun, ?_⟩
        rintro ⟨_, _, ⟨⟩, -, hown', -⟩
        cases hown.symm.trans hown'
      | ok own =>
        refine ⟨fun h => ?_, ?_⟩
        · cases h
          exact ⟨c, own, rfl, hname, hown, by rw [List.map_append]; rfl⟩
        · rintro ⟨_, own', ⟨⟩, -, hown', rfl⟩
          cases hown.symm.trans hown'
          rw [List.map_append]
          rfl

/-- Files behind classes that a machine already has. -/
theorem addClasses_after {before : Hierarchy} {statics : Statics}
    (hbefore : (before.map LoadedClass.name).Nodup) {files : List ClassFile}
    {done : Program × Statics} :
    files.foldlM addClass (before.map .ofLoaded, statics) = .ok done ↔
      ∃ classes blocks, FilesOf files classes ∧ ((before ++ classes).map LoadedClass.name).Nodup ∧
        StaticsOf classes blocks ∧
        done = ((before ++ classes).map .ofLoaded, statics ++ blocks.flatten) := by
  induction files generalizing before statics with
  | nil =>
    refine ⟨fun h => ?_, ?_⟩
    · cases h
      exact ⟨[], [], .nil, by rwa [List.append_nil], .nil, by simp⟩
    · rintro ⟨_, _, ⟨⟩, -, ⟨⟩, rfl⟩
      simp [pure, Except.pure]
  | cons file files ih =>
    refine ⟨fun h => ?_, ?_⟩
    · obtain ⟨next, hfile, h⟩ := bind_eq_ok.mp h
      obtain ⟨c, own, hc, hnew, hown, rfl⟩ := addClass_eq_ok.mp hfile
      obtain ⟨classes, blocks, hfiles, hnames, hblocks, rfl⟩ :=
        (ih (nodup_names_concat hbefore hnew)).mp h
      refine ⟨c :: classes, own :: blocks, .cons hc hfiles, ?_, .cons hown hblocks, ?_⟩
      · rwa [List.append_assoc] at hnames
      · rw [List.append_assoc, List.append_assoc]
        rfl
    · rintro ⟨_, _, hfiles, hnames, hblocks, rfl⟩
      cases hfiles with
      | @cons _ c _ classes hc hfiles =>
        cases hblocks with
        | @cons _ own _ blocks hown hblocks =>
          have hnew := not_mem_names hnames
          refine bind_eq_ok.mpr ⟨_, addClass_eq_ok.mpr ⟨c, own, hc, hnew, hown, rfl⟩, ?_⟩
          refine (ih (nodup_names_concat hbefore hnew)).mpr
            ⟨classes, blocks, hfiles, ?_, hblocks, ?_⟩
          · rw [List.append_assoc]
            exact hnames
          · rw [List.append_assoc, List.append_assoc]
            rfl

theorem ofFiles_eq_ok {files : List ClassFile} {m : Machine} :
    ofFiles files = .ok m ↔ ∃ classes blocks, Loads files classes ∧ StaticsOf classes blocks ∧
      m = { program := classes.map .ofLoaded, store := { statics := blocks.flatten } } := by
  have hnone : (([] : Hierarchy).map LoadedClass.name).Nodup := List.nodup_nil
  refine ⟨fun h => ?_, ?_⟩
  · obtain ⟨done, hdone, h⟩ := bind_eq_ok.mp h
    obtain ⟨classes, blocks, hfiles, hnames, hblocks, rfl⟩ := (addClasses_after hnone).mp hdone
    cases h
    exact ⟨classes, blocks, ⟨hfiles, hnames⟩, hblocks, rfl⟩
  · rintro ⟨classes, blocks, h, hblocks, rfl⟩
    exact bind_eq_ok.mpr ⟨_,
      (addClasses_after hnone).mpr ⟨classes, blocks, h.files, h.names, hblocks, rfl⟩, rfl⟩

end Machine

end ClassWasm
