/-
  How the first pass fails. Only three of its steps can: the scan for imports, the globals and the
  functions (`declarePass_error`). A failure leaves a function for every method so far, and no start
  function, body or link map (`declarePass_unfinished`).
-/
import ClassWasm.Proofs.Link.Stages

namespace ClassWasm.Link

/-! ## Errors -/

section

variable {Q : Error → Prop}

theorem typeIndex_throws (t : Wasm.FuncType) : Throws Q (typeIndex t) := throws_modifyGet _

theorem addImport_throws (ref : MemberRef) (name : Text) (type : Wasm.ImportType) :
    Throws Q (addImport ref name type) := throws_modify _

theorem importGlobal_throws (ref : MemberRef) (stores : Bool) :
    Throws Q (importGlobal ref stores) := by
  refine throws_get.bind fun l => ?_
  split
  · exact throws_pure _
  split
  · split
    · exact (throws_modify _).bind fun _ => throws_pure _
    · exact throws_pure _
  split
  · exact throws_pure _
  · exact (addImport_throws _ _ _).bind fun _ => throws_pure _

theorem importFunction_throws (ref : MemberRef) : Throws Q (importFunction ref) := by
  refine throws_get.bind fun l => ?_
  split
  · exact throws_pure _
  split
  · exact throws_pure _
  · exact (typeIndex_throws _).bind fun _ => (addImport_throws _ _ _).bind fun _ => throws_pure _

/-- What an instruction lacks is its answer, which its method reports. -/
theorem importFor_throws (op : Operation) : Throws Q (importFor op) := by
  unfold importFor
  dsimp only
  split
  · exact (importGlobal_throws _ _).bind fun _ => throws_pure _
  · exact (importGlobal_throws _ _).bind fun _ => throws_pure _
  · exact (importFunction_throws _).bind fun _ => throws_pure _
  · exact throws_pure _

theorem importForMethod_throws {cm : LoadedClass × Method × Code}
    (h : ∀ fault, Q (.method ⟨cm.1.name, cm.2.1.name, cm.2.1.descriptor⟩ fault)) :
    Throws Q (importForMethod cm) := by
  unfold importForMethod
  dsimp only
  split
  · exact throws_throw (h _)
  · refine throws_forM fun i _ => (importFor_throws i.op).bind fun x => ?_
    split
    · exact throws_pure ()
    · exact throws_throw (h _)

theorem declareGlobal_throws {owner : Text} {f : Field}
    (h : ∀ e, globalOf owner f = .error e → Q e) : Throws Q (declareGlobal owner f) := by
  unfold declareGlobal
  split
  · next e he => exact throws_throw (h e he)
  · exact throws_modify _

theorem declareFunction_throws {c : LoadedClass} {m : Method}
    (h : ∀ e, Descriptor.parseMethod m.descriptor = .error e →
      Q (.method ⟨c.name, m.name, m.descriptor⟩ (.descriptor e))) :
    Throws Q (declareFunction c m) := by
  unfold declareFunction
  dsimp only
  split
  · next e he => exact throws_throw (h e he)
  · exact throws_get.bind fun l => (typeIndex_throws _).bind fun _ => throws_modify _

theorem addExport_throws (kind : Wasm.ExternKind) (ref : MemberRef) (index : Nat) (name : Text) :
    Throws Q (addExport kind ref index name) := throws_modify _

theorem exportMethods_throws : Throws Q exportMethods :=
  throws_get.bind fun _ => throws_forM fun _ _ => addExport_throws _ _ _ _

theorem exportGlobals_throws : Throws Q exportGlobals := by
  refine throws_get.bind fun l => ?_
  split
  · exact throws_forM fun _ _ => addExport_throws _ _ _ _
  · exact throws_pure ()

theorem declareStart_throws : Throws Q declareStart := by
  refine throws_get.bind fun l => ?_
  split
  · exact (typeIndex_throws _).bind fun _ => throws_modify _
  · exact throws_pure ()

end

theorem globalOf_error {owner : Text} {f : Field} {e : Error} (h : globalOf owner f = .error e) :
    (∃ d, Descriptor.parseField f.descriptor = .error d ∧ e = .fieldDescriptor owner f.name d) ∨
      ∃ tag, e = .constant owner f.name tag f.descriptor := by
  unfold globalOf at h
  split at h
  · next d hd =>
    cases h
    exact .inl ⟨d, hd, rfl⟩
  · dsimp only at h
    split at h
    · cases h
    · split at h <;> cases h
      exact .inr ⟨_, rfl⟩

/-- The reasons for which the first pass fails on these classes: the code of a method where members
are imported, the constant or the descriptor of a field, and the descriptor of a method. -/
inductive DeclareFault (options : Options) (classes : Hierarchy) : Error → Prop
  | imports {cm : LoadedClass × Method × Code} (fault : MethodFault) :
    options.unresolved = .imported → cm ∈ staticMethods classes →
      DeclareFault options classes
        (.method ⟨cm.1.name, cm.2.1.name, cm.2.1.descriptor⟩ fault)
  | field {owner : Text} {f : Field} {e : Error} :
    (owner, f) ∈ staticFields classes → globalOf owner f = .error e →
      DeclareFault options classes e
  | method {cm : LoadedClass × Method × Code} {e : Descriptor.Error} :
    cm ∈ staticMethods classes → Descriptor.parseMethod cm.2.1.descriptor = .error e →
      DeclareFault options classes
        (.method ⟨cm.1.name, cm.2.1.name, cm.2.1.descriptor⟩ (.descriptor e))

section

variable {l l' : Linker} {e : Error}

theorem declarePass_error (hrun : declarePass l = .error e l') :
    DeclareFault l.options l.classes e := by
  rw [declarePass_eq] at hrun
  obtain hget | ⟨_, _, hget, hrun⟩ := run_bind_eq_error.mp hrun
  · cases hget
  cases hget
  have hglobals : Throws (DeclareFault l.options l.classes) (declareGlobals l.classes) :=
    throws_forM fun of hof => declareGlobal_throws fun e he => .field hof he
  have hfunctions : Throws (DeclareFault l.options l.classes) (declareFunctions l.classes) :=
    throws_forM fun cm hcm => declareFunction_throws fun e he => .method hcm he
  have hdefinitions : Throws (DeclareFault l.options l.classes) (definitions l.classes) :=
    hglobals.bind fun _ => hfunctions.bind fun _ => exportMethods_throws.bind fun _ =>
      exportGlobals_throws.bind fun _ => declareStart_throws.bind fun _ => throws_modify _
  dsimp only at hrun
  split at hrun
  · next hpolicy =>
    have himports : Throws (DeclareFault l.options l.classes)
        ((staticMethods l.classes).forM importForMethod) :=
      throws_forM fun cm hcm => importForMethod_throws fun fault => .imports fault hpolicy hcm
    exact (himports.bind fun _ => hdefinitions) _ _ _ hrun
  · exact hdefinitions _ _ _ hrun

/-! ## What a failure leaves behind -/

/-- There are functions for methods only, and neither bodies nor a link map. -/
structure Unfinished (l : Linker) : Prop where
  start : l.start = none
  linkMap : l.linkMap = none
  functions : l.module.functions.size = l.methods.length
  bodies : l.module.bodies = #[]

/-- What it depends on whether a linker is unfinished. -/
def Linker.progress (l : Linker) :
    Option Nat × Option LinkMap × Array UInt32 × List LinkedMethod × Array Wasm.FuncBody :=
  (l.start, l.linkMap, l.module.functions, l.methods, l.module.bodies)

theorem Unfinished.congr (h : Unfinished l) (heq : l'.progress = l.progress) : Unfinished l' := by
  simp only [Linker.progress, Prod.mk.injEq] at heq
  obtain ⟨hstart, hmap, hfunctions, hmethods, hbodies⟩ := heq
  exact ⟨by rw [hstart, h.start], by rw [hmap, h.linkMap],
    by rw [hfunctions, hmethods, h.functions],
    by rw [hbodies, h.bodies]⟩

theorem Unfinished.moves {α : Type} {x : M α} (h : Moves (Same Linker.progress) x) :
    Moves (Keeping Unfinished) x := by
  intro l
  have hx := h l
  cases hrun : x l <;> rw [hrun] at hx <;> exact fun hl => hl.congr hx

theorem declareFunction_unfinished (c : LoadedClass) (m : Method) :
    Moves (Keeping Unfinished) (declareFunction c m) := by
  unfold declareFunction
  dsimp only
  split
  · exact moves_throw _
  · refine moves_get.bind fun l₀ => Moves.bind ?_ fun type => moves_modify fun l h => ?_
    · exact Unfinished.moves (typeIndex_same Linker.progress (fun _ _ => rfl) _)
    · refine ⟨h.start, h.linkMap, ?_, h.bodies⟩
      simp [h.functions]

/-- The definitions that can fail come before the start function and the link map. -/
theorem definitions_unfinished {classes : Hierarchy} (h : Unfinished l)
    (hrun : definitions classes l = .error e l') : Unfinished l' := by
  have hglobals : Moves (Keeping Unfinished) (declareGlobals classes) :=
    moves_forM fun of _ =>
      Unfinished.moves (declareGlobal_same Linker.progress (fun _ _ _ => rfl) of.1 of.2)
  have hfunctions : Moves (Keeping Unfinished) (declareFunctions classes) :=
    moves_forM fun cm _ => declareFunction_unfinished cm.1 cm.2.1
  have hmethodExports : Moves (Keeping Unfinished) exportMethods :=
    Unfinished.moves (exportMethods_same Linker.progress fun _ _ _ => rfl)
  have hfieldExports : Moves (Keeping Unfinished) exportGlobals :=
    Unfinished.moves (exportGlobals_same Linker.progress fun _ _ _ => rfl)
  have hlast : Throws (fun _ => False) (do
      declareStart
      modify fun l => { l with linkMap := some (buildLinkMap l) } : M Unit) :=
    declareStart_throws.bind fun _ => throws_modify _
  exact hglobals.bind_error h hrun fun _ _ h₁ hrun =>
    hfunctions.bind_error h₁ hrun fun _ _ h₂ hrun =>
      hmethodExports.bind_error h₂ hrun fun _ _ h₃ hrun =>
        hfieldExports.bind_error h₃ hrun fun _ _ _ hrun => (hlast _ _ _ hrun).elim

theorem declarePass_unfinished (h : Unfinished l) (hrun : declarePass l = .error e l') :
    Unfinished l' := by
  rw [declarePass_eq] at hrun
  obtain hget | ⟨_, _, hget, hrun⟩ := run_bind_eq_error.mp hrun
  · cases hget
  cases hget
  have himports : Moves (Keeping Unfinished) ((staticMethods l.classes).forM importForMethod) :=
    moves_forM fun cm _ =>
      Unfinished.moves (importForMethod_same Linker.progress (fun _ _ _ _ => rfl) cm)
  dsimp only at hrun
  split at hrun
  · exact himports.bind_error h hrun fun _ _ h₁ hrun => definitions_unfinished h₁ hrun
  · exact definitions_unfinished h hrun

end

end ClassWasm.Link
