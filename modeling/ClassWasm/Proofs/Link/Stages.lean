/-
  The steps of the first pass and what each of them leaves alone. `Stages` names the linker between
  the steps; a view of the linker that a step does not touch is the same before and after it.
-/
import ClassWasm.Link.Linker
import ClassWasm.Proofs.Results

namespace ClassWasm.Link

/-- The globals of all static fields. -/
def declareGlobals (classes : Hierarchy) : M Unit :=
  (staticFields classes).forM fun (owner, f) => declareGlobal owner f

/-- The functions of all static methods with code. -/
def declareFunctions (classes : Hierarchy) : M Unit :=
  (staticMethods classes).forM fun (c, m, _) => declareFunction c m

/-- What the first pass does behind the imports. -/
def definitions (classes : Hierarchy) : M Unit := do
  declareGlobals classes
  declareFunctions classes
  exportMethods
  exportGlobals
  declareStart
  modify fun l => { l with linkMap := some (buildLinkMap l) }

theorem declarePass_eq : declarePass = (do
    let l ← get
    if l.options.unresolved = .imported then (staticMethods l.classes).forM importForMethod
    definitions l.classes) := rfl

/-- The linker between the steps of the first pass. -/
structure Stages (l l' : Linker) where
  imported : Linker
  globals : Linker
  functions : Linker
  methodExports : Linker
  exports : Linker
  started : Linker
  imported_run : if l.options.unresolved = .imported then
    (staticMethods l.classes).forM importForMethod l = .ok () imported else imported = l
  globals_run : ((staticFields l.classes).forM fun (owner, f) => declareGlobal owner f : M Unit)
    imported = .ok () globals
  functions_run : ((staticMethods l.classes).forM fun (c, m, _) => declareFunction c m : M Unit)
    globals = .ok () functions
  methodExports_run : exportMethods functions = .ok () methodExports
  exports_run : exportGlobals methodExports = .ok () exports
  started_run : declareStart exports = .ok () started
  done : l' = { started with linkMap := some (buildLinkMap started) }

theorem definitions_stages {l imported l' : Linker}
    (himported : if l.options.unresolved = .imported then
      (staticMethods l.classes).forM importForMethod l = .ok () imported else imported = l)
    (hrun : definitions l.classes imported = .ok () l') : Nonempty (Stages l l') := by
  obtain ⟨_, l₁, hglobals, hrun⟩ := run_bind_eq_ok.mp hrun
  obtain ⟨_, l₂, hfunctions, hrun⟩ := run_bind_eq_ok.mp hrun
  obtain ⟨_, l₃, hmethods, hrun⟩ := run_bind_eq_ok.mp hrun
  obtain ⟨_, l₄, hfields, hrun⟩ := run_bind_eq_ok.mp hrun
  obtain ⟨_, l₅, hstart, hrun⟩ := run_bind_eq_ok.mp hrun
  cases hrun
  exact ⟨⟨imported, l₁, l₂, l₃, l₄, l₅, himported, hglobals, hfunctions, hmethods, hfields, hstart,
    rfl⟩⟩

theorem declarePass_stages {l l' : Linker} (hrun : declarePass l = .ok () l') :
    Nonempty (Stages l l') := by
  rw [declarePass_eq] at hrun
  obtain ⟨l₀, _, hget, hrun⟩ := run_bind_eq_ok.mp hrun
  cases hget
  dsimp only at hrun
  split at hrun
  · next hpolicy =>
    obtain ⟨_, l₁, himport, hrun⟩ := run_bind_eq_ok.mp hrun
    exact definitions_stages (by rw [if_pos hpolicy]; exact himport) hrun
  · next hpolicy => exact definitions_stages (by rw [if_neg hpolicy]) hrun

/-! ## What a step leaves alone -/

section

variable {β : Type} (view : Linker → β)

theorem typeIndex_same (h : ∀ l types, view { l with module := { l.module with types } } = view l)
    (t : Wasm.FuncType) : Moves (Same view) (typeIndex t) := moves_modifyGet fun l => h l _

theorem makeMutable_same
    (h : ∀ l imports, view { l with module := { l.module with imports } } = view l)
    (ref : MemberRef) : Moves (Same view) (makeMutable ref) := by
  refine moves_modify fun l => ?_
  dsimp only
  split
  · exact Std.Refl.refl l
  · exact h l _

section

variable (h : ∀ l members types imports,
  view { l with imports := members, module := { l.module with types, imports } } = view l)

include h

theorem addImport_same (ref : MemberRef) (name : Text) (type : Wasm.ImportType) :
    Moves (Same view) (addImport ref name type) := moves_modify fun l => h l _ l.module.types _

theorem importGlobal_same (ref : MemberRef) (stores : Bool) :
    Moves (Same view) (importGlobal ref stores) := by
  refine moves_get.bind fun l => ?_
  split
  · exact moves_pure _
  split
  · split
    · have hmutable :=
        makeMutable_same view (fun l imports => h l l.imports l.module.types imports) ref
      exact hmutable.bind fun _ => moves_pure _
    · exact moves_pure _
  split
  · exact moves_pure _
  · exact (addImport_same view h _ _ _).bind fun _ => moves_pure _

theorem importFunction_same (ref : MemberRef) : Moves (Same view) (importFunction ref) := by
  refine moves_get.bind fun l => ?_
  split
  · exact moves_pure _
  split
  · exact moves_pure _
  · refine Moves.bind (typeIndex_same view (fun l types => ?_) _) fun _ =>
      (addImport_same view h _ _ _).bind fun _ => moves_pure _
    exact h l l.imports types l.module.imports

theorem importFor_same (op : Operation) : Moves (Same view) (importFor op) := by
  unfold importFor
  dsimp only
  split
  · exact (importGlobal_same view h _ _).bind fun _ => moves_pure _
  · exact (importGlobal_same view h _ _).bind fun _ => moves_pure _
  · exact (importFunction_same view h _).bind fun _ => moves_pure _
  · exact moves_pure _

theorem importForMethod_same (cm : LoadedClass × Method × Code) :
    Moves (Same view) (importForMethod cm) := by
  unfold importForMethod
  dsimp only
  split
  · exact moves_throw _
  · refine moves_forM fun i _ => (importFor_same view h i.op).bind fun x => ?_
    split
    · exact moves_pure ()
    · exact moves_throw _

end

theorem declareGlobal_same
    (h : ∀ l globalIndices globals,
      view { l with globalIndices, module := { l.module with globals } } = view l)
    (owner : Text) (f : Field) : Moves (Same view) (declareGlobal owner f) := by
  unfold declareGlobal
  split
  · exact moves_throw _
  · exact moves_modify fun l => h l _ _

theorem declareFunction_same
    (h : ∀ l functionIndices methods initialisers types functions,
      view { l with
        functionIndices, methods, initialisers
        module := { l.module with types, functions } } = view l)
    (c : LoadedClass) (m : Method) : Moves (Same view) (declareFunction c m) := by
  unfold declareFunction
  dsimp only
  split
  · exact moves_throw _
  · have htypes (l : Linker) (types : Array Wasm.FuncType) :
        view { l with module := { l.module with types } } = view l :=
      h l l.functionIndices l.methods l.initialisers types l.module.functions
    exact moves_get.bind fun l => (typeIndex_same view htypes _).bind fun type =>
      moves_modify fun l => h l _ _ _ l.module.types _

theorem addExport_same
    (h : ∀ l exportNames exports,
      view { l with exportNames, module := { l.module with exports } } = view l)
    (kind : Wasm.ExternKind) (ref : MemberRef) (index : Nat) (name : Text) :
    Moves (Same view) (addExport kind ref index name) := moves_modify fun l => h l _ _

theorem exportMethods_same
    (h : ∀ l exportNames exports,
      view { l with exportNames, module := { l.module with exports } } = view l) :
    Moves (Same view) exportMethods :=
  moves_get.bind fun _ => moves_forM fun _ _ => addExport_same view h _ _ _ _

theorem exportGlobals_same
    (h : ∀ l exportNames exports,
      view { l with exportNames, module := { l.module with exports } } = view l) :
    Moves (Same view) exportGlobals := by
  refine moves_get.bind fun l => ?_
  split
  · exact moves_forM fun _ _ => addExport_same view h _ _ _ _
  · exact moves_pure ()

theorem declareStart_same
    (h : ∀ l start types functions mark,
      view { l with
        start, module := { l.module with types, functions, start := mark } } = view l) :
    Moves (Same view) declareStart := by
  refine moves_get.bind fun l => ?_
  split
  · have htypes (l : Linker) (types : Array Wasm.FuncType) :
        view { l with module := { l.module with types } } = view l :=
      h l l.start types l.module.functions l.module.start
    exact (typeIndex_same view htypes _).bind fun type =>
      moves_modify fun l => h l _ l.module.types _ _
  · exact moves_pure ()

namespace Stages

variable {l l' : Linker} (s : Stages l l')

theorem same_of_exports
    (hstart : ∀ l start types functions mark,
      view { l with
        start, module := { l.module with types, functions, start := mark } } = view l)
    (hmap : ∀ l linkMap, view { l with linkMap } = view l) : view l' = view s.exports := by
  have hmarked := (declareStart_same view hstart).of_ok s.started_run
  calc
    view l' = view { s.started with linkMap := some (buildLinkMap s.started) } := by rw [← s.done]
    _ = view s.started := hmap _ _
    _ = view s.exports := hmarked

/-- What exports and the start function do not touch stays after all methods have a function. -/
theorem same_of_functions
    (hexport : ∀ l exportNames exports,
      view { l with exportNames, module := { l.module with exports } } = view l)
    (hstart : ∀ l start types functions mark,
      view { l with
        start, module := { l.module with types, functions, start := mark } } = view l)
    (hmap : ∀ l linkMap, view { l with linkMap } = view l) : view l' = view s.functions := by
  have h₁ := (exportMethods_same view hexport).of_ok s.methodExports_run
  have h₂ := (exportGlobals_same view hexport).of_ok s.exports_run
  exact (s.same_of_exports view hstart hmap).trans (h₂.trans h₁)

theorem same_of_globals
    (hfunction : ∀ l functionIndices methods initialisers types functions,
      view { l with
        functionIndices, methods, initialisers
        module := { l.module with types, functions } } = view l) :
    view s.functions = view s.globals := by
  have h : Moves (Same view) (declareFunctions l.classes) :=
    moves_forM fun cm _ => declareFunction_same view hfunction cm.1 cm.2.1
  exact h.of_ok s.functions_run

theorem same_of_start
    (himport : ∀ l members types imports,
      view { l with imports := members, module := { l.module with types, imports } } = view l) :
    view s.imported = view l := by
  have hrun := s.imported_run
  split at hrun
  · exact (moves_forM fun cm _ => importForMethod_same view himport cm).of_ok hrun
  · rw [hrun]

theorem same_of_imported
    (hglobal : ∀ l globalIndices globals,
      view { l with globalIndices, module := { l.module with globals } } = view l) :
    view s.globals = view s.imported := by
  have h : Moves (Same view) (declareGlobals l.classes) :=
    moves_forM fun of _ => declareGlobal_same view hglobal of.1 of.2
  exact h.of_ok s.globals_run

/-- What definitions of imports, globals and functions do not touch stays until all are there. -/
theorem same_until_functions
    (himport : ∀ l members types imports,
      view { l with imports := members, module := { l.module with types, imports } } = view l)
    (hglobal : ∀ l globalIndices globals,
      view { l with globalIndices, module := { l.module with globals } } = view l)
    (hfunction : ∀ l functionIndices methods initialisers types functions,
      view { l with
        functionIndices, methods, initialisers
        module := { l.module with types, functions } } = view l) :
    view s.functions = view l :=
  calc view s.functions
      = view s.globals := s.same_of_globals view hfunction
    _ = view s.imported := s.same_of_imported view hglobal
    _ = view l := s.same_of_start view himport

end Stages

end

end ClassWasm.Link
