/-
  What runs first. The start function calls every static method with code that has the name of
  initialisers; to initialise a class, the machine runs the first method of that name which takes
  and returns nothing, static or not. Where every class has one initialiser at most and a static
  one, the start function calls, class by class, just what the machine would run, and it is valid
  (`Linker.starts`).
-/
import ClassWasm.Proofs.Link.Dispatch
import ClassWasm.Proofs.Link.InitialValues
import ClassWasm.Proofs.Wasm.Validation

namespace ClassWasm

/-! ## Items that come once at most -/

theorem filter_eq_find? {α : Type} {p : α → Bool} {as : List α} (h : as.countP p ≤ 1) :
    as.filter p = (as.find? p).toList := by
  induction as with
  | nil => rfl
  | cons a as ih =>
    by_cases ha : p a = true
    · rw [List.countP_cons_of_pos ha] at h
      have hnone : as.countP p = 0 := by omega
      rw [List.filter_cons_of_pos ha, List.find?_cons_of_pos ha,
        List.filter_eq_nil_iff.mpr (List.countP_eq_zero.mp hnone)]
      rfl
    · rw [List.countP_cons_of_neg ha] at h
      rw [List.filter_cons_of_neg ha, List.find?_cons_of_neg ha, ih h]

theorem filterMap_toList {α β : Type} (f : α → Option β) (a? : Option α) :
    a?.toList.filterMap f = (a?.bind f).toList := by
  cases a? with
  | none => rfl
  | some a => cases h : f a <;> simp [h]

/-- Items that correspond to what others have, put in the places of those that have something. -/
theorem exists_reduceOption {α β γ : Type} {R : α → γ → Prop} {f : β → Option γ} {as : List α}
    {bs : List β} (h : List.Forall₂ R as (bs.filterMap f)) :
    ∃ items : List (Option α), items.reduceOption = as ∧
      List.Forall₂ (fun b item => Option.Rel R item (f b)) bs items := by
  induction bs generalizing as with
  | nil =>
    cases h
    exact ⟨[], rfl, .nil⟩
  | cons b bs ih =>
    cases hb : f b with
    | none =>
      rw [List.filterMap_cons_none hb] at h
      obtain ⟨items, hitems, hrel⟩ := ih h
      refine ⟨none :: items, by rw [List.reduceOption_cons_of_none, hitems], .cons ?_ hrel⟩
      rw [hb]
      exact .none
    | some c =>
      rw [List.filterMap_cons_some hb] at h
      cases h with
      | @cons a _ as _ hac has =>
        obtain ⟨items, hitems, hrel⟩ := ih has
        refine ⟨some a :: items, by rw [List.reduceOption_cons_of_some, hitems], .cons ?_ hrel⟩
        rw [hb]
        exact .some hac

namespace Link

open Machine (Routine PreparedClass runInitialiser)

/-- A class has one initialiser at most. What the linker takes for one, static and of that name,
also takes and returns nothing; what the machine takes for one, of that name and type, is also
static. -/
structure OneInitialiser (file : ClassFile) : Prop where
  type : ∀ m ∈ file.methods, m.name = initialiserName → m.access.isStatic = true →
    m.code?.isSome = true → m.descriptor = "()V"
  static : ∀ m ∈ file.methods, m.name = initialiserName → m.descriptor = "()V" →
    m.code?.isSome = true → m.access.isStatic = true
  once : file.methods.countP
    (fun m : Method => m.name = initialiserName ∧ m.descriptor = "()V") ≤ 1

/-! ## One class -/

/-- The method that is run to initialise a class. -/
def initialiser? (c : LoadedClass) : Option (LoadedClass × Method × Code) :=
  (c.file.findMethod? initialiserName "()V").bind fun m => m.code?.map fun code => (c, m, code)

theorem OneInitialiser.filter_methods {c : LoadedClass} (h : OneInitialiser c.file) :
    ((c.file.methods.filterMap fun m =>
      if m.access.isStatic then m.code?.map fun code => (c, m, code) else none).filter
        fun cm => cm.2.1.name = initialiserName) = (initialiser? c).toList := by
  -- Among methods of the name that have code, the static ones are those of the type.
  have hcongr : ∀ m ∈ c.file.methods,
      (if m.access.isStatic then m.code?.map fun code => (c, m, code) else none).filter
        (fun cm => decide (cm.2.1.name = initialiserName)) =
      if decide (m.name = initialiserName ∧ m.descriptor = "()V") = true then
        m.code?.map fun code => (c, m, code) else none := by
    intro m hm
    have htype := h.type m hm
    have hstatic := h.static m hm
    cases hcode : m.code? with
    | none => simp
    | some code =>
      rw [hcode] at htype hstatic
      by_cases hname : m.name = initialiserName
      · by_cases hd : m.descriptor = "()V"
        · simp [hname, hd, hstatic hname hd rfl]
        · have hno : m.access.isStatic = false := by
            rw [Bool.eq_false_iff]
            exact fun hs => hd (htype hname hs rfl)
          simp [hd, hno]
      · cases m.access.isStatic <;> simp [hname]
  rw [List.filter_filterMap, List.filterMap_congr hcongr, ← List.filterMap_filter,
    filter_eq_find? h.once]
  exact filterMap_toList _ _

/-- What the machine does to initialise a class alone: nothing, or to run a method of the class. -/
inductive Initialises (c : PreparedClass) : Option LinkedMethod → Prop
  | nothing : (∀ call, runInitialiser call c = pure ()) → Initialises c none
  | method {m : LinkedMethod} {code : Code} {r : Routine} : m.owner = c.name →
    m.pool = c.file.pool → m.method ∈ c.file.methods → m.method.code? = some code →
    Routine.load m.owner m.pool m.method code = .ok r →
    (∀ call, runInitialiser call c = (call r [] >>= fun _ => pure ())) →
    Initialises c (some m)

theorem runInitialiser_ofLoaded (call : Machine.Caller) (c : LoadedClass) :
    runInitialiser call (.ofLoaded c) = match initialiser? c with
      | none => pure ()
      | some (_, m, code) => match Routine.load c.name c.file.pool m code with
        | .error e => throw (.error (.load e))
        | .ok r => call r [] >>= fun _ => pure () := by
  have hroutine : ((PreparedClass.ofLoaded c).findMethod? "<clinit>" "()V").bind
      Machine.PreparedMethod.routine? =
        (initialiser? c).map fun cm => Routine.load c.name c.file.pool cm.2.1 cm.2.2 := by
    rw [Machine.findMethod?_ofLoaded]
    unfold initialiser? initialiserName
    cases c.file.findMethod? "<clinit>" "()V" with
    | none => rfl
    | some m => cases hcode : m.code? <;> simp [Machine.PreparedMethod.of, hcode]
  unfold runInitialiser
  rw [hroutine]
  cases initialiser? c with
  | none => rfl
  | some cm => cases hload : Routine.load c.name c.file.pool cm.2.1 cm.2.2 <;> simp [hload]

theorem mem_of_initialiser? {c : LoadedClass} {cm : LoadedClass × Method × Code}
    (h : initialiser? c = some cm) :
    cm.1 = c ∧ cm.2.1 ∈ c.file.methods ∧ cm.2.1.code? = some cm.2.2 := by
  obtain ⟨m, hm, h⟩ := Option.bind_eq_some_iff.mp h
  obtain ⟨code, hcode, rfl⟩ := Option.map_eq_some_iff.mp h
  exact ⟨rfl, List.mem_of_find?_eq_some hm, hcode⟩

/-! ## All classes -/

section

variable {options : Options} {classes : Hierarchy} {start : Option Nat} {l l' : Linker}

theorem filter_staticMethods (h : ∀ c ∈ classes, OneInitialiser c.file) :
    ((staticMethods classes).filter fun cm => cm.2.1.name = initialiserName) =
      classes.filterMap initialiser? := by
  unfold staticMethods
  rw [List.filter_flatMap, List.filterMap_eq_flatMap_toList]
  exact List.flatMap_congr fun c hc => (h c hc).filter_methods

/-- There is a start function where there is something to call, and it has the type of
initialisers. -/
theorem declareStart_signed (hnone : l.start = none) (hrun : declareStart l = .ok () l') :
    l'.start.isSome = (l.options.start && !l.initialisers.isEmpty) ∧
      ∀ i ∈ l'.start, Signed l'.module "()V" i := by
  obtain ⟨l₁, _, hget, hrun⟩ := run_bind_eq_ok.mp hrun
  cases hget
  split at hrun
  · next hsome =>
    cases hrun
    refine ⟨hsome.symm, ?_⟩
    rintro i ⟨⟩
    exact signed_function parseMethod_void (Lowering.internType_spec _ _).1
  · next hsome =>
    cases hrun
    rw [hnone]
    exact ⟨(Bool.eq_false_iff.mpr hsome).symm, nofun⟩

theorem Stages.start_signed (s : Stages l l') (h : l.starting = (none, none)) :
    l'.start.isSome = (l'.options.start && !l'.initialisers.isEmpty) ∧
      ∀ i ∈ l'.start, Signed l'.module "()V" i := by
  have hnone := congrArg Prod.fst (s.starting_of_exports.trans h)
  obtain ⟨hsome, hsigned⟩ := declareStart_signed hnone s.started_run
  have hview := s.same_of_exports (fun l => (l.options, l.initialisers)) (fun _ _ _ _ _ => rfl)
    fun _ _ => rfl
  obtain ⟨hoptions, hinitialisers⟩ := Prod.mk.inj hview
  have hstart : l'.start = s.started.start := (congrArg Linker.start s.done).trans rfl
  have hmodule : l'.module = s.started.module := (congrArg Linker.module s.done).trans rfl
  rw [hstart, hmodule, hoptions, hinitialisers]
  exact ⟨hsome, hsigned⟩

/-- The start function calls the functions of these methods, one behind the other. Without any there
is none. -/
structure Calls (l l' : Linker) (called : List LinkedMethod) : Prop where
  absent : called = [] → l'.module.start = none
  present : called ≠ [] → ∃ i, l'.module.start = some (UInt32.ofNat i) ∧
    i = l'.methods.length + l'.module.importCount .func ∧
    l'.module.bodies[l'.methods.length]? =
      some (startFunction (called.map LinkedMethod.index)).encode
  functions : ∀ m ∈ called, ∃ k body, l'.methods[k]? = some m ∧
    m.index = k + l'.module.importCount .func ∧ l'.module.bodies[k]? = some body ∧
    Lowers l l' m body

/-- The functions of the module have their types in the scope. -/
def Covers (scope : Wasm.Scope) (m : Wasm.Module) : Prop :=
  ∀ i t, m.functionType? i = some t → scope.functions[i]? = some t

theorem startFunction_valid {scope : Wasm.Scope} {indices : List Nat}
    (h : ∀ i ∈ indices, scope.functions[(UInt32.ofNat i).toNat]? = some ⟨[], []⟩) :
    Wasm.ValidBody scope ⟨[], []⟩ [] (startFunction indices).body := by
  unfold Wasm.ValidBody startFunction
  induction indices with
  | nil => exact .nil _ _
  | cons i indices ih =>
    obtain ⟨hi, hindices⟩ := List.forall_mem_cons.mp h
    exact .cons [] (.plain (.typed hi)) (ih hindices)

theorem Calls.of_complete (h : Complete l l') (hlater : Later l l')
    (hmark : l.module.start = l.start.map UInt32.ofNat)
    (hsome : l.start.isSome = !l.initialisers.isEmpty)
    (hinitialisers : l.initialisers =
      (l.methods.filter fun m => m.method.name = initialiserName).map LinkedMethod.index) :
    Calls l l' (l.methods.filter fun m => m.method.name = initialiserName) := by
  obtain ⟨emitted, types, bodies, -, rfl⟩ := hlater
  rw [hinitialisers, List.isEmpty_map] at hsome
  refine ⟨fun hnone => ?_, fun hcalled => ?_, fun m hm => ?_⟩
  · rw [hnone] at hsome
    change l.module.start = none
    rw [hmark, Option.isNone_iff_eq_none.mp (Option.isSome_eq_false_iff.mp hsome)]
    rfl
  · rw [List.isEmpty_eq_false_iff.mpr hcalled] at hsome
    obtain ⟨i, hi⟩ := Option.isSome_iff_exists.mp hsome
    obtain ⟨hindex, hbody⟩ := h.start i hi
    exact ⟨i, by rw [hmark, hi]; rfl, hindex, hbody⟩
  · obtain ⟨k, hk⟩ := List.mem_iff_getElem?.mp (List.mem_of_mem_filter hm)
    obtain ⟨hindex, body, hbody, hlowers⟩ := h.methods k m hk
    exact ⟨k, body, hk, hindex, hbody, hlowers⟩

/-- The class of a linked method, its constants and the method in it. -/
def LinkedMethod.source (m : LinkedMethod) : Text × Pool × Method := (m.owner, m.pool, m.method)

theorem Declares.filter_methods {fields : List (Text × Field)}
    (h : Declares options classes fields (staticMethods classes) start l)
    (hone : ∀ c ∈ classes, OneInitialiser c.file) :
    (l.methods.filter fun m => m.method.name = initialiserName).map LinkedMethod.source =
      (classes.filterMap initialiser?).map fun cm => (cm.1.name, cm.1.file.pool, cm.2.1) := by
  let named (source : Text × Pool × Method) : Bool := source.2.2.name = initialiserName
  calc (l.methods.filter (named ∘ LinkedMethod.source)).map LinkedMethod.source
      = (l.methods.map LinkedMethod.source).filter named := List.filter_map.symm
    _ = ((staticMethods classes).map
        fun cm => (cm.1.name, cm.1.file.pool, cm.2.1)).filter named := by
      rw [h.methods_eq]
      exact congrArg (List.filter named) (map_numbered _ _)
    _ = ((staticMethods classes).filter fun cm => cm.2.1.name = initialiserName).map _ :=
      List.filter_map
    _ = (classes.filterMap initialiser?).map _ := by rw [filter_staticMethods hone]

/-- What is lowered for a class is what the machine runs for it. -/
theorem initialises_of_lowers {c : LoadedClass} {cm : LoadedClass × Method × Code}
    {m : LinkedMethod} {body : Wasm.FuncBody} (hc : initialiser? c = some cm)
    (hlowers : Lowers l l' m body)
    (hsource : m.source = (cm.1.name, cm.1.file.pool, cm.2.1)) :
    Initialises (.ofLoaded c) (some m) := by
  obtain ⟨rfl, hmem, hcode⟩ := mem_of_initialiser? hc
  obtain ⟨howner, hsource⟩ := Prod.mk.inj hsource
  obtain ⟨hpool, hmethod⟩ := Prod.mk.inj hsource
  obtain ⟨code, r, -, hcode', hload, -⟩ := hlowers.loads
  rw [hmethod] at hcode'
  obtain rfl := Option.some.inj (hcode.symm.trans hcode')
  refine .method howner hpool (hmethod ▸ hmem) (hmethod ▸ hcode) hload fun call => ?_
  rw [runInitialiser_ofLoaded, hc]
  dsimp only
  rw [← howner, ← hpool, ← hmethod, hload]

theorem initialises_of_rel {c : LoadedClass} {item : Option LinkedMethod}
    (h : Option.Rel (fun m cm => (∃ body, Lowers l l' m body) ∧
      m.source = (cm.1.name, cm.1.file.pool, cm.2.1)) item (initialiser? c)) :
    Initialises (.ofLoaded c) item := by
  cases hc : initialiser? c with
  | none =>
    rw [hc] at h
    cases h
    exact .nothing fun call => by rw [runInitialiser_ofLoaded, hc]
  | some cm =>
    rw [hc] at h
    cases h with
    | some h =>
      obtain ⟨⟨body, hlowers⟩, hsource⟩ := h
      exact initialises_of_lowers hc hlowers hsource

theorem Declares.exists_initialisers {fields : List (Text × Field)}
    (h : Declares options classes fields (staticMethods classes) start l)
    (hone : ∀ c ∈ classes, OneInitialiser c.file)
    (hlowers : ∀ m ∈ l.methods.filter (fun m => m.method.name = initialiserName),
      ∃ body, Lowers l l' m body) :
    ∃ initialisers : List (Option LinkedMethod),
      initialisers.reduceOption = l.methods.filter (fun m => m.method.name = initialiserName) ∧
      List.Forall₂ Initialises (classes.map .ofLoaded) initialisers := by
  have hsources := List.forall₂_eq_eq_eq ▸ h.filter_methods hone
  have hrel := List.forall₂_map_right_iff.mp (List.forall₂_map_left_iff.mp hsources)
  obtain ⟨initialisers, hcalled, hitems⟩ :=
    exists_reduceOption ((List.forall₂_and_left _ _).mpr ⟨hlowers, hrel⟩)
  refine ⟨initialisers, hcalled, List.forall₂_map_left_iff.mpr ?_⟩
  exact hitems.imp fun c item hitem => initialises_of_rel hitem

/-- The functions of initialisers have the type of the descriptor that all of them have. -/
theorem Declares.initialiser_signed {fields : List (Text × Field)}
    (h : Declares options classes fields (staticMethods classes) start l)
    (hone : ∀ c ∈ classes, OneInitialiser c.file) {m : LinkedMethod}
    (hm : m ∈ l.methods.filter fun m => m.method.name = initialiserName) :
    Signed l.module "()V" m.index := by
  obtain ⟨hmem, hname⟩ := List.mem_filter.mp hm
  obtain ⟨cm, hcm, -, -, hmethod⟩ := of_mem_numbered (h.methods_eq ▸ hmem)
  obtain ⟨hc, hfile, hstatic, hcode⟩ := mem_staticMethods.mp hcm
  have hd : m.method.descriptor = "()V" := by
    rw [hmethod] at hname ⊢
    exact (hone cm.1 hc).type cm.2.1 hfile (of_decide_eq_true hname) hstatic
      (Option.isSome_of_eq_some hcode)
  rw [← hd]
  refine h.functions (m.ref, m.index) ?_
  rw [h.indices_eq]
  exact List.mem_reverse.mpr (List.mem_map_of_mem hmem)

theorem Signed.initialiserType {m : Wasm.Module} {i : Nat} (h : Signed m "()V" i)
    (hroom : m.types.size ≤ 2 ^ 32) : m.functionType? i = some ⟨[], []⟩ := by
  obtain ⟨-, t, ht, htype⟩ := h.functionType? hroom
  cases parseMethod_void.symm.trans ht
  exact htype

/-- A machine can be set up from what has been declared, and has the same classes. -/
theorem exists_machine {files : List ClassFile} {added : Linker}
    (hadd : Linker.addAll { options } files = .ok added) (hdeclare : added.declare = (.ok (), l)) :
    ∃ machine, Machine.ofFiles files = .ok machine ∧
      machine.program = added.classes.map .ofLoaded := by
  obtain ⟨classes, hloads, rfl⟩ := Linker.addAll_eq_ok.mp hadd
  obtain ⟨machine, hmachine⟩ :=
    exists_ofFiles.mpr ⟨classes, hloads, startable_of_declare hdeclare⟩
  obtain ⟨classes', _, hloads', -, rfl⟩ := Machine.ofFiles_eq_ok.mp hmachine
  exact ⟨_, hmachine, by rw [hloads.files.unique hloads'.files]⟩

/-- The start function calls the static methods with code that have the name of initialisers. Where
every class has one initialiser at most and a static one, those are the methods that the machine
runs to initialise the classes one by one, all of them take and return nothing, and the start
function, which has the same type, is valid. -/
theorem Linker.starts {files : List ClassFile} {added : Linker} (hstart : options.start = true)
    (hadd : Linker.addAll { options } files = .ok added) (hdeclare : added.declare = (.ok (), l))
    (hemit : l.emit.1 = .ok ()) :
    Calls l l.emit.2 (l.methods.filter fun m => m.method.name = initialiserName) ∧
    ((∀ file ∈ files, OneInitialiser file) → ∃ machine initialisers,
      Machine.ofFiles files = .ok machine ∧
      List.Forall₂ Initialises machine.program initialisers ∧
      Calls l l.emit.2 initialisers.reduceOption ∧
      (l.module.types.size ≤ 2 ^ 32 →
        l.module.importCount .func + l.module.functions.size ≤ 2 ^ 32 →
        (∀ m ∈ initialisers.reduceOption,
          l.emit.2.module.functionType? m.index = some ⟨[], []⟩) ∧
        (∀ i ∈ l.emit.2.start, l.emit.2.module.functionType? i = some ⟨[], []⟩) ∧
        ∀ scope, Covers scope l.emit.2.module → Wasm.ValidBody scope ⟨[], []⟩ []
          (startFunction (initialisers.reduceOption.map LinkedMethod.index)).body)) := by
  obtain ⟨start, hfiles, hdeclares, ⟨stages⟩⟩ := Linker.declare_stages hadd hdeclare
  have hcomplete := hdeclares.complete_of_emit hemit
  have hlater := l.emit_later
  obtain ⟨hsome, hsigned⟩ := stages.start_signed rfl
  rw [hdeclares.options_eq, hstart, Bool.true_and] at hsome
  have hcalls := Calls.of_complete hcomplete hlater (stages.start_eq rfl) hsome
    hdeclares.initialisers_eq
  refine ⟨hcalls, fun hone => ?_⟩
  have hclasses : ∀ c ∈ added.classes, OneInitialiser c.file := fun c hc =>
    hone c.file (hfiles ▸ List.mem_map_of_mem hc)
  obtain ⟨initialisers, hcalled, hinitialises⟩ :=
    hdeclares.exists_initialisers hclasses fun m hm => by
      obtain ⟨_, body, -, -, -, hlowers⟩ := hcalls.functions m hm
      exact ⟨body, hlowers⟩
  obtain ⟨machine, hmachine, hprogram⟩ := exists_machine hadd hdeclare
  refine ⟨machine, initialisers, hmachine, hprogram ▸ hinitialises, hcalled ▸ hcalls, ?_⟩
  intro htypes hfunctions
  have hinitialiser (m : LinkedMethod) (hm : m ∈ initialisers.reduceOption) :=
    hdeclares.initialiser_signed hclasses (hcalled ▸ hm)
  refine ⟨fun m hm => hlater.functionType? ((hinitialiser m hm).initialiserType htypes), ?_, ?_⟩
  · intro i hi
    rw [hlater.settled.1] at hi
    exact hlater.functionType? ((hsigned i hi).initialiserType htypes)
  · intro scope hcovers
    refine startFunction_valid fun i hi => ?_
    obtain ⟨m, hm, rfl⟩ := List.mem_map.mp hi
    have hlt := ((hinitialiser m hm).functionType? htypes).1
    rw [UInt32.toNat_ofNat_of_lt' (hlt.trans_le hfunctions)]
    exact hcovers _ _ (hlater.functionType? ((hinitialiser m hm).initialiserType htypes))

theorem starts_calling :
    ({ unresolved := .imported } : Options).start = true ∧
      Linker.addAll { options := { unresolved := .imported } } [callingFile] = .ok callingLinker ∧
      callingLinker.declare = (.ok (), callingDeclared) ∧ callingDeclared.emit.1 = .ok () ∧
      Calls callingDeclared callingDeclared.emit.2 [settingLinked] ∧
      ∃ machine initialisers, Machine.ofFiles [callingFile] = .ok machine ∧
        List.Forall₂ Initialises machine.program initialisers ∧
        Calls callingDeclared callingDeclared.emit.2 initialisers.reduceOption ∧
        (∀ m ∈ initialisers.reduceOption,
          callingDeclared.emit.2.module.functionType? m.index = some ⟨[], []⟩) ∧
        ∀ scope, Covers scope callingDeclared.emit.2.module → Wasm.ValidBody scope ⟨[], []⟩ []
          (startFunction (initialisers.reduceOption.map LinkedMethod.index)).body := by
  have hadd : Linker.addAll { options := { unresolved := .imported } } [callingFile] =
      .ok callingLinker := rfl
  obtain ⟨hcalls, hmachine⟩ := Linker.starts rfl hadd declare_calling emit_calling
  rw [methods_calling] at hcalls
  have hone : ∀ file ∈ [callingFile], OneInitialiser file := by
    intro file hfile
    rw [List.mem_singleton.mp hfile]
    exact ⟨by decide, by decide, by decide⟩
  obtain ⟨machine, initialisers, hof, hinitialises, hcalls', hvalid⟩ := hmachine hone
  obtain ⟨htypes, -, hbody⟩ := hvalid (by decide +kernel) (by decide +kernel)
  exact ⟨rfl, hadd, declare_calling, emit_calling, hcalls, machine, initialisers, hof,
    hinitialises, hcalls', htypes, hbody⟩

/-! ## A class with two methods of the name of initialisers -/

/-- A class with `static <clinit>()V` and `static <clinit>(I)V`, both of which return at once. -/
def overloadedBytes : Bytes :=
  [0xca, 0xfe, 0xba, 0xbe, 0, 0, 0, 52, 0, 7, 1, 0, 1, 0x41, 7, 0, 1,
    1, 0, 8, 0x3c, 0x63, 0x6c, 0x69, 0x6e, 0x69, 0x74, 0x3e, 1, 0, 3, 0x28, 0x29, 0x56,
    1, 0, 4, 0x43, 0x6f, 0x64, 0x65, 1, 0, 4, 0x28, 0x49, 0x29, 0x56,
    0, 0x21, 0, 2, 0, 0, 0, 0, 0, 0, 0, 2,
    0, 8, 0, 3, 0, 4, 0, 1, 0, 5, 0, 0, 0, 13, 0, 0, 0, 1, 0, 0, 0, 1, 0xb1, 0, 0, 0, 0,
    0, 8, 0, 3, 0, 6, 0, 1, 0, 5, 0, 0, 0, 13, 0, 0, 0, 1, 0, 0, 0, 1, 0xb1, 0, 0, 0, 0, 0, 0]

def overloadedPool : Pool :=
  ⟨#[none, some (.utf8 "A"), some (.classRef 1), some (.utf8 "<clinit>"), some (.utf8 "()V"),
    some (.utf8 "Code"), some (.utf8 "(I)V")]⟩

/-- Returns at once. -/
def emptyMethod (descriptor : Text) : Method :=
  ⟨⟨0x0008⟩, initialiserName, descriptor, [.code ⟨0, 1, [0xb1], [], []⟩]⟩

def overloadedFile : ClassFile :=
  ⟨0, 52, overloadedPool, ⟨0x0021⟩, 2, 0, [], [], [emptyMethod "()V", emptyMethod "(I)V"], []⟩

def overloadedLinker : Linker := { options := {}, classes := [⟨overloadedFile, "A", .empty⟩] }

def overloadedDeclared : Linker := overloadedLinker.declare.2

theorem declare_overloaded : overloadedLinker.declare = (.ok (), overloadedDeclared) :=
  Linker.declare_of_isSome (by decide +kernel)

def emptyLinked (descriptor : Text) (index : Nat) : LinkedMethod :=
  ⟨"A", overloadedPool, emptyMethod descriptor, index⟩

theorem methods_overloaded :
    overloadedDeclared.methods = [emptyLinked "()V" 0, emptyLinked "(I)V" 1] := by
  have hcount : overloadedDeclared.module.importCount .func = 0 := by decide +kernel
  obtain ⟨start, h⟩ := declarePass_run declares_start (run_eq_ok declare_overloaded)
  rw [h.methods_eq, hcount]
  rfl

def emptyInstrs : Array Instruction := #[⟨0, 1, 0xb1, false, .ret .void⟩]

theorem structured_empty (descriptor : Text) (index : Nat) :
    structured (emptyLinked descriptor index) = .ok (emptyInstrs, [.op 0]) := by
  have hdecode : decode overloadedPool [0xb1] = .ok emptyInstrs :=
    ok_of_toOption (by decide +kernel)
  exact structured_eq_ok hdecode
    (structureOf_of_repaired #[] [] (by decide +kernel) (by simp) rfl)

theorem emit_overloaded : overloadedDeclared.emit.1 = .ok () := by
  obtain ⟨f, hf⟩ : ∃ f, lower overloadedDeclared.resolver overloadedDeclared.options.maxSpan
      (emptyMethod "()V") emptyInstrs [.op 0] overloadedDeclared.module.types =
        (.ok f, overloadedDeclared.module.types) :=
    exists_ok (by decide +kernel) (by decide +kernel)
  obtain ⟨g, hg⟩ : ∃ g, lower overloadedDeclared.resolver overloadedDeclared.options.maxSpan
      (emptyMethod "(I)V") emptyInstrs [.op 0] overloadedDeclared.module.types =
        (.ok g, overloadedDeclared.module.types) :=
    exists_ok (by decide +kernel) (by decide +kernel)
  refine Linker.emit_of_methods (by decide +kernel) ?_
  rw [methods_overloaded]
  exact ⟨_, run_bind_eq_ok.mpr ⟨(), _, emitMethod_of_lower (structured_empty _ _) hf,
    run_bind_eq_ok.mpr ⟨(), _, emitMethod_of_lower (structured_empty _ _) hg, rfl⟩⟩⟩

theorem allValid_call {env : Wasm.Env} {f : UInt32} {is : List Wasm.Instr}
    {us : List Wasm.ValType} (h : Wasm.Instr.AllValid env (.plain (.call f) :: is) [] us) :
    ∃ ts, env.functions[f.toNat]? = some ⟨[], ts⟩ ∧ Wasm.Instr.AllValid env is ts us := by
  generalize hstack : ([] : List Wasm.ValType) = stack at h
  cases h with
  | cons base hi his =>
    obtain ⟨rfl, rfl⟩ := List.append_eq_nil_iff.mp hstack.symm
    cases hi with
    | plain hp =>
      cases hp with
      | typed ht => exact ⟨_, ht, his⟩

/-- The start function calls the method that takes a number without one, which the machine does not
run. -/
theorem overloaded_called :
    ClassFile.parse overloadedBytes = .ok overloadedFile ∧
      Linker.addAll { options := {} } [overloadedFile] = .ok overloadedLinker ∧
      overloadedLinker.declare = (.ok (), overloadedDeclared) ∧
      overloadedDeclared.emit.1 = .ok () ∧
      overloadedDeclared.emit.2.module.start = some 2 ∧
      overloadedDeclared.emit.2.module.bodies[2]? = some (startFunction [0, 1]).encode ∧
      (∀ scope, Covers scope overloadedDeclared.emit.2.module →
        ¬ Wasm.ValidBody scope ⟨[], []⟩ [] (startFunction [0, 1]).body) ∧
      ∃ machine, Machine.ofFiles [overloadedFile] = .ok machine ∧
        List.Forall₂ Initialises machine.program [some (emptyLinked "()V" 0)] := by
  obtain ⟨start, h⟩ := declarePass_run declares_start (run_eq_ok declare_overloaded)
  have hcomplete := h.complete_of_emit emit_overloaded
  have hlater := overloadedDeclared.emit_later
  obtain ⟨hstart, hmark, hmethods⟩ := hlater.settled
  rw [methods_overloaded] at hmethods
  replace hstart : overloadedDeclared.emit.2.start = some 2 := hstart.trans (by decide +kernel)
  replace hmark : overloadedDeclared.emit.2.module.start = some 2 :=
    hmark.trans (by decide +kernel)
  obtain ⟨-, hbody⟩ := hcomplete.start 2 hstart
  rw [hmethods] at hbody
  have hparse : ClassFile.parse overloadedBytes = .ok overloadedFile := by cbv
  refine ⟨hparse, rfl, declare_overloaded, emit_overloaded, hmark, hbody, ?_, ?_⟩
  · intro scope hcovers hvalid
    have hfirst := hcovers 0 ⟨[], []⟩ (hlater.functionType? (by decide +kernel))
    have hsecond := hcovers 1 ⟨[.i32], []⟩ (hlater.functionType? (by decide +kernel))
    obtain ⟨ts, hts, hrest⟩ := allValid_call hvalid
    cases hfirst.symm.trans hts
    obtain ⟨us, hus, -⟩ := allValid_call hrest
    cases hsecond.symm.trans hus
  · obtain ⟨-, body, -, hlowers⟩ :=
      hcomplete.methods 0 (emptyLinked "()V" 0) (by rw [hmethods]; rfl)
    have hinitialiser : initialiser? ⟨overloadedFile, "A", .empty⟩ =
        some (⟨overloadedFile, "A", .empty⟩, emptyMethod "()V", ⟨0, 1, [0xb1], [], []⟩) := rfl
    exact ⟨_, rfl, .cons (initialises_of_lowers hinitialiser hlowers rfl) .nil⟩

end

end Link

end ClassWasm
