/-
  Calls on a linker in any order. A linker takes classes until the first pass begins, runs each of
  the two passes once, and refuses everything else without any change (`calls_in_order`). A pass has
  begun as soon as it is called: behind a first pass that has failed the second still runs, on what
  there is, and only the link map tells that something is missing.
-/
import ClassWasm.Proofs.Link.Failures
import ClassWasm.Proofs.Link.Symbols

namespace ClassWasm.Link

/-- A call on a linker. -/
inductive Call where
  | add (file : ClassFile)
  | declare
  | emit

/-- A call comes in time behind those before it: classes and the first pass before any first pass,
the second pass behind the first one and before any second. -/
def Call.InOrder (before : List Call) : Call → Prop
  | .add _ | .declare => .declare ∉ before
  | .emit => ∃ adds between, before = adds ++ .declare :: between ∧ .declare ∉ adds ∧
      .emit ∉ between

namespace Linker

/-- What a call answers, and the linker after it. -/
def perform (l : Linker) : Call → Except Error Unit × Linker
  | .add file =>
    match l.add file with
    | .ok l' => (.ok (), l')
    | .error e => (.error e, l)
  | .declare => l.declare
  | .emit => l.emit

/-- The linker after calls, whatever they answer. -/
def after (l : Linker) (calls : List Call) : Linker :=
  calls.foldl (fun l call => (l.perform call).2) l

theorem after_append (l : Linker) (calls calls' : List Call) :
    l.after (calls ++ calls') = (l.after calls).after calls' := List.foldl_append

theorem after_cons (l : Linker) (call : Call) (calls : List Call) :
    l.after (call :: calls) = (l.perform call).2.after calls := rfl

end Linker

section

variable {l l' : Linker} {calls : List Call}

/-! ## Passes that have begun -/

/-- Which passes have begun. -/
def Linker.marks (l : Linker) : Bool × Bool := (l.declared, l.emitted)

theorem declarePass_marks : Moves (Same Linker.marks) declarePass := by
  rw [declarePass_eq]
  refine moves_get.bind fun l => ?_
  have himports : Moves (Same Linker.marks) ((staticMethods l.classes).forM importForMethod) :=
    moves_forM fun cm _ => importForMethod_same _ (fun _ _ _ _ => rfl) cm
  have hglobals : Moves (Same Linker.marks) (declareGlobals l.classes) :=
    moves_forM fun of _ => declareGlobal_same _ (fun _ _ _ => rfl) of.1 of.2
  have hfunctions : Moves (Same Linker.marks) (declareFunctions l.classes) :=
    moves_forM fun cm _ => declareFunction_same _ (fun _ _ _ _ _ _ => rfl) cm.1 cm.2.1
  have hmethodExports := exportMethods_same Linker.marks fun _ _ _ => rfl
  have hfieldExports := exportGlobals_same Linker.marks fun _ _ _ => rfl
  have hstart := declareStart_same Linker.marks fun _ _ _ _ _ => rfl
  have hmap : Moves (Same Linker.marks)
      (modify fun l => { l with linkMap := some (buildLinkMap l) } : M Unit) :=
    moves_modify fun _ => rfl
  have hdefinitions : Moves (Same Linker.marks) (definitions l.classes) :=
    hglobals.bind fun _ => hfunctions.bind fun _ => hmethodExports.bind fun _ =>
      hfieldExports.bind fun _ => hstart.bind fun _ => hmap
  dsimp only
  split
  · exact himports.bind fun _ => hdefinitions
  · exact hdefinitions

theorem emitMethod_marks (m : LinkedMethod) : Moves (Same Linker.marks) (emitMethod m) := by
  intro l
  rw [emitMethod_run]
  cases structured m with
  | error fault => exact rfl
  | ok it =>
    dsimp only
    rcases lower l.resolver l.options.maxSpan m.method it.1 it.2 l.module.types with
      ⟨e | f, types⟩ <;> exact rfl

theorem emitPass_marks : Moves (Same Linker.marks) emitPass := by
  refine moves_get.bind fun l => (moves_forM fun m _ => emitMethod_marks m).bind fun _ => ?_
  split
  · exact moves_modify fun l => rfl
  · exact moves_pure ()

theorem run_marks {pass : M Unit} (h : Moves (Same Linker.marks) pass) (l : Linker) :
    (run pass l).2.marks = l.marks := by
  have hl := h l
  unfold run
  cases hrun : pass l <;> rw [hrun] at hl <;> exact hl

/-! ## Calls out of order -/

theorem add_of_declared (h : l.declared = true) (file : ClassFile) :
    l.perform (.add file) = (.error (.phase .addAfterDeclare), l) := by
  simp only [Linker.perform, Linker.add, h, if_true]

theorem declare_of_declared (h : l.declared = true) :
    l.perform .declare = (.error (.phase .declareTwice), l) := by
  simp only [Linker.perform, Linker.declare, h, if_true]

theorem emit_refused (h : l.declared = false ∨ l.emitted = true) :
    l.perform .emit = (.error (.phase .emitOutOfOrder), l) := by
  have hrefused : (!l.declared || l.emitted) = true := by
    rcases h with h | h <;> simp [h]
  simp only [Linker.perform, Linker.emit, hrefused, if_true]

/-- Once both passes have begun, nothing changes any more. -/
theorem after_of_emitted (hdeclared : l.declared = true) (hemitted : l.emitted = true)
    (calls : List Call) : l.after calls = l := by
  induction calls with
  | nil => rfl
  | cons call calls ih =>
    have hcall : (l.perform call).2 = l := by
      cases call with
      | add file => rw [add_of_declared hdeclared]
      | declare => rw [declare_of_declared hdeclared]
      | emit => rw [emit_refused (.inr hemitted)]
    rw [Linker.after_cons, hcall, ih]

/-- Once the first pass has begun, only the second changes anything. -/
theorem after_of_declared (hdeclared : l.declared = true) (hcalls : .emit ∉ calls) :
    l.after calls = l := by
  induction calls with
  | nil => rfl
  | cons call calls ih =>
    have hcall : (l.perform call).2 = l := by
      cases call with
      | add file => rw [add_of_declared hdeclared]
      | declare => rw [declare_of_declared hdeclared]
      | emit => exact absurd List.mem_cons_self hcalls
    rw [Linker.after_cons, hcall, ih fun h => hcalls (List.mem_cons_of_mem _ h)]

/-! ## Calls in order -/

/-- Before the first pass there are only classes. -/
theorem after_adds (options : Options) (classes : Hierarchy) (hcalls : .declare ∉ calls) :
    ∃ classes', Linker.after { options, classes } calls = { options, classes := classes' } := by
  induction calls generalizing classes with
  | nil => exact ⟨classes, rfl⟩
  | cons call calls ih =>
    have hrest : .declare ∉ calls := fun h => hcalls (List.mem_cons_of_mem _ h)
    rw [Linker.after_cons]
    cases call with
    | add file =>
      cases hadd : Linker.add { options, classes } file with
      | ok l =>
        obtain ⟨c, -, -, rfl⟩ := Linker.add_eq_ok.mp hadd
        simp only [Linker.perform, hadd]
        exact ih _ hrest
      | error e =>
        simp only [Linker.perform, hadd]
        exact ih _ hrest
    | declare => exact absurd List.mem_cons_self hcalls
    | emit =>
      rw [emit_refused (.inl rfl)]
      exact ih _ hrest

theorem declare_marks (h : l.declared = false) : l.declare.2.marks = (true, l.emitted) := by
  unfold Linker.declare
  rw [h, if_neg Bool.false_ne_true, run_marks declarePass_marks]
  rfl

theorem emit_marks (hdeclared : l.declared = true) (hemitted : l.emitted = false) :
    l.emit.2.marks = (true, true) := by
  unfold Linker.emit
  rw [hdeclared, hemitted, if_neg (by decide), run_marks emitPass_marks]
  rfl

theorem declare_fault (h : l.declared = false) (fault : PhaseFault) :
    l.declare.1 ≠ .error (.phase fault) := by
  unfold Linker.declare run
  rw [h, if_neg Bool.false_ne_true]
  split
  · nofun
  · next e l' hrun =>
    intro heq
    cases heq
    cases declarePass_error hrun with
    | field hof hglobal => rcases globalOf_error hglobal with ⟨d, -, he⟩ | ⟨tag, he⟩ <;> cases he

theorem ofLowering_ne_phase (ref : MemberRef) (e : Lowering.Error) (fault : PhaseFault) :
    Error.ofLowering ref e ≠ .phase fault := by
  cases e <;> nofun

theorem emitMethod_throws (m : LinkedMethod) :
    Throws (fun e => ∀ fault, e ≠ .phase fault) (emitMethod m) := by
  intro l e l' hrun
  rw [emitMethod_run] at hrun
  split at hrun
  · cases hrun
    nofun
  · split at hrun <;> cases hrun
    exact ofLowering_ne_phase m.ref _

theorem emitPass_throws : Throws (fun e => ∀ fault, e ≠ .phase fault) emitPass := by
  refine throws_get.bind fun l => (throws_forM fun m _ => emitMethod_throws m).bind fun _ => ?_
  split
  · exact throws_modify _
  · exact throws_pure ()

theorem emit_fault (hdeclared : l.declared = true) (hemitted : l.emitted = false)
    (fault : PhaseFault) : l.emit.1 ≠ .error (.phase fault) := by
  unfold Linker.emit run
  rw [hdeclared, hemitted, if_neg (by decide)]
  split
  · nofun
  · next e l' hrun =>
    intro heq
    cases heq
    exact emitPass_throws _ _ _ hrun fault rfl

theorem add_fault {file : ClassFile} (h : l.declared = false) (fault : PhaseFault) :
    (l.perform (.add file)).1 ≠ .error (.phase fault) := by
  simp only [Linker.perform, Linker.add, h, if_neg Bool.false_ne_true]
  cases LoadedClass.ofFile file with
  | error e => nofun
  | ok c =>
    dsimp only
    split
    · next hadd =>
      nofun
    · next e hadd =>
      split at hadd <;> cases hadd
      nofun

/-! ## Histories -/

/-- Calls begin with neither pass, or the first, or both. -/
theorem cases_calls (calls : List Call) :
    .declare ∉ calls ∨
    (∃ adds between, calls = adds ++ Call.declare :: between ∧
      .declare ∉ adds ∧ .emit ∉ between) ∨
    ∃ adds between rest, calls = adds ++ Call.declare :: (between ++ Call.emit :: rest) ∧
      .declare ∉ adds ∧ .emit ∉ between := by
  by_cases hdeclare : .declare ∈ calls
  · obtain ⟨adds, after, rfl, hadds⟩ := List.eq_append_cons_of_mem hdeclare
    by_cases hemit : .emit ∈ after
    · obtain ⟨between, rest, rfl, hbetween⟩ := List.eq_append_cons_of_mem hemit
      exact .inr (.inr ⟨adds, between, rest, rfl, hadds, hbetween⟩)
    · exact .inr (.inl ⟨adds, after, rfl, hadds, hemit⟩)
  · exact .inl hdeclare

/-- There is only one first item of a kind. -/
theorem append_cons_unique {α : Type} {a : α} {as as' bs bs' : List α} (has : a ∉ as)
    (has' : a ∉ as')
    (h : as ++ a :: bs = as' ++ a :: bs') : as = as' ∧ bs = bs' := by
  induction as generalizing as' with
  | nil =>
    cases as' with
    | nil => exact ⟨rfl, (List.cons.inj h).2⟩
    | cons c as' =>
      obtain ⟨rfl, -⟩ := List.cons.inj h
      exact absurd List.mem_cons_self has'
  | cons c as ih =>
    cases as' with
    | nil =>
      obtain ⟨rfl, -⟩ := List.cons.inj h
      exact absurd List.mem_cons_self has
    | cons c' as' =>
      obtain ⟨rfl, hrest⟩ := List.cons.inj h
      obtain ⟨rfl, rfl⟩ := ih (fun h => has (List.mem_cons_of_mem _ h))
        (fun h => has' (List.mem_cons_of_mem _ h)) hrest
      exact ⟨rfl, rfl⟩

/-- Where the first pass is the last that has begun, it has settled the linker. -/
theorem after_declare (options : Options) {adds between : List Call} (hadds : .declare ∉ adds)
    (hbetween : .emit ∉ between) :
    Linker.after { options } (adds ++ .declare :: between) =
        (Linker.after { options } adds).declare.2 ∧
      (Linker.after { options } adds).declare.2.marks = (true, false) := by
  obtain ⟨classes, hclasses⟩ := after_adds options [] hadds
  have hmarks : (Linker.after { options } adds).declare.2.marks = (true, false) := by
    rw [hclasses]
    exact declare_marks rfl
  rw [Linker.after_append, Linker.after_cons]
  exact ⟨after_of_declared (Prod.mk.inj hmarks).1 hbetween, hmarks⟩

/-- Where both have begun, the second has. -/
theorem after_emit (options : Options) {adds between : List Call} (rest : List Call)
    (hadds : .declare ∉ adds) (hbetween : .emit ∉ between) :
    Linker.after { options } (adds ++ .declare :: (between ++ .emit :: rest)) =
        (Linker.after { options } adds).declare.2.emit.2 ∧
      (Linker.after { options } adds).declare.2.emit.2.marks = (true, true) := by
  obtain ⟨hdeclare, hmarks⟩ := after_declare options hadds hbetween
  obtain ⟨hdeclared, hemitted⟩ := Prod.mk.inj hmarks
  have hmarks' := emit_marks hdeclared hemitted
  rw [← List.cons_append, ← List.append_assoc, Linker.after_append, hdeclare, Linker.after_cons]
  exact ⟨after_of_emitted (Prod.mk.inj hmarks').1 (Prod.mk.inj hmarks').2 rest, hmarks'⟩

theorem perform_refused (options : Options) {call : Call} (h : ¬ call.InOrder calls) :
    ∃ fault, (Linker.after { options } calls).perform call =
      (.error (.phase fault), Linker.after { options } calls) := by
  obtain hadds | ⟨adds, between, rfl, hadds, hbetween⟩ |
    ⟨adds, between, rest, rfl, hadds, hbetween⟩ := cases_calls calls
  · cases call with
    | add file => exact absurd hadds h
    | declare => exact absurd hadds h
    | emit =>
      obtain ⟨classes, hclasses⟩ := after_adds options [] hadds
      rw [hclasses]
      exact ⟨_, emit_refused (.inl rfl)⟩
  · obtain ⟨hafter, hmarks⟩ := after_declare options hadds hbetween
    rw [hafter]
    cases call with
    | add file => exact ⟨_, add_of_declared (Prod.mk.inj hmarks).1 file⟩
    | declare => exact ⟨_, declare_of_declared (Prod.mk.inj hmarks).1⟩
    | emit => exact absurd ⟨adds, between, rfl, hadds, hbetween⟩ h
  · obtain ⟨hafter, hmarks⟩ := after_emit options rest hadds hbetween
    rw [hafter]
    cases call with
    | add file => exact ⟨_, add_of_declared (Prod.mk.inj hmarks).1 file⟩
    | declare => exact ⟨_, declare_of_declared (Prod.mk.inj hmarks).1⟩
    | emit => exact ⟨_, emit_refused (.inr (Prod.mk.inj hmarks).2)⟩

theorem perform_accepted (options : Options) {call : Call} (h : call.InOrder calls)
    (fault : PhaseFault) :
    ((Linker.after { options } calls).perform call).1 ≠ .error (.phase fault) := by
  cases call with
  | add file =>
    obtain ⟨classes, hclasses⟩ := after_adds options [] h
    rw [hclasses]
    exact add_fault rfl fault
  | declare =>
    obtain ⟨classes, hclasses⟩ := after_adds options [] h
    rw [hclasses]
    exact declare_fault rfl fault
  | emit =>
    obtain ⟨adds, between, rfl, hadds, hbetween⟩ := h
    obtain ⟨hafter, hmarks⟩ := after_declare options hadds hbetween
    rw [hafter]
    exact emit_fault (Prod.mk.inj hmarks).1 (Prod.mk.inj hmarks).2 fault

/-- Either pass comes in order only once. -/
theorem not_inOrder_twice {call : Call} {before between : List Call}
    (hpass : call = .declare ∨ call = .emit) (h : call.InOrder before) :
    ¬ call.InOrder (before ++ call :: between) := by
  rcases hpass with rfl | rfl
  · exact fun h' => h' (List.mem_append_right _ List.mem_cons_self)
  · rintro ⟨adds', between', heq, hadds', hbetween'⟩
    obtain ⟨adds, between₀, rfl, hadds, -⟩ := h
    rw [List.append_assoc, List.cons_append] at heq
    obtain ⟨rfl, rfl⟩ := append_cons_unique hadds hadds' heq
    exact hbetween' (List.mem_append_right _ List.mem_cons_self)

/-! ## What the second pass finds -/

/-- Behind a first pass that has failed, the second gives all functions so far their bodies. -/
theorem Unfinished.emit (h : Unfinished l)
    (hrun : emitPass { l with emitted := true } = .ok () l') :
    l'.module.bodies.size = l'.module.functions.size ∧ l'.linkMap = none := by
  obtain ⟨bodies, hbodies, hlowers⟩ := emitPass_run hrun
  obtain ⟨_, types, emitted, -, rfl⟩ := emitPass_later.of_ok hrun
  refine ⟨?_, h.linkMap⟩
  change emitted.size = l.module.functions.size
  have hnone : l.module.bodies.toList = [] := by rw [h.bodies]
  have hlist : emitted.toList = bodies := by simpa [hnone, h.start] using hbodies
  calc emitted.size = bodies.length := by rw [← hlist, Array.length_toList]
    _ = l.methods.length := hlowers.length_eq.symm
    _ = l.module.functions.size := h.functions.symm

/-- Where the second pass succeeds every function has a body, and there is a link map where the
first pass has succeeded too. -/
theorem emit_after_declare {options : Options} {classes : Hierarchy}
    (hrun : Linker.emit (Linker.declare { options, classes }).2 = (.ok (), l')) :
    l'.module.bodies.size = l'.module.functions.size ∧
      (l'.linkMap.isSome = true ↔ (Linker.declare { options, classes }).1 = .ok ()) := by
  have hpass := Linker.emit_eq_ok hrun
  cases hdeclare : declarePass { options, classes, declared := true } with
  | ok u l =>
    have heq : Linker.declare { options, classes } = (.ok (), l) := by
      unfold Linker.declare run
      rw [if_neg Bool.false_ne_true, hdeclare]
    rw [heq] at hpass ⊢
    obtain ⟨start, hdeclares⟩ := declarePass_run declares_start hdeclare
    obtain ⟨stages⟩ := declarePass_stages hdeclare
    have hmap : l'.linkMap = some (buildLinkMap l) := by
      obtain ⟨_, types, bodies, -, rfl⟩ := emitPass_later.of_ok hpass
      exact stages.linkMap_eq
    exact ⟨(hdeclares.complete hpass).size, iff_of_true (Option.isSome_of_eq_some hmap) rfl⟩
  | error e l =>
    have heq : Linker.declare { options, classes } = (.error e, l) := by
      unfold Linker.declare run
      rw [if_neg Bool.false_ne_true, hdeclare]
    rw [heq] at hpass ⊢
    have hstart : Unfinished { options, classes, declared := true } := ⟨rfl, rfl, rfl, rfl⟩
    obtain ⟨hsize, hmap⟩ := (declarePass_unfinished hstart hdeclare).emit hpass
    refine ⟨hsize, iff_of_false ?_ nofun⟩
    rw [hmap]
    exact Bool.false_ne_true

end

/-- A linker and calls in any order. A call that comes out of order is refused with the linker as it
was, one that comes in order never; a class that cannot be added changes nothing, and either pass
does its work at most once. Where the second pass succeeds, the first one has been called and every
function has a body, yet there is a link map only where that call has succeeded. -/
theorem Linker.calls_in_order (options : Options) (calls : List Call) (call : Call) :
    ∃ answer l', (Linker.after { options } calls).perform call = (answer, l') ∧
      (¬ call.InOrder calls →
        (∃ fault, answer = .error (.phase fault)) ∧ l' = Linker.after { options } calls) ∧
      (call.InOrder calls → ∀ fault, answer ≠ .error (.phase fault)) ∧
      (∀ file, call = .add file →
        (answer = .ok () → .declare ∉ calls) ∧
        ∀ e, answer = .error e → l' = Linker.after { options } calls) ∧
      (∀ before between, calls = before ++ call :: between → call = .declare ∨ call = .emit →
        call.InOrder before → l' = Linker.after { options } calls) ∧
      (call = .emit → answer = .ok () → ∃ adds between,
        calls = adds ++ .declare :: between ∧ .declare ∉ adds ∧ .emit ∉ between ∧
          l'.module.bodies.size = l'.module.functions.size ∧
          (l'.linkMap.isSome = true ↔
            ((Linker.after { options } adds).perform .declare).1 = .ok ())) := by
  rcases hrun : (Linker.after { options } calls).perform call with ⟨answer, l'⟩
  have hrefused (h : ¬ call.InOrder calls) :
      (∃ fault, answer = .error (.phase fault)) ∧ l' = Linker.after { options } calls := by
    obtain ⟨fault, hfault⟩ := perform_refused options h
    obtain ⟨rfl, rfl⟩ := Prod.mk.inj (hrun.symm.trans hfault)
    exact ⟨⟨fault, rfl⟩, rfl⟩
  have haccepted (h : answer = .ok ()) : call.InOrder calls := by
    by_contra hlate
    obtain ⟨⟨fault, hfault⟩, -⟩ := hrefused hlate
    cases h.symm.trans hfault
  refine ⟨answer, l', rfl, hrefused, fun h fault => ?_, ?_, ?_, ?_⟩
  · have hfault := perform_accepted options h fault
    rwa [hrun] at hfault
  · rintro file rfl
    refine ⟨haccepted, fun e he => ?_⟩
    unfold Linker.perform at hrun
    dsimp only at hrun
    split at hrun <;> cases hrun
    · cases he
    · rfl
  · rintro before between rfl hpass hbefore
    exact (hrefused (not_inOrder_twice hpass hbefore)).2
  · rintro rfl hok
    obtain ⟨adds, between, rfl, hadds, hbetween⟩ := haccepted hok
    obtain ⟨classes, hclasses⟩ := after_adds options [] hadds
    obtain ⟨hafter, -⟩ := after_declare options hadds hbetween
    refine ⟨adds, between, rfl, hadds, hbetween, ?_⟩
    rw [hclasses]
    rw [hafter, hclasses, hok] at hrun
    exact emit_after_declare hrun

/-! ## A first pass that fails -/

/-- A class with a `long` that is to start as an `int`. -/
def mismatchedFile : ClassFile :=
  ⟨0, 52, ⟨#[none, some (.utf8 "C"), some (.classRef 1)]⟩, ⟨0x0021⟩, 2, 0, [],
    [⟨⟨0x0018⟩, "f", "J", [.constantValue (.integer 1)]⟩], [], []⟩

/-- The first pass fails, and the second succeeds behind it without a link map. -/
theorem emit_after_failure :
    ((Linker.after { options := {} } [.add mismatchedFile]).perform .declare).1 =
        .error (.constant "C" "f" .integer "J") ∧
      Call.InOrder [.add mismatchedFile, .declare] .emit ∧
      ((Linker.after { options := {} } [.add mismatchedFile, .declare]).perform .emit).1 = .ok () ∧
      ((Linker.after { options := {} } [.add mismatchedFile, .declare]).perform .emit).2.linkMap =
        none := by
  refine ⟨rfl, ⟨[.add mismatchedFile], [], rfl, ?_, List.not_mem_nil⟩, rfl, rfl⟩
  simp

end ClassWasm.Link
