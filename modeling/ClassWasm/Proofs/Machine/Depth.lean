/-
  What the count of frames is. Between a request and its answer it is what is in progress, on top of
  what was counted before where a field is read, and an overflow stays counted until a method is
  invoked (`frames_counted`). So a class may be initialised or not for a call long before that ended
  in an overflow (`overflow_stays_counted`).
-/
import ClassWasm.ClassFile.Parser
import ClassWasm.Proofs.Machine.Frames

namespace ClassWasm.Machine

/-- A request finds the count of frames that the requests before have left, which is none but for
overflows: an invocation starts from nothing and reading a field from there. Every note up to its
answer counts the frames in progress on top of that, and all of them are closed again. -/
theorem frames_counted (m : Machine) (qs : List Request) (q : Request) :
    let w := (Watch.start m).after m.program qs
    let answer := (m.after qs).serve q
    let watched := w.serve m.program q
    Watches w (m.after qs) ∧ watched.1 = answer.1 ∧ Watches watched.2 answer.2 ∧
      (∃ notes, watched.2.log = w.log ++ notes ∧
        Nested (w.base q) (overflowCount answer.1) notes) ∧
      answer.2.depth = w.base q + overflowCount answer.1 := by
  intro w answer watched
  have hw : Watches w (m.after qs) := (watches_start m).after qs
  have hserve := hw.serve q
  rw [after_program] at hserve
  have hpasses := hserve.passes
  exact ⟨hw, hserve.answer, hserve.watches, hpasses.log,
    hserve.watches.frames.symm.trans hpasses.frames⟩

/-! ## A field that can be read before an overflow -/

/-- A class with `static void f(int n) { if (n != 0) f(n - 1); }`. -/
def descendingBytes : Bytes :=
  [0xca, 0xfe, 0xba, 0xbe, 0, 0, 0, 52, 0, 8, 1, 0, 1, 0x41, 7, 0, 1, 1, 0, 1, 0x66,
    1, 0, 4, 0x28, 0x49, 0x29, 0x56, 1, 0, 4, 0x43, 0x6f, 0x64, 0x65, 12, 0, 3, 0, 4,
    10, 0, 2, 0, 6, 0, 0x21, 0, 2, 0, 0, 0, 0, 0, 0, 0, 1, 0, 9, 0, 3, 0, 4, 0, 1, 0, 5,
    0, 0, 0, 23, 0, 2, 0, 1, 0, 0, 0, 11, 0x1a, 0x99, 0, 9, 0x1a, 0x04, 0x64, 0xb8, 0, 7, 0xb1,
    0, 0, 0, 0, 0, 0]

/-- A class with `static int x;` and `static { A.f(1022); }`. -/
def deepBytes : Bytes :=
  [0xca, 0xfe, 0xba, 0xbe, 0, 0, 0, 52, 0, 14, 1, 0, 1, 0x42, 7, 0, 1, 1, 0, 1, 0x78,
    1, 0, 1, 0x49, 1, 0, 8, 0x3c, 0x63, 0x6c, 0x69, 0x6e, 0x69, 0x74, 0x3e, 1, 0, 3, 0x28, 0x29,
    0x56, 1, 0, 4, 0x43, 0x6f, 0x64, 0x65, 1, 0, 1, 0x41, 7, 0, 8, 1, 0, 1, 0x66,
    1, 0, 4, 0x28, 0x49, 0x29, 0x56, 12, 0, 10, 0, 11, 10, 0, 9, 0, 12, 0, 0x21, 0, 2, 0, 0, 0, 0,
    0, 1, 0, 9, 0, 3, 0, 4, 0, 0, 0, 1, 0, 8, 0, 5, 0, 6, 0, 1, 0, 7, 0, 0, 0, 19, 0, 1, 0, 0,
    0, 0, 0, 7, 0x11, 0x03, 0xfe, 0xb8, 0, 13, 0xb1, 0, 0, 0, 0, 0, 0]

def descendingPool : Pool :=
  ⟨#[none, some (.utf8 "A"), some (.classRef 1), some (.utf8 "f"), some (.utf8 "(I)V"),
    some (.utf8 "Code"), some (.nameAndType 3 4), some (.methodRef 2 6)]⟩

def descendingCode : Code :=
  ⟨2, 1, [0x1a, 0x99, 0, 9, 0x1a, 0x04, 0x64, 0xb8, 0, 7, 0xb1], [], []⟩

def descendingMethod : Method := ⟨⟨0x0009⟩, "f", "(I)V", [.code descendingCode]⟩

def descendingFile : ClassFile :=
  ⟨0, 52, descendingPool, ⟨0x0021⟩, 2, 0, [], [], [descendingMethod], []⟩

def deepPool : Pool :=
  ⟨#[none, some (.utf8 "B"), some (.classRef 1), some (.utf8 "x"), some (.utf8 "I"),
    some (.utf8 "<clinit>"), some (.utf8 "()V"), some (.utf8 "Code"), some (.utf8 "A"),
    some (.classRef 8), some (.utf8 "f"), some (.utf8 "(I)V"), some (.nameAndType 10 11),
    some (.methodRef 9 12)]⟩

def deepCode : Code := ⟨1, 0, [0x11, 0x03, 0xfe, 0xb8, 0, 13, 0xb1], [], []⟩

def deepMethod : Method := ⟨⟨0x0008⟩, "<clinit>", "()V", [.code deepCode]⟩

def deepFile : ClassFile :=
  ⟨0, 52, deepPool, ⟨0x0021⟩, 2, 0, [], [⟨⟨0x0009⟩, "x", "I", []⟩], [deepMethod], []⟩

def descend : MemberRef := ⟨"A", "f", "(I)V"⟩

def descendingInstrs : Array Instruction :=
  #[⟨0, 1, 0x1a, false, .load .int 0⟩, ⟨1, 3, 0x99, false, .branch (.zero .eq) 9⟩,
    ⟨4, 1, 0x1a, false, .load .int 0⟩, ⟨5, 1, 0x04, false, .const (.int 1)⟩,
    ⟨6, 1, 0x64, false, .arith (.int .sub)⟩, ⟨7, 3, 0xb8, false, .invokeStatic descend⟩,
    ⟨10, 1, 0xb1, false, .ret .void⟩]

def descending : Routine :=
  ⟨descend, [.int], .void, 1, 2, descendingInstrs, .ofInstructions descendingInstrs⟩

def deepInstrs : Array Instruction :=
  #[⟨0, 3, 0x11, false, .const (.int 1022)⟩, ⟨3, 3, 0xb8, false, .invokeStatic descend⟩,
    ⟨6, 1, 0xb1, false, .ret .void⟩]

def deep : Routine :=
  ⟨⟨"B", "<clinit>", "()V"⟩, [], .void, 0, 1, deepInstrs, .ofInstructions deepInstrs⟩

def descendingClass : PreparedClass :=
  ⟨⟨descendingFile, "A", .empty⟩, [⟨descendingMethod, some (.ok descending)⟩]⟩

def deepClass : PreparedClass := ⟨⟨deepFile, "B", .empty⟩, [⟨deepMethod, some (.ok deep)⟩]⟩

def deepMachine : Machine where
  program := [descendingClass, deepClass]
  store := { statics := [(⟨"B", "x", "I"⟩, .int 0)] }

theorem load_descending :
    Routine.load "A" descendingPool descendingMethod descendingCode = .ok descending := by
  have htype : Descriptor.parseMethod descendingMethod.descriptor =
      .ok ⟨[⟨0, .primitive .int⟩], none⟩ := by decide +kernel
  have hinstrs : decode descendingPool descendingCode.bytes = .ok descendingInstrs :=
    ok_of_toOption (by decide +kernel)
  exact Routine.load_of_decode htype rfl hinstrs

theorem load_deep : Routine.load "B" deepPool deepMethod deepCode = .ok deep := by
  have htype : Descriptor.parseMethod deepMethod.descriptor = .ok ⟨[], none⟩ := by decide +kernel
  have hinstrs : decode deepPool deepCode.bytes = .ok deepInstrs :=
    ok_of_toOption (by decide +kernel)
  exact Routine.load_of_decode htype rfl hinstrs

theorem ofFiles_deep : ofFiles [descendingFile, deepFile] = .ok deepMachine := by
  refine ofFiles_eq_ok.mpr ⟨[⟨descendingFile, "A", .empty⟩, ⟨deepFile, "B", .empty⟩],
    [[], deepMachine.store.statics], ⟨.cons rfl (.cons rfl .nil), by decide⟩,
    .cons rfl (.cons rfl .nil), ?_⟩
  simp only [deepMachine, descendingClass, deepClass, ← load_descending, ← load_deep]
  rfl

theorem routine_descend :
    deepMachine.program.routine descend = .ok (descendingClass, descending) := rfl

/-- The store once the class of `f` is started. -/
def withStarted (store : Store) : Store :=
  if ("A" : Text) ∈ store.started then store
  else { store with started := store.started ++ [descendingClass.name] }

theorem initialise_descending (caller : Caller) (store : Store) :
    initialise deepMachine.program caller descendingClass store = .ok () (withStarted store) := by
  unfold withStarted
  by_cases hA : ("A" : Text) ∈ store.started
  · rw [if_pos hA]
    exact initialise_started hA caller
  · have hunstarted : unstarted deepMachine.program 2 store.started descendingClass =
        [descendingClass] := if_neg hA
    rw [if_neg hA]
    simp only [initialise, bind, EStateM.bind, get, getThe, MonadStateOf.get, EStateM.get]
    rw [show deepMachine.program.length = 2 from rfl, hunstarted]
    rfl

theorem invoke_descend (clock : Native.Clock) (caller : Caller) (store : Store)
    (locals : Array Value) (maxStack : Nat) (k : Int32) :
    invokeStatic ⟨deepMachine.program, clock⟩ caller ⟨locals, [.int k], maxStack⟩ descend store =
      match caller descending [.int k] (withStarted store) with
      | .ok v store => pushResult ⟨locals, [], maxStack⟩ v store
      | .error e store => .error e store := by
  have hpop : onFrame (Frame.popKinds descending.params) ⟨locals, [.int k], maxStack⟩ store =
    .ok ([.int k], ⟨locals, [], maxStack⟩) store := rfl
  unfold invokeStatic
  rw [routine_descend]
  simp only [bind, EStateM.bind, hpop, initialise_descending]
  cases caller descending [.int k] (withStarted store) <;> rfl

section

variable {s : Setting} {r : Routine} {fuel depth pc : Nat} {f : Frame} {store store' : Store}
  {i : Instruction} (hi : r.instrs[pc]? = some i)

include hi

theorem resume_next {f' : Frame} {pc' : Nat}
    (h : perform s (call s fuel depth) r pc f i store = .ok (.next f' pc') store') :
    resume s (fuel + 1) depth r pc f store = resume s fuel depth r pc' f' store' := by
  rw [resume, hi]
  simp only [bind, EStateM.bind, reported, h]

theorem resume_local {f' : Frame} (hop : i.op.onFrame = true) (h : step i.op f = .ok .next f') :
    resume s (fuel + 1) depth r pc f store = resume s fuel depth r (pc + 1) f' store := by
  refine resume_next hi ?_
  rw [perform_onFrame s _ r ⟨pc, f, store⟩ hop, h]
  rfl

theorem resume_done {v : Value} (hv : v.kind = r.result)
    (h : perform s (call s fuel depth) r pc f i store = .ok (.done v) store') :
    resume s (fuel + 1) depth r pc f store = .ok v store' := by
  rw [resume, hi]
  simp only [bind, EStateM.bind, reported, h, if_pos hv]
  rfl

theorem resume_invokes {ref : MemberRef} {f' : Frame} (hop : i.op = .invokeStatic ref)
    (h : invokeStatic s (call s fuel depth) f ref store = .ok f' store') :
    resume s (fuel + 1) depth r pc f store = resume s fuel depth r (pc + 1) f' store' := by
  refine resume_next hi ?_
  simp only [perform, hop, Functor.map, EStateM.map, h]

theorem resume_overflows {ref : MemberRef} (hop : i.op = .invokeStatic ref)
    (h : invokeStatic s (call s fuel depth) f ref store = .error (.error .stackOverflow) store') :
    resume s (fuel + 1) depth r pc f store = .error (.error .stackOverflow) store' := by
  rw [resume, hi]
  simp only [bind, EStateM.bind, reported, perform, hop, Functor.map, EStateM.map, h]
  rfl

end

theorem call_over (s : Setting) (r : Routine) (args : List Value) {fuel depth : Nat}
    (hdepth : maxDepth ≤ depth) (store : Store) :
    call s (fuel + 1) depth r args store = .error (.error .stackOverflow) store := by
  rw [call, if_pos hdepth]
  rfl

theorem ofNat_succ_ne_zero {n : Nat} (hn : n < 1024) : Int32.ofNat (n + 1) ≠ 0 := by
  intro h
  have := congrArg Int32.toInt h
  rw [Int32.toInt_ofNat_of_lt (by omega)] at this
  simp at this
  omega

/-- The steps of `f` up to its call, where it has not been called with zero. -/
theorem resume_descending (s : Setting) {n : Nat} (hn : n < 1024) (fuel depth : Nat)
    (store : Store) :
    let v : Value := .int (Int32.ofNat (n + 1))
    resume s (fuel + 5) depth descending 0 ⟨#[v], [], 2⟩ store =
      resume s fuel depth descending 5 ⟨#[v], [.int (Int32.ofNat n)], 2⟩ store := by
  intro v
  have hbranch : step (.branch (.zero .eq) 9) ⟨#[v], [v], 2⟩ = .ok .next ⟨#[v], [], 2⟩ := by
    have htest : (Condition.zero .eq).test [v] = false := decide_eq_false (ofNat_succ_ne_zero hn)
    refine (step_branch (show _ = StackTyping.conditionOperands _ ++ [] from rfl)).trans ?_
    rw [htest]
    rfl
  have hsub : step (.arith (.int .sub)) ⟨#[v], [.int 1, v], 2⟩ =
      .ok .next ⟨#[v], [.int (Int32.ofNat n)], 2⟩ := by
    have hless : Int32.ofNat (n + 1) - 1 = Int32.ofNat n := by
      rw [Int32.ofNat_add]
      exact Int32.add_sub_cancel _ _
    rw [← hless]
    rfl
  refine (resume_local (i := ⟨0, 1, 0x1a, false, .load .int 0⟩) rfl rfl rfl).trans ?_
  refine (resume_local (i := ⟨1, 3, 0x99, false, .branch (.zero .eq) 9⟩) rfl rfl hbranch).trans ?_
  refine (resume_local (i := ⟨4, 1, 0x1a, false, .load .int 0⟩) rfl rfl rfl).trans ?_
  refine (resume_local (i := ⟨5, 1, 0x04, false, .const (.int 1)⟩) rfl rfl rfl).trans ?_
  exact resume_local (i := ⟨6, 1, 0x64, false, .arith (.int .sub)⟩) rfl rfl hsub

/-- A run of `f` down to the limit. -/
theorem call_descending (clock : Native.Clock) {store : Store} (hA : ("A" : Text) ∈ store.started)
    {n : Nat} (hn : n ≤ 1024) {fuel depth : Nat} (hfuel : 7 * n + 4 ≤ fuel) :
    call ⟨deepMachine.program, clock⟩ fuel depth descending [.int (Int32.ofNat n)] store =
      if depth + n < maxDepth then .ok .void store else .error (.error .stackOverflow) store := by
  let s : Setting := ⟨deepMachine.program, clock⟩
  induction n generalizing fuel depth with
  | zero =>
    obtain ⟨k, rfl⟩ : ∃ k, fuel = k + 4 := ⟨fuel - 4, by omega⟩
    by_cases hdepth : maxDepth ≤ depth
    · rw [if_neg (show ¬ depth + 0 < maxDepth by omega)]
      exact call_over _ _ _ hdepth _
    · rw [if_pos (show depth + 0 < maxDepth by omega), call, if_neg hdepth]
      change resume s (k + 3) (depth + 1) descending 0 ⟨#[.int 0], [], 2⟩ store = _
      rw [resume_next (i := ⟨0, 1, 0x1a, false, .load .int 0⟩) rfl rfl]
      rw [resume_next (i := ⟨1, 3, 0x99, false, .branch (.zero .eq) 9⟩) rfl rfl]
      exact resume_done (s := s) (i := ⟨10, 1, 0xb1, false, .ret .void⟩) rfl rfl rfl
  | succ n ih =>
    obtain ⟨k, rfl⟩ : ∃ k, fuel = k + 7 := ⟨fuel - 7, by omega⟩
    by_cases hdepth : maxDepth ≤ depth
    · rw [if_neg (show ¬ depth + (n + 1) < maxDepth by omega)]
      exact call_over _ _ _ hdepth _
    · rw [call, if_neg hdepth]
      let v : Value := .int (Int32.ofNat (n + 1))
      change resume s (k + 6) (depth + 1) descending 0 ⟨#[v], [], 2⟩ store = _
      refine (resume_descending s (by omega) (k + 1) (depth + 1) store).trans ?_
      have hinvoke := invoke_descend clock (call s k (depth + 1)) store #[v] 2 (Int32.ofNat n)
      rw [withStarted, if_pos hA, ih (by omega) (by omega)] at hinvoke
      by_cases hfits : depth + (n + 1) < maxDepth
      · rw [if_pos (show depth + 1 + n < maxDepth by omega)] at hinvoke
        rw [if_pos hfits]
        have hreturn :
            resume s k (depth + 1) descending 6 ⟨#[v], [], 2⟩ store = .ok .void store := by
          obtain ⟨k, rfl⟩ : ∃ k', k = k' + 1 := ⟨k - 1, by omega⟩
          exact resume_done (i := ⟨10, 1, 0xb1, false, .ret .void⟩) rfl rfl rfl
        exact (resume_invokes (i := ⟨7, 3, 0xb8, false, .invokeStatic descend⟩) rfl rfl
          hinvoke).trans hreturn
      · rw [if_neg (show ¬ depth + 1 + n < maxDepth by omega)] at hinvoke
        rw [if_neg hfits]
        exact resume_overflows (i := ⟨7, 3, 0xb8, false, .invokeStatic descend⟩) rfl rfl hinvoke

/-- A run of the initialiser that needs all frames there are. -/
theorem call_deep (clock : Native.Clock) (store : Store) {fuel depth : Nat} (hfuel : 8000 ≤ fuel)
    (hdepth : depth < maxDepth) :
    call ⟨deepMachine.program, clock⟩ fuel depth deep [] store =
      if depth + 1023 < maxDepth then .ok .void (withStarted store)
      else .error (.error .stackOverflow) (withStarted store) := by
  let s : Setting := ⟨deepMachine.program, clock⟩
  have hA : ("A" : Text) ∈ (withStarted store).started := by
    unfold withStarted
    split
    · assumption
    · exact List.mem_append_right _ List.mem_cons_self
  obtain ⟨k, rfl⟩ : ∃ k, fuel = k + 4 := ⟨fuel - 4, by omega⟩
  rw [call, if_neg (show ¬ depth ≥ maxDepth by omega)]
  change resume s (k + 3) (depth + 1) deep 0 ⟨#[], [], 1⟩ store = _
  refine (resume_local (i := ⟨0, 3, 0x11, false, .const (.int 1022)⟩) rfl rfl rfl).trans ?_
  have hcall : call s (k + 1) (depth + 1) descending [.int (Int32.ofNat 1022)] (withStarted store) =
      _ := call_descending clock hA (n := 1022) (by omega) (by omega)
  have hinvoke := invoke_descend clock (call s (k + 1) (depth + 1)) store #[] 1 (Int32.ofNat 1022)
  by_cases hfits : depth + 1023 < maxDepth
  · rw [hcall.trans (if_pos (by omega))] at hinvoke
    rw [if_pos hfits]
    refine (resume_invokes (i := ⟨3, 3, 0xb8, false, .invokeStatic descend⟩) rfl rfl
      hinvoke).trans ?_
    exact resume_done (i := ⟨6, 1, 0xb1, false, .ret .void⟩) rfl rfl rfl
  · rw [hcall.trans (if_neg (by omega))] at hinvoke
    rw [if_neg hfits]
    exact resume_overflows (i := ⟨3, 3, 0xb8, false, .invokeStatic descend⟩) rfl rfl hinvoke

/-- The store once both classes are started. -/
def withBoth (store : Store) : Store :=
  withStarted { store with started := store.started ++ [deepClass.name] }

theorem withBoth_statics (store : Store) : (withBoth store).statics = store.statics := by
  unfold withBoth withStarted
  split <;> rfl

theorem initialise_deep (clock : Native.Clock) {store : Store} (hB : ("B" : Text) ∉ store.started)
    {fuel depth : Nat} (hfuel : 8000 ≤ fuel) (hdepth : depth < maxDepth) :
    initialise deepMachine.program (call ⟨deepMachine.program, clock⟩ fuel depth) deepClass store =
      if depth + 1023 < maxDepth then .ok () (withBoth store)
      else .error (.error .stackOverflow) (withBoth store) := by
  have hunstarted : unstarted deepMachine.program 2 store.started deepClass = [deepClass] :=
    if_neg hB
  have hrun := call_deep clock { store with started := store.started ++ [deepClass.name] } hfuel
    hdepth
  simp only [initialise, bind, EStateM.bind, get, getThe, MonadStateOf.get, EStateM.get]
  rw [show deepMachine.program.length = 2 from rfl, hunstarted]
  have hsingle : [deepClass].reverse.forM
      (runInitialiser (call ⟨deepMachine.program, clock⟩ fuel depth)) = (do
        let _ ← call ⟨deepMachine.program, clock⟩ fuel depth deep []
        pure ()) := bind_pure _
  rw [hsingle]
  change (do
    let _ ← call ⟨deepMachine.program, clock⟩ fuel depth deep []
    pure () : Run Unit) { store with started := store.started ++ [deepClass.name] } = _
  by_cases hfits : depth + 1023 < maxDepth
  · rw [if_pos hfits] at hrun
    rw [if_pos hfits]
    exact run_bind_eq_ok.mpr ⟨_, _, hrun, rfl⟩
  · rw [if_neg hfits] at hrun
    rw [if_neg hfits]
    exact run_bind_eq_error.mpr (.inl hrun)

def deepField : MemberRef := ⟨"B", "x", "I"⟩

theorem static_deep (clock : Native.Clock) {store : Store} (hB : ("B" : Text) ∉ store.started)
    (hx : store.statics.lookup deepField = some (.int 0)) {fuel depth : Nat} (hfuel : 8000 ≤ fuel)
    (hdepth : depth < maxDepth) :
    (static ⟨deepMachine.program, store, depth⟩ clock fuel deepField).1 =
      if depth + 1023 < maxDepth then .ok (.int 0) else .error (.error .stackOverflow) := by
  have howner : deepMachine.program.fieldOwner deepField = .ok deepClass := rfl
  have hinitialise := initialise_deep clock hB hfuel hdepth
  unfold static run
  simp only [howner, ofResult, bind, EStateM.bind, pure, EStateM.pure, hinitialise]
  by_cases hfits : depth + 1023 < maxDepth
  · have hlookup : (withBoth store).statics.lookup
        ⟨deepClass.name, deepField.name, deepField.descriptor⟩ = some (.int 0) := by
      rw [withBoth_statics]
      exact hx
    simp only [if_pos hfits, get, getThe, MonadStateOf.get, EStateM.get, hlookup, Option.getD_some]
  · simp only [if_neg hfits]

/-- A class is initialised in a new machine, but not behind a call that has overflowed. -/
theorem overflow_stays_counted :
    ClassFile.parse descendingBytes = .ok descendingFile ∧
      ClassFile.parse deepBytes = .ok deepFile ∧
      ofFiles [descendingFile, deepFile] = .ok deepMachine ∧ deepMachine.depth = 0 ∧
      ∀ clock fuel, 8000 ≤ fuel →
        (deepMachine.static clock fuel deepField).1 = .ok (.int 0) ∧
        ∃ m, deepMachine.invoke clock fuel descend [.int 1024] =
            (.error (.error .stackOverflow), m) ∧
          m.depth = 1 ∧ (m.static clock fuel deepField).1 = .error (.error .stackOverflow) := by
  refine ⟨by cbv, by cbv, ofFiles_deep, rfl, fun clock fuel hfuel => ⟨?_, ?_⟩⟩
  · exact static_deep clock List.not_mem_nil rfl hfuel (show 0 < maxDepth by decide)
  · have hrun : call ⟨deepMachine.program, clock⟩ fuel 0 descending [.int (Int32.ofNat 1024)]
        (withStarted deepMachine.store) = _ :=
      (call_descending clock (n := 1024) List.mem_cons_self (by omega) (by omega)).trans
        (if_neg (by decide))
    refine ⟨⟨deepMachine.program, withStarted deepMachine.store, 1⟩, ?_, rfl, ?_⟩
    · have hroutine : deepMachine.program.routine descend = .ok (descendingClass, descending) := rfl
      have hcheck : checkArguments descend [.int 1024] descending.params = .ok () := rfl
      unfold invoke run
      simp only [hroutine, ofResult, bind, EStateM.bind, pure, EStateM.pure, hcheck,
        initialise_descending]
      rw [show (1024 : Int32) = Int32.ofNat 1024 from rfl, hrun]
      rfl
    · exact static_deep clock (by decide) rfl hfuel (show 1 < maxDepth by decide)

end ClassWasm.Machine
