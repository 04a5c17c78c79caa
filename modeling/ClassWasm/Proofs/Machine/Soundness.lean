/-
  Typed methods run as their types say.

  Stack typing (`Typed`) says which kinds the stack has before each instruction, and running one
  (`perform`) keeps to it: where the stack has the kinds that typing gives it, the instruction
  leaves those that typing gives the next one (`perform_yields`). Calls do not change that, since a
  call returns a value of the kind of its method whatever has been done in between (`call_kind`) and
  keeps the kinds of static fields (`call_keeps`). So the kinds are right at every point of a run
  (`Point.Fits.reaches`), and a run can only stop for one of the reasons of `Tolerated`.
-/
import ClassWasm.Proofs.ClassFile.Parsed
import ClassWasm.Proofs.Machine.Statics

namespace ClassWasm

theorem Conversion.kind_eval (c : Conversion) (v : Value) : (c.eval v).kind = c.target := by
  cases c <;> cases v <;> rfl

namespace Machine

/-! ## Stops that are not the fault of types -/

/-- The routine of a method that a program has. -/
def Program.Has (p : Program) (r : Routine) : Prop :=
  ∃ c ∈ p, ∃ m ∈ c.methods, m.routine? = some (.ok r)

/-- How an operation may stop although it finds what its types promise: the frame is too small, a
variable holds another kind, an exception is thrown, a member cannot be found, or a method stops
that it calls with arguments of the right kinds. -/
inductive Tolerated (s : Setting) (caller : Caller) (op : Operation) : Stop → Prop
  | overflow (maxStack : Nat) : Tolerated s caller op (.frame (.overflow maxStack))
  | noLocal (index : Int) (maxLocals : Nat) :
    Tolerated s caller op (.frame (.noLocal index maxLocals))
  | wrongLocal (slot : Nat) (found wanted : Kind) :
    Tolerated s caller op (.error (.wrongLocal slot found wanted))
  | thrown (e : Native.Exception) : Tolerated s caller op (.error (.thrown e))
  | unresolvedField (ref : MemberRef) : Tolerated s caller op (.error (.unresolvedField ref))
  | unresolvedClass (name : Text) : Tolerated s caller op (.error (.unresolvedClass name))
  | noSuchMethod (ref : MemberRef) : Tolerated s caller op (.error (.noSuchMethod ref))
  | notRunnable (ref : MemberRef) : Tolerated s caller op (.error (.notRunnable ref))
  | load (e : LoadError) : Tolerated s caller op (.error (.load e))
  | passed {r : Routine} {args : List Value} {store store' : Store} {stop : Stop} :
    op.onFrame = false → s.program.Has r → args.map Value.kind = r.params →
    store.Fit s.program → caller r args store = .error stop store' → Tolerated s caller op stop

/-! ## Instructions that reach no further than their frame -/

/-- What an operation in a method that returns `ret` makes of its frame, where typing says that it
leaves the stack `out`. -/
def StepSound (s : Setting) (caller : Caller) (ret : Kind) (op : Operation) (out : List Kind) :
    EStateM.Result Stop Frame Control → Prop
  | .ok .next f => f.kinds = out ∧ op.fallsThrough = true
  | .ok (.jump t) f => f.kinds = out ∧ t ∈ op.branches
  | .ok (.ret v) _ => v.kind = ret
  | .error stop _ => Tolerated s caller op stop

section

variable {s : Setting} {caller : Caller} {ret : Kind} {op : Operation} {out : List Kind}

theorem stepSound_pushing {f : Frame} {v : Value} (hout : out = v.kind :: f.kinds)
    (hop : op.fallsThrough = true) : StepSound s caller ret op out (pushing v f) := by
  unfold pushing
  split
  · exact .overflow _
  · exact ⟨hout.symm, hop⟩

theorem step_sound (s : Setting) (caller : Caller) {f : Frame} (hop : op.onFrame = true)
    (hwf : op.WellFormed) (h : StackTyping.step ret op f.kinds = .ok out) :
    StepSound s caller ret op out (step op f) := by
  cases op with
  | getStatic | putStatic | invokeStatic => cases hop
  | nop =>
    cases h
    exact ⟨rfl, rfl⟩
  | const c =>
    cases h
    have hs : step (.const c) f = pushing (.ofConstant c) f := push_bind f _
    rw [hs]
    refine stepSound_pushing ?_ rfl
    rw [Value.kind_ofConstant]
    cases c <;> rfl
  | load kind slot =>
    cases h
    rw [step_load]
    split
    · exact .noLocal _ _
    · split
      · next hv => exact stepSound_pushing ((if_neg hwf).trans (by rw [hv])) rfl
      · exact .wrongLocal _ _ _
  | store kind slot =>
    obtain ⟨v, rest, hf, hv, rfl⟩ := List.map_eq_cons_iff.mp (StackTyping.pop_eq_ok h)
    rw [step_store hf hv]
    split
    · exact .noLocal _ _
    · exact ⟨rfl, rfl⟩
  | increment slot delta =>
    cases h
    rw [step_increment]
    split
    · exact .noLocal _ _
    · exact ⟨rfl, rfl⟩
  | arith a =>
    obtain ⟨mid, hpop, rfl⟩ := map_eq_ok h
    obtain ⟨v, w, rest, htakes, rfl⟩ := Arith.takes_of_kinds (StackTyping.pop_eq_ok hpop)
    rw [step_arith htakes]
    split
    · next u hu =>
      refine stepSound_pushing ?_ rfl
      rw [Arith.kind_eval hu]
      cases a <;> rfl
    · exact .thrown _
  | convert c =>
    obtain ⟨mid, hpop, rfl⟩ := map_eq_ok h
    obtain ⟨v, rest, hf, hv, rfl⟩ := List.map_eq_cons_iff.mp (StackTyping.pop_eq_ok hpop)
    rw [step_convert hf hv]
    refine stepSound_pushing ?_ rfl
    rw [Conversion.kind_eval]
    cases c <;> rfl
  | narrow n =>
    obtain ⟨mid, hpop, rfl⟩ := map_eq_ok h
    obtain ⟨v, rest, hf, hv, rfl⟩ := List.map_eq_cons_iff.mp (StackTyping.pop_eq_ok hpop)
    obtain ⟨a, rfl⟩ := Value.int_of_kind hv
    rw [step_narrow hf]
    exact stepSound_pushing rfl rfl
  | compare c =>
    obtain ⟨mid, hpop, rfl⟩ := map_eq_ok h
    obtain ⟨w, rest, hf, hw, hrest⟩ := List.map_eq_cons_iff.mp (StackTyping.pop_eq_ok hpop)
    obtain ⟨v, rest, rfl, hv, rfl⟩ := List.map_eq_cons_iff.mp hrest
    rw [step_compare hf hv hw]
    exact stepSound_pushing rfl rfl
  | stack op =>
    simp only [StackTyping.step] at h
    split at h
    · next sh hs =>
      cases h
      rcases step_stack hs with hrun | ⟨f', hrun⟩
      · rw [hrun]
        exact ⟨Shuffle.map_apply Value.kind sh f.stack, rfl⟩
      · rw [hrun]
        exact .overflow _
    · cases h
  | ret kind =>
    simp only [StackTyping.step] at h
    split at h
    · cases h
    · next hret =>
      obtain rfl := not_not.mp hret
      split at h
      · next hvoid =>
        subst hvoid
        exact rfl
      · next hvoid =>
        obtain ⟨v, rest, hf, hv, rfl⟩ := List.map_eq_cons_iff.mp (StackTyping.pop_eq_ok h)
        rw [step_ret hf hv hvoid]
        exact hv
  | goto t =>
    cases h
    exact ⟨rfl, List.mem_singleton.mpr rfl⟩
  | branch c t =>
    have hkinds := StackTyping.pop_eq_ok h
    have hrest : (f.stack.drop (StackTyping.conditionOperands c).length).map Value.kind = out := by
      rw [List.map_drop]
      exact (congrArg _ hkinds).trans List.drop_left
    rw [step_branch hkinds]
    split
    · exact ⟨hrest, List.mem_singleton.mpr rfl⟩
    · exact ⟨hrest, rfl⟩
  | tableSwitch default low ts =>
    obtain ⟨v, rest, hf, hv, rfl⟩ := List.map_eq_cons_iff.mp (StackTyping.pop_eq_ok h)
    obtain ⟨key, rfl⟩ := Value.int_of_kind hv
    rw [step_tableSwitch hf]
    exact ⟨rfl, tableTarget_mem default low ts key⟩
  | lookupSwitch default cases =>
    obtain ⟨v, rest, hf, hv, rfl⟩ := List.map_eq_cons_iff.mp (StackTyping.pop_eq_ok h)
    obtain ⟨key, rfl⟩ := Value.int_of_kind hv
    rw [step_lookupSwitch hf]
    exact ⟨rfl, lookupTarget_mem default cases key⟩

end

/-! ## Calls -/

/-- A method that returns gives a value of its kind. -/
theorem resume_kind {s : Setting} {fuel depth : Nat} {r : Routine} {pc : Nat} {f : Frame}
    {store store' : Store} {v : Value}
    (h : resume s fuel depth r pc f store = .ok v store') : v.kind = r.result := by
  induction fuel generalizing pc f store with
  | zero =>
    rw [resume] at h
    cases h
  | succ fuel ih =>
    rw [resume] at h
    cases hi : r.instrs[pc]? with
    | none =>
      rw [hi] at h
      cases h
    | some i =>
      rw [hi] at h
      simp only [bind, EStateM.bind] at h
      split at h
      · next o store₁ _ =>
        cases o with
        | next f pc => exact ih h
        | done w =>
          dsimp only at h
          split at h
          · next hw =>
            cases h
            exact hw
          · cases h
      · cases h

theorem call_kind {s : Setting} {fuel depth : Nat} {r : Routine} {args : List Value}
    {store store' : Store} {v : Value} (h : call s fuel depth r args store = .ok v store') :
    v.kind = r.result := by
  cases fuel with
  | zero =>
    rw [call] at h
    cases h
  | succ fuel =>
    rw [call] at h
    split at h
    · cases h
    · simp only [bind, EStateM.bind] at h
      split at h
      · exact resume_kind h
      · cases h

/-- What instructions rely on in the calls they make: static fields keep values of their kinds, and
a method returns a value of its own. -/
structure Caller.Sound (s : Setting) (caller : Caller) : Prop where
  keeps : ∀ r args, Keeps (Store.Fit s.program) (caller r args)
  kind : ∀ r args store v store', caller r args store = .ok v store' → v.kind = r.result

theorem call_sound (s : Setting) (fuel depth : Nat) : Caller.Sound s (call s fuel depth) :=
  ⟨call_keeps s fuel depth, fun _ _ _ _ _ => call_kind⟩

/-- From a store whose static fields have values of their kinds, the computation gives a value of
`Q` or stops as `op` may. -/
def Yields {α : Type} (s : Setting) (caller : Caller) (op : Operation) (x : Run α)
    (Q : α → Prop) : Prop :=
  ∀ store, store.Fit s.program → match x store with
    | .ok a _ => Q a
    | .error stop _ => Tolerated s caller op stop

section

variable {α β : Type} {s : Setting} {caller : Caller} {op : Operation}

theorem Yields.bind {x : Run α} {f : α → Run β} {P : α → Prop} {Q : β → Prop}
    (hx : Yields s caller op x P) (hk : Keeps (Store.Fit s.program) x)
    (hf : ∀ a, P a → Yields s caller op (f a) Q) : Yields s caller op (x >>= f) Q := by
  intro store h
  have hx := hx store h
  have hk := hk store h
  change match EStateM.bind x f store with
    | .ok b _ => Q b
    | .error stop _ => Tolerated s caller op stop
  unfold EStateM.bind
  cases hrun : x store with
  | ok a store' =>
    rw [hrun] at hx hk
    exact hf a hx store' hk
  | error stop store' =>
    rw [hrun] at hx
    exact hx

theorem Yields.map {x : Run α} {P : α → Prop} {Q : β → Prop} {g : α → β}
    (hx : Yields s caller op x P) (hg : ∀ a, P a → Q (g a)) : Yields s caller op (g <$> x) Q := by
  intro store h
  have hx := hx store h
  change match EStateM.map g x store with
    | .ok b _ => Q b
    | .error stop _ => Tolerated s caller op stop
  unfold EStateM.map
  cases hrun : x store with
  | ok a store' =>
    rw [hrun] at hx
    exact hg a hx
  | error stop store' =>
    rw [hrun] at hx
    exact hx

theorem yields_pure {a : α} {Q : α → Prop} (h : Q a) : Yields s caller op (pure a) Q :=
  fun _ _ => h

/-! ### Routines of a program -/

/-- Every class of the program is prepared from a loaded one. -/
def Program.Prepared (p : Program) : Prop := ∀ c ∈ p, ∃ l, c = .ofLoaded l

theorem load_of_routine {l : LoadedClass} {m : PreparedMethod} {r : Routine}
    (hm : m ∈ (PreparedClass.ofLoaded l).methods) (hr : m.routine? = some (.ok r)) :
    m.method ∈ l.file.methods ∧ ∃ code, m.method.code? = some code ∧
      Routine.load l.name l.file.pool m.method code = .ok r := by
  obtain ⟨method, hmethod, rfl⟩ := List.mem_map.mp hm
  obtain ⟨code, hcode, hload⟩ := Option.map_eq_some_iff.mp hr
  exact ⟨hmethod, code, hcode, hload⟩

/-- A routine takes and returns what the descriptor of its method says. -/
theorem Program.Prepared.type_of_routine {p : Program} (hp : p.Prepared) {c : PreparedClass}
    (hc : c ∈ p) {m : PreparedMethod} (hm : m ∈ c.methods) {r : Routine}
    (hr : m.routine? = some (.ok r)) :
    ∃ type, Descriptor.parseMethod m.method.descriptor = .ok type ∧
      r.params = type.params.map FieldType.kind ∧ r.result = type.resultKind := by
  obtain ⟨l, rfl⟩ := hp c hc
  obtain ⟨-, code, -, hload⟩ := load_of_routine hm hr
  obtain ⟨type, htype, -, -, -, hparams, hresult⟩ := Routine.load_eq_ok hload
  exact ⟨type, htype, hparams, hresult⟩

theorem findMethod?_eq_some {c : PreparedClass} {name descriptor : Text} {m : PreparedMethod}
    (h : c.findMethod? name descriptor = some m) :
    m ∈ c.methods ∧ m.method.descriptor = descriptor := by
  unfold PreparedClass.findMethod? at h
  have hname : m.method.name = name ∧ m.method.descriptor = descriptor := by
    simpa using List.find?_some h
  exact ⟨List.mem_of_find?_eq_some h, hname.2⟩

theorem routine_eq_ok {p : Program} {ref : MemberRef} {c : PreparedClass} {r : Routine}
    (h : p.routine ref = .ok (c, r)) :
    c ∈ p ∧ ∃ m ∈ c.methods, m.method.descriptor = ref.descriptor ∧ m.routine? = some (.ok r) := by
  obtain ⟨m, hrun, -, hloaded⟩ := routine_eq_ok_iff.mp h
  obtain ⟨_, c', hc', hpick⟩ := Lookup.exists_of_run hrun
  obtain ⟨m', hm', heq⟩ := Option.map_eq_some_iff.mp hpick
  cases heq
  obtain ⟨hmem, hdescriptor⟩ := findMethod?_eq_some hm'
  exact ⟨List.mem_of_find?_eq_some hc', m, hmem, hdescriptor, hloaded⟩

theorem tolerated_of_routine {p : Program} {ref : MemberRef} {e : Error}
    (h : p.routine ref = .error e) : Tolerated s caller op (.error e) := by
  unfold Program.routine at h
  split at h
  · cases h
    exact .unresolvedClass _
  · split at h
    · cases h
      exact .noSuchMethod ref
    · split at h
      · cases h
        exact .notRunnable ref
      · split at h
        · cases h
          exact .notRunnable ref
        · split at h
          · cases h
            exact .load _
          · cases h

/-! ### Initialising classes -/

theorem call_yields (hcaller : caller.Sound s) (hop : op.onFrame = false) {r : Routine}
    (hr : s.program.Has r) {args : List Value} (hargs : args.map Value.kind = r.params) :
    Yields s caller op (caller r args) fun v => v.kind = r.result := by
  intro store hfit
  cases hrun : caller r args store with
  | ok v store' => exact hcaller.kind r args store v store' hrun
  | error stop store' => exact .passed hop hr hargs hfit hrun

theorem mem_of_unstarted {p : Program} {n : Nat} {started : List Text} {c d : PreparedClass}
    (hc : c ∈ p) (h : d ∈ unstarted p n started c) : d ∈ p := by
  induction n generalizing started c with
  | zero => cases h
  | succ n ih =>
    unfold unstarted at h
    split at h
    · cases h
    · rcases List.mem_cons.mp h with rfl | h
      · exact hc
      · split at h
        · cases h
        · next super hsuper => exact ih (List.mem_of_find?_eq_some hsuper) h

theorem runInitialiser_yields (hp : s.program.Prepared) (hcaller : caller.Sound s)
    (hop : op.onFrame = false) {c : PreparedClass} (hc : c ∈ s.program) :
    Yields s caller op (runInitialiser caller c) fun _ => True := by
  unfold runInitialiser
  split
  · exact yields_pure trivial
  · exact fun _ _ => .load _
  · next r hr =>
    obtain ⟨m, hm, hroutine⟩ := Option.bind_eq_some_iff.mp hr
    obtain ⟨hmem, hdescriptor⟩ := findMethod?_eq_some hm
    obtain ⟨type, htype, hparams, -⟩ := hp.type_of_routine hc hmem hroutine
    rw [hdescriptor] at htype
    obtain rfl := Except.ok.inj (htype.symm.trans parseMethod_void)
    have hargs : ([] : List Value).map Value.kind = r.params := hparams.symm
    exact (call_yields hcaller hop ⟨c, hc, m, hmem, hroutine⟩ hargs).bind
      (hcaller.keeps _ _) fun _ _ => yields_pure trivial

theorem initialise_yields (hp : s.program.Prepared) (hcaller : caller.Sound s)
    (hop : op.onFrame = false) {c : PreparedClass} (hc : c ∈ s.program) :
    Yields s caller op (initialise s.program caller c) fun _ => True := by
  have hall (cs : List PreparedClass) (hcs : ∀ c ∈ cs, c ∈ s.program) :
      Yields s caller op (cs.forM (runInitialiser caller)) fun _ => True := by
    induction cs with
    | nil => exact yields_pure trivial
    | cons c cs ih =>
      refine (runInitialiser_yields hp hcaller hop (hcs c List.mem_cons_self)).bind
        (runInitialiser_keeps hcaller.keeps c) fun _ _ => ?_
      exact ih fun c hc => hcs c (List.mem_cons_of_mem _ hc)
  intro store h
  refine hall _ (fun d hd => ?_) _ h
  exact mem_of_unstarted hc (List.mem_reverse.mp hd)

/-! ## Instructions that reach beyond their frame -/

theorem push_yields (v : Value) {f : Frame} {ks : List Kind} (hks : ks = v.kind :: f.kinds) :
    Yields s caller op (do
      let (_, f) ← onFrame (Frame.push v) f
      pure f) fun f' => f'.kinds = ks := by
  intro store _
  simp only [bind, EStateM.bind, onFrame, access_run, Frame.push]
  by_cases hfull : f.stack.length ≥ f.maxStack
  · simp only [if_pos hfull]
    exact .overflow _
  · simp only [if_neg hfull]
    exact hks.symm

theorem getStatic_yields (hp : s.program.Prepared) (hcaller : caller.Sound s)
    (hop : op.onFrame = false) {f : Frame} {ref : MemberRef} {k : Kind}
    (h : StackTyping.fieldKind ref = .ok k) :
    Yields s caller op (getStatic s.program caller f ref) fun f' =>
      f'.kinds = StackTyping.push k f.kinds := by
  obtain ⟨t, ht, rfl⟩ := StackTyping.fieldKind_eq_ok h
  unfold getStatic
  cases hc : s.program.fieldOwner ref with
  | error e =>
    obtain rfl := fieldOwner_eq_error hc
    exact fun store _ => .unresolvedField ref
  | ok c =>
    obtain ⟨hmem, hstatic⟩ := fieldOwner_eq_ok hc
    simp only [ofResult, pure_bind]
    refine (initialise_yields hp hcaller hop hmem).bind (initialise_keeps hcaller.keeps c) ?_
    intro _ _ store hfit
    obtain ⟨t', v, ht', hv, hkind⟩ := hfit c hmem ref hstatic
    obtain rfl := Except.ok.inj (ht.symm.trans ht')
    have hfound : (store.statics.lookup ⟨c.name, ref.name, ref.descriptor⟩).getD default = v := by
      rw [staticKey] at hv
      rw [hv, Option.getD_some]
    refine push_yields _ ?_ store hfit
    rw [hfound, hkind]
    exact if_neg t.kind_ne_void

theorem putStatic_yields (hp : s.program.Prepared) (hcaller : caller.Sound s)
    (hop : op.onFrame = false) {f : Frame} {ref : MemberRef} {k : Kind} {out : List Kind}
    (h : StackTyping.fieldKind ref = .ok k) (hout : StackTyping.pop [k] f.kinds = .ok out) :
    Yields s caller op (putStatic s.program caller f ref) fun f' =>
      f'.kinds = out := by
  obtain ⟨t, ht, rfl⟩ := StackTyping.fieldKind_eq_ok h
  unfold putStatic
  cases hc : s.program.fieldOwner ref with
  | error e =>
    obtain rfl := fieldOwner_eq_error hc
    exact fun store _ => .unresolvedField ref
  | ok c =>
    obtain ⟨hmem, hstatic⟩ := fieldOwner_eq_ok hc
    simp only [ofResult, pure_bind]
    refine (initialise_yields hp hcaller hop hmem).bind (initialise_keeps hcaller.keeps c) ?_
    intro _ _ store hfit
    obtain ⟨t', old, ht', hold, hkind⟩ := hfit c hmem ref hstatic
    obtain rfl := Except.ok.inj (ht.symm.trans ht')
    obtain ⟨v, rest, hf, hv, rfl⟩ := List.map_eq_cons_iff.mp (StackTyping.pop_eq_ok hout)
    rw [staticKey] at hold
    simp only [bind, EStateM.bind, get, getThe, MonadStateOf.get, EStateM.get, hold,
      Option.getD_some, onFrame, access_run, popKind_run hf (hv.trans hkind.symm)]
    rfl

theorem popKinds_run {ks rest : List Kind} {f : Frame} (h : f.kinds = ks.reverse ++ rest) :
    ∃ args f', Frame.popKinds ks f = .ok args f' ∧ args.map Value.kind = ks ∧ f'.kinds = rest := by
  induction ks generalizing rest with
  | nil => exact ⟨[], f, rfl, rfl, h⟩
  | cons k ks ih =>
    rw [List.reverse_cons, List.append_assoc] at h
    obtain ⟨args, f₁, hrun, hargs, hf₁⟩ := ih h
    obtain ⟨v, vs, hstack, hv, hrest⟩ := List.map_eq_cons_iff.mp hf₁
    refine ⟨v :: args, { f₁ with stack := vs }, ?_, by rw [List.map_cons, hv, hargs], hrest⟩
    change (do
      let vs ← Frame.popKinds ks
      let v ← Frame.popKind k
      pure (v :: vs) : Frame.Access (List Value)) f = _
    simp only [bind, EStateM.bind, hrun, popKind_run hstack hv]
    rfl

theorem popKinds_yields {ks out : List Kind} {f : Frame}
    (h : StackTyping.pop ks.reverse f.kinds = .ok out) :
    Yields s caller op (onFrame (Frame.popKinds ks) f) fun af =>
      af.1.map Value.kind = ks ∧ af.2.kinds = out := by
  obtain ⟨args, f', hrun, hargs, hf'⟩ := popKinds_run (StackTyping.pop_eq_ok h)
  intro store _
  simp only [onFrame, access_run, hrun]
  exact ⟨hargs, hf'⟩

theorem pushResult_yields (f : Frame) {v : Value} {k : Kind} (hv : v.kind = k) :
    Yields s caller op (pushResult f v) fun f' => f'.kinds = StackTyping.push k f.kinds := by
  subst hv
  unfold pushResult
  split
  · next hvoid => exact yields_pure (by rw [hvoid]; rfl)
  · next hvoid => exact push_yields v (if_neg hvoid)

/-! ### Calls of methods -/

theorem invokeNative_yields {f : Frame} {m : Native.Method} {type : MethodType} {out : List Kind}
    (htype : Descriptor.parseMethod m.ref.descriptor = .ok type)
    (hout : StackTyping.pop (type.params.map FieldType.kind).reverse f.kinds = .ok out) :
    Yields s caller op (invokeNative s.clock f m) fun f' =>
      f'.kinds = StackTyping.push type.resultKind out := by
  unfold invokeNative
  rw [htype]
  refine (popKinds_yields hout).bind (keeps_onFrame _ _) fun af haf => ?_
  dsimp only
  split
  · next e _ => exact fun _ _ => .thrown e
  · rw [← haf.2]
    exact pushResult_yields _ (Value.kind_ofRaw _ _)

theorem invokeStatic_yields (hp : s.program.Prepared) (hcaller : caller.Sound s)
    (hop : op.onFrame = false) {f : Frame} {ref : MemberRef} {type : MethodType} {out : List Kind}
    (htype : Descriptor.parseMethod ref.descriptor = .ok type)
    (hout : StackTyping.pop (type.params.map FieldType.kind).reverse f.kinds = .ok out) :
    Yields s caller op (invokeStatic s caller f ref) fun f' =>
      f'.kinds = StackTyping.push type.resultKind out := by
  unfold invokeStatic
  split
  · next e he =>
    split
    · next m hm =>
      unfold Native.find? at hm
      have href : m.ref = ref := by simpa using List.find?_some hm
      exact invokeNative_yields (href ▸ htype) hout
    · exact fun _ _ => tolerated_of_routine he
  · next c r hr =>
    obtain ⟨hc, m, hm, hdescriptor, hroutine⟩ := routine_eq_ok hr
    obtain ⟨type', htype', hparams, hresult⟩ := hp.type_of_routine hc hm hroutine
    rw [hdescriptor] at htype'
    obtain rfl := Except.ok.inj (htype.symm.trans htype')
    rw [← hparams] at hout
    refine (popKinds_yields hout).bind (keeps_onFrame _ _) fun af haf => ?_
    refine (initialise_yields hp hcaller hop hc).bind (initialise_keeps hcaller.keeps _) fun _ _ => ?_
    refine (call_yields hcaller hop ⟨c, hc, m, hm, hroutine⟩ haf.1).bind (hcaller.keeps _ _) ?_
    intro v hv
    rw [← haf.2]
    exact pushResult_yields _ (hv.trans hresult)

end

/-! ## Points of a run -/

/-- What decoding and typing have found out about a routine. -/
structure Routine.Typed (r : Routine) (typing : Array (Option (List Kind))) : Prop where
  ascending : Ascending r.instrs
  offsets : r.offsets = .ofInstructions r.instrs
  wellFormed : ∀ i ∈ r.instrs, i.op.WellFormed
  typed : ClassWasm.Typed r.instrs r.result typing

/-- The stack has the kinds that typing gives it there, and static fields have theirs. -/
structure Point.Fits (p : Program) (typing : Array (Option (List Kind))) (q : Point) : Prop where
  kinds : StackTyping.stackAt typing q.pc = some q.frame.kinds
  statics : q.store.Fit p

section

variable {s : Setting} {r : Routine} {typing : Array (Option (List Kind))} {q : Point}
  {i : Instruction}

theorem Point.Fits.exists_instr (hr : r.Typed typing) (hq : q.Fits s.program typing) :
    ∃ i, r.instrs[q.pc]? = some i := by
  have hlt := StackTyping.lt_size_of_stackAt hq.kinds
  rw [hr.typed.size] at hlt
  exact ⟨_, Array.getElem?_eq_getElem hlt⟩

/-- What an instruction may do. -/
def Outcome.Fits (r : Routine) (typing : Array (Option (List Kind))) : Outcome → Prop
  | .next f pc => StackTyping.stackAt typing pc = some f.kinds
  | .done v => v.kind = r.result

theorem onFrame_yields (hr : r.Typed typing) (hi : r.instrs[q.pc]? = some i)
    (hq : q.Fits s.program typing) (hop : i.op.onFrame = true) (caller : Caller) :
    Yields s caller i.op (perform s caller r q.pc q.frame i) (Outcome.Fits r typing) := by
  obtain ⟨out, hstep, hbranches, hnext⟩ := hr.typed.follows q.pc _ hq.kinds i hi
  have hwf := hr.wellFormed i (Array.mem_of_getElem? hi)
  have hsound := step_sound s caller hop hwf hstep
  intro store _
  rw [perform_onFrame s caller r ⟨q.pc, q.frame, store⟩ hop]
  cases hs : step i.op q.frame with
  | error stop f =>
    rw [hs] at hsound
    exact hsound
  | ok control f =>
    rw [hs] at hsound
    cases control with
    | next =>
      obtain ⟨hf, hfalls⟩ := hsound
      rw [← hf] at hnext
      exact hnext hfalls
    | ret v => exact hsound
    | jump delta =>
      obtain ⟨hf, hdelta⟩ := hsound
      obtain ⟨t, ht, hat⟩ := hbranches delta hdelta
      have hfind : r.offsets.find? (i.absolute delta) = some t := by
        rw [hr.offsets]
        exact (OffsetTable.find?_ofInstructions hr.ascending).mpr ht
      dsimp only [Point.after]
      rw [hfind]
      rw [← hf] at hat
      exact hat

/-- Running an instruction keeps to the typing, whatever it calls. -/
theorem perform_yields (hp : s.program.Prepared) (hr : r.Typed typing)
    (hi : r.instrs[q.pc]? = some i) (hq : q.Fits s.program typing) {caller : Caller}
    (hcaller : caller.Sound s) :
    Yields s caller i.op (perform s caller r q.pc q.frame i) (Outcome.Fits r typing) := by
  obtain ⟨out, hstep, -, hnext⟩ := hr.typed.follows q.pc _ hq.kinds i hi
  have honward (hfalls : i.op.fallsThrough = true) (f : Frame) (hf : f.kinds = out) :
      Outcome.Fits r typing (.next f (q.pc + 1)) := by
    rw [← hf] at hnext
    exact hnext hfalls
  cases hop : i.op with
  | getStatic ref =>
    rw [hop] at hstep honward
    obtain ⟨k, hk, rfl⟩ := map_eq_ok hstep
    rw [perform, hop]
    exact (getStatic_yields hp hcaller rfl hk).map (honward rfl)
  | putStatic ref =>
    rw [hop] at hstep honward
    obtain ⟨k, hk, hpop⟩ := bind_eq_ok.mp hstep
    rw [perform, hop]
    exact (putStatic_yields hp hcaller rfl hk hpop).map (honward rfl)
  | invokeStatic ref =>
    rw [hop] at hstep honward
    obtain ⟨type, htype, hpop⟩ := bind_eq_ok.mp hstep
    obtain ⟨mid, hmid, rfl⟩ := map_eq_ok hpop
    rw [perform, hop]
    exact (invokeStatic_yields hp hcaller rfl (mapError_eq_ok htype) hmid).map (honward rfl)
  | _ =>
    have honFrame := onFrame_yields hr hi hq (by rw [hop]; rfl) caller
    rwa [hop] at honFrame

theorem Point.Fits.leads (hp : s.program.Prepared) (hr : r.Typed typing) {q' : Point}
    (hq : q.Fits s.program typing) (h : q.Leads s r q') : q'.Fits s.program typing := by
  obtain ⟨i, fuel, depth, hi, hrun⟩ := h
  have hcaller := call_sound s fuel depth
  have hyields := perform_yields hp hr hi hq hcaller q.store hq.statics
  have hkeeps := perform_keeps hcaller.keeps r q.pc q.frame i q.store hq.statics
  rw [hrun] at hyields hkeeps
  exact ⟨hyields, hkeeps⟩

theorem Point.Fits.reaches (hp : s.program.Prepared) (hr : r.Typed typing) {q' : Point}
    (hq : q.Fits s.program typing) (h : q.Reaches s r q') : q'.Fits s.program typing := by
  induction h with
  | refl => exact hq
  | tail _ hlast ih => exact ih.leads hp hr hlast

/-! ## Whole runs -/

/-- How a call of a typed routine may end, where its instructions run under `depth` calls: with a
value of its kind, without fuel, too deep, without room for its arguments, or with a stop of one of
its instructions that is not the fault of types. -/
def Ends (s : Setting) (r : Routine) (depth : Nat) : EStateM.Result Stop Store Value → Prop
  | .ok v store => v.kind = r.result ∧ store.Fit s.program
  | .error stop store => store.Fit s.program ∧ (stop = .exhausted ∨ stop = .error .stackOverflow ∨
    (∃ index maxLocals, stop = .frame (.noLocal index maxLocals)) ∨
    ∃ i ∈ r.instrs, ∃ fuel reason, Tolerated s (call s fuel depth) i.op reason ∧
      stop = reason.within r.ref i.offset)

theorem resume_sound (hp : s.program.Prepared) (hr : r.Typed typing) {fuel depth : Nat}
    (hq : q.Fits s.program typing) :
    Ends s r depth (resume s fuel depth r q.pc q.frame q.store) := by
  induction fuel generalizing q with
  | zero =>
    rw [resume]
    exact ⟨hq.statics, .inl rfl⟩
  | succ fuel ih =>
    obtain ⟨i, hi⟩ := hq.exists_instr hr
    have hcaller := call_sound s fuel depth
    have hyields := perform_yields hp hr hi hq hcaller q.store hq.statics
    have hkeeps := perform_keeps hcaller.keeps r q.pc q.frame i q.store hq.statics
    rw [resume, hi]
    simp only [bind, EStateM.bind, reported]
    cases hrun : perform s (call s fuel depth) r q.pc q.frame i q.store with
    | error reason store =>
      rw [hrun] at hyields hkeeps
      exact ⟨hkeeps, .inr (.inr (.inr ⟨i, Array.mem_of_getElem? hi, fuel, reason, hyields, rfl⟩))⟩
    | ok o store =>
      rw [hrun] at hyields hkeeps
      cases o with
      | next f pc => exact ih (q := ⟨pc, f, store⟩) ⟨hyields, hkeeps⟩
      | done v =>
        have hv : v.kind = r.result := hyields
        dsimp only
        rw [if_pos hv]
        exact ⟨hv, hkeeps⟩

theorem enter_error {slot : Nat} {args : List Value} {f f' : Frame} {fault : Frame.Fault}
    (h : Frame.enter slot args f = .error fault f') :
    ∃ index maxLocals, fault = .noLocal index maxLocals := by
  induction args generalizing slot f with
  | nil => cases h
  | cons v args ih =>
    simp only [Frame.enter, bind, EStateM.bind, Frame.setLocal] at h
    split at h
    · exact ih h
    · next hset =>
      cases h
      split at hset
      · cases hset
        exact ⟨_, _, rfl⟩
      · cases hset

/-- A call starts with nothing on the stack. -/
theorem Point.fits_start (hr : r.Typed typing) (hne : r.instrs ≠ #[]) {args : List Value}
    {f : Frame} (hf : Frame.enter 0 args (.fresh r.maxLocals r.maxStack) = .ok () f) {store : Store}
    (hstore : store.Fit s.program) : Point.Fits s.program typing ⟨0, f, store⟩ := by
  refine ⟨?_, hstore⟩
  have hpos : 0 < r.instrs.size := Array.size_pos_iff.mpr hne
  rw [Frame.kinds, (enter_spec hf).stack]
  exact hr.typed.start hpos

theorem typed_call_ends (hp : s.program.Prepared) (hr : r.Typed typing) (hne : r.instrs ≠ #[])
    (fuel depth : Nat) (args : List Value) {store : Store} (hstore : store.Fit s.program) :
    Ends s r (depth + 1) (call s fuel depth r args store) := by
  cases fuel with
  | zero =>
    rw [call]
    exact ⟨hstore, .inl rfl⟩
  | succ fuel =>
    rw [call]
    split
    · exact ⟨hstore, .inr (.inl rfl)⟩
    · simp only [bind, EStateM.bind, onFrame, access_run]
      cases hf : Frame.enter 0 args (.fresh r.maxLocals r.maxStack) with
      | error fault f =>
        obtain ⟨index, maxLocals, rfl⟩ := enter_error hf
        exact ⟨hstore, .inr (.inr (.inl ⟨index, maxLocals, rfl⟩))⟩
      | ok u f => exact resume_sound hp hr (Point.fits_start hr hne hf hstore)

end

/-! ## Machines over time -/

theorem Program.Prepared.typed {p : Program} (hp : p.Prepared) {r : Routine} (hr : p.Has r)
    {typing : Array (Option (List Kind))} (ht : stackTyping r.result r.instrs = .ok typing) :
    r.Typed typing := by
  obtain ⟨c, hc, m, hm, hroutine⟩ := hr
  obtain ⟨l, rfl⟩ := hp c hc
  obtain ⟨-, code, -, hload⟩ := load_of_routine hm hroutine
  obtain ⟨-, -, -, hdecode, hoffsets, -⟩ := Routine.load_eq_ok hload
  have hasc := ascending_of_decode hdecode
  refine ⟨hasc, hoffsets, fun i hi => ?_, stackTyping_typed hasc ht⟩
  exact ((decode_tiles hdecode).bounds (Array.mem_toList_iff.mpr hi)).2.1

/-- What holds where the run of a typed routine is about to run an instruction: there is one, the
stack has the kinds that typing gives it, and every static field has a value of its kind. The
instruction goes on to another one, or returns a value of the kind of the routine, or stops for a
reason that is not the fault of types, whatever sound calls it makes. -/
structure Point.Sound (s : Setting) (r : Routine) (typing : Array (Option (List Kind)))
    (q : Point) : Prop where
  instr : ∃ i, r.instrs[q.pc]? = some i
  kinds : StackTyping.stackAt typing q.pc = some q.frame.kinds
  statics : q.store.Fit s.program
  performs : ∀ i, r.instrs[q.pc]? = some i → ∀ caller : Caller, caller.Sound s →
    match perform s caller r q.pc q.frame i q.store with
    | .ok (.next _ pc) _ => ∃ j, r.instrs[pc]? = some j
    | .ok (.done v) _ => v.kind = r.result
    | .error stop _ => Tolerated s caller i.op stop

theorem Point.Fits.sound {s : Setting} (hp : s.program.Prepared) {r : Routine}
    {typing : Array (Option (List Kind))} (hr : r.Typed typing) {q : Point}
    (hq : q.Fits s.program typing) : q.Sound s r typing := by
  refine ⟨hq.exists_instr hr, hq.kinds, hq.statics, ?_⟩
  intro i hi caller hcaller
  have hyields := perform_yields hp hr hi hq hcaller q.store hq.statics
  cases hrun : perform s caller r q.pc q.frame i q.store with
  | error stop store =>
    rw [hrun] at hyields
    exact hyields
  | ok o store =>
    rw [hrun] at hyields
    cases o with
    | done v => exact hyields
    | next f pc =>
      have hlt := StackTyping.lt_size_of_stackAt hyields
      rw [hr.typed.size] at hlt
      exact ⟨_, Array.getElem?_eq_getElem hlt⟩

/-- Types are sound. In a machine that has been set up from class files and has run any methods
since, every static field has a value of its kind. A method whose stacks can be typed finds the
typed kinds on its stack before every instruction, wherever its run gets to, and does not end for
want of another kind, of a value, of a target or of an instruction. Its body is not empty where the
class files have been parsed. -/
theorem machine_sound {files : List ClassFile} {m₀ m : Machine} (h₀ : ofFiles files = .ok m₀)
    (hm : Follows m₀ m) {r : Routine} (hr : m.program.Has r)
    {typing : Array (Option (List Kind))} (ht : stackTyping r.result r.instrs = .ok typing) :
    m.store.Fit m.program ∧
    ((∀ file ∈ files, ∃ bytes, ClassFile.parse bytes = .ok file) → r.instrs ≠ #[]) ∧
    (r.instrs ≠ #[] → ∀ (clock : Native.Clock) (args : List Value) (store : Store),
      store.Fit m.program →
      (∀ f q, Frame.enter 0 args (.fresh r.maxLocals r.maxStack) = .ok () f →
        Point.Reaches ⟨m.program, clock⟩ r ⟨0, f, store⟩ q → q.Sound ⟨m.program, clock⟩ r typing) ∧
      ∀ fuel depth,
        Ends ⟨m.program, clock⟩ r (depth + 1) (call ⟨m.program, clock⟩ fuel depth r args store)) := by
  have hloaded := ofFiles_loaded h₀
  obtain ⟨hprogram, hfit⟩ := hm.fit hloaded.fit
  have hfiles (c : PreparedClass) (hc : c ∈ m.program) : ∃ l, l.file ∈ files ∧ c = .ofLoaded l :=
    hloaded.prepared c (hprogram ▸ hc)
  have hp : m.program.Prepared := fun c hc => (hfiles c hc).imp fun l hl => hl.2
  have htyped := hp.typed hr ht
  refine ⟨hfit, fun hparsed hempty => ?_, fun hne clock args store hstore => ⟨?_, ?_⟩⟩
  · obtain ⟨c, hc, pm, hpm, hroutine⟩ := hr
    obtain ⟨l, hl, rfl⟩ := hfiles c hc
    obtain ⟨hmethod, code, hcode, hload⟩ := load_of_routine hpm hroutine
    obtain ⟨-, -, -, hdecode, -⟩ := Routine.load_eq_ok hload
    obtain ⟨bytes, hbytes⟩ := hparsed l.file hl
    have hcodeBytes := ClassFile.parse_code hbytes hmethod hcode
    have htiles : 0 = code.bytes.length := by
      have := decode_tiles hdecode
      rwa [hempty] at this
    exact hcodeBytes (List.length_eq_zero_iff.mp htiles.symm)
  · intro f q hf hq
    exact ((Point.fits_start htyped hne hf hstore).reaches hp htyped hq).sound hp htyped
  · exact fun fuel depth => typed_call_ends hp htyped hne fuel depth args hstore

/-! ## A counter -/

def tickPool : Pool :=
  ⟨#[none, some (.utf8 "A"), some (.classRef 1), some (.utf8 "x"), some (.utf8 "I"),
    some (.nameAndType 3 4), some (.fieldRef 2 5)]⟩

def tickCode : Code := ⟨2, 0, [0xb2, 0, 6, 0x04, 0x60, 0xb3, 0, 6, 0xb1], [], []⟩

def tickMethod : Method := ⟨⟨0x0008⟩, "tick", "()V", [.code tickCode]⟩

def tickFile : ClassFile :=
  ⟨0, 61, tickPool, ⟨0x0020⟩, 2, 0, [], [⟨⟨0x0008⟩, "x", "I", []⟩], [tickMethod], []⟩

def tickInstrs : Array Instruction :=
  #[⟨0, 3, 0xb2, false, .getStatic ⟨"A", "x", "I"⟩⟩, ⟨3, 1, 0x04, false, .const (.int 1)⟩,
    ⟨4, 1, 0x60, false, .arith (.int .add)⟩, ⟨5, 3, 0xb3, false, .putStatic ⟨"A", "x", "I"⟩⟩,
    ⟨8, 1, 0xb1, false, .ret .void⟩]

def tickRoutine : Routine :=
  ⟨⟨"A", "tick", "()V"⟩, [], .void, 0, 2, tickInstrs, .ofInstructions tickInstrs⟩

def tickMachine : Machine where
  program := [⟨⟨tickFile, "A", .empty⟩, [⟨tickMethod, some (.ok tickRoutine)⟩]⟩]
  store := { statics := [(⟨"A", "x", "I"⟩, .int 0)] }

theorem load_tickMethod : Routine.load "A" tickPool tickMethod tickCode = .ok tickRoutine := by
  have hdecode : decode tickPool tickCode.bytes = .ok tickInstrs :=
    ok_of_toOption (by decide +kernel)
  simp only [Routine.load, tickMethod, parseMethod_void, hdecode]
  rfl

theorem ofFiles_tickFile : ofFiles [tickFile] = .ok tickMachine := by
  have hname : LoadedClass.ofFile tickFile = .ok ⟨tickFile, "A", .empty⟩ := rfl
  have hprepared : PreparedClass.ofLoaded ⟨tickFile, "A", .empty⟩ =
      ⟨⟨tickFile, "A", .empty⟩, [⟨tickMethod, some (.ok tickRoutine)⟩]⟩ := by
    rw [← load_tickMethod]
    rfl
  have hstatics : classStatics ⟨tickFile, "A", .empty⟩ = .ok [(⟨"A", "x", "I"⟩, .int 0)] := rfl
  have hadd : addClass ([], []) tickFile =
      .ok (tickMachine.program, tickMachine.store.statics) := by
    rw [addClass, hname]
    simp only [Except.mapError, hstatics, hprepared, bind, Except.bind]
    rfl
  unfold ofFiles
  rw [List.foldlM_cons, hadd]
  rfl

theorem stackTyping_tickInstrs :
    stackTyping .void tickInstrs =
      .ok #[some [], some [.int], some [.int, .int], some [.int], some []] :=
  ok_of_toOption (by decide +kernel)

theorem machine_sound_tick :
    ofFiles [tickFile] = .ok tickMachine ∧ tickMachine.program.Has tickRoutine ∧
      tickMachine.store.Fit tickMachine.program ∧
      ∀ clock fuel depth, Ends ⟨tickMachine.program, clock⟩ tickRoutine (depth + 1)
        (call ⟨tickMachine.program, clock⟩ fuel depth tickRoutine [] tickMachine.store) := by
  have hhas : tickMachine.program.Has tickRoutine :=
    ⟨_, List.mem_cons_self, _, List.mem_cons_self, rfl⟩
  obtain ⟨hfit, -, hruns⟩ := machine_sound ofFiles_tickFile .start hhas stackTyping_tickInstrs
  have hne : tickRoutine.instrs ≠ #[] := fun h => absurd (congrArg Array.size h) (by decide)
  exact ⟨ofFiles_tickFile, hhas, hfit, fun clock => (hruns hne clock [] _ hfit).2⟩

end Machine

end ClassWasm
