/-
  Static fields keep their kinds. Loading classes gives every static field a value of the kind of
  its descriptor (`ofFiles_fit`), and whatever a machine runs afterwards keeps that, whether the
  run ends with a value or stops (`call_keeps`, `Follows.fit`): the only instruction that writes a
  field takes a value of the kind that is there.
-/
import ClassWasm.Proofs.Loading
import ClassWasm.Proofs.Machine.Runs

namespace ClassWasm.Machine

variable {α β : Type} {I : Store → Prop}

/-! ## What runs keep -/

/-- The computation keeps what holds of the store, however it ends. -/
def Keeps (I : Store → Prop) (x : Run α) : Prop :=
  ∀ store, I store → match x store with
    | .ok _ store' => I store'
    | .error _ store' => I store'

theorem keeps_pure (a : α) : Keeps I (pure a : Run α) := fun _ h => h

theorem keeps_throw (e : Stop) : Keeps I (throw e : Run α) := fun _ h => h

theorem keeps_get : Keeps I (get : Run Store) := fun _ h => h

theorem keeps_ofResult (x : Except Error α) : Keeps I (ofResult x) := by
  cases x with
  | ok a => exact keeps_pure a
  | error e => exact keeps_throw _

theorem keeps_onFrame (x : Step α) (f : Frame) : Keeps I (onFrame x f) := by
  intro store h
  unfold onFrame
  cases x f <;> exact h

theorem Keeps.bind {x : Run α} {f : α → Run β} (hx : Keeps I x) (hf : ∀ a, Keeps I (f a)) :
    Keeps I (x >>= f) := by
  intro store h
  have hx := hx store h
  change match EStateM.bind x f store with
    | .ok _ store' => I store'
    | .error _ store' => I store'
  unfold EStateM.bind
  cases hrun : x store with
  | ok a store' =>
    rw [hrun] at hx
    exact hf a store' hx
  | error e store' =>
    rw [hrun] at hx
    exact hx

theorem Keeps.map {x : Run α} (hx : Keeps I x) (g : α → β) : Keeps I (g <$> x) := by
  intro store h
  have hx := hx store h
  change match EStateM.map g x store with
    | .ok _ store' => I store'
    | .error _ store' => I store'
  unfold EStateM.map
  cases hrun : x store <;> rw [hrun] at hx <;> exact hx

theorem Keeps.reported {x : Run α} (hx : Keeps I x) (r : Routine) (offset : Nat) :
    Keeps I (reported r offset x) := by
  intro store h
  have hx := hx store h
  unfold Machine.reported
  cases hrun : x store <;> rw [hrun] at hx <;> exact hx

theorem keeps_forM {f : α → Run Unit} {as : List α} (hf : ∀ a ∈ as, Keeps I (f a)) :
    Keeps I (as.forM f) := by
  induction as with
  | nil => exact keeps_pure ()
  | cons a as ih =>
    exact (hf a List.mem_cons_self).bind fun _ => ih fun b hb => hf b (List.mem_cons_of_mem _ hb)

theorem pushResult_keeps (f : Frame) (v : Value) : Keeps I (pushResult f v) := by
  unfold pushResult
  split
  · exact keeps_pure f
  · exact (keeps_onFrame _ _).bind fun _ => keeps_pure _

theorem invokeNative_keeps (clock : Native.Clock) (f : Frame) (m : Native.Method) :
    Keeps I (invokeNative clock f m) := by
  unfold invokeNative
  split
  · exact keeps_throw _
  · refine (keeps_onFrame _ _).bind fun af => ?_
    dsimp only
    split
    · exact keeps_throw _
    · exact pushResult_keeps _ _

/-! ## Runs keep the kinds of static fields -/

/-- The static fields of a store have values of their kinds. -/
def Store.Fit (p : Program) (store : Store) : Prop := store.statics.Fit p

theorem kind_of_popKind {k : Kind} {f f' : Frame} {v : Value}
    (h : Frame.popKind k f = .ok v f') : v.kind = k := by
  simp only [Frame.popKind, Frame.pop, bind, EStateM.bind] at h
  split at h
  · split at h
    · next hk =>
      cases h
      exact hk
    · cases h
  · cases h

section

variable {s : Setting} {caller : Caller}
  (hcaller : ∀ r args, Keeps (Store.Fit s.program) (caller r args))

include hcaller

theorem runInitialiser_keeps (c : PreparedClass) :
    Keeps (Store.Fit s.program) (runInitialiser caller c) := by
  unfold runInitialiser
  split
  · exact keeps_pure ()
  · exact keeps_throw _
  · exact (hcaller _ _).bind fun _ => keeps_pure ()

theorem initialise_keeps (c : PreparedClass) :
    Keeps (Store.Fit s.program) (initialise s.program caller c) := by
  intro store h
  exact keeps_forM (fun c _ => runInitialiser_keeps hcaller c) _ h

theorem getStatic_keeps (f : Frame) (ref : MemberRef) :
    Keeps (Store.Fit s.program) (getStatic s.program caller f ref) := by
  refine (keeps_ofResult _).bind fun c => (initialise_keeps hcaller c).bind fun _ => ?_
  exact keeps_get.bind fun store => (keeps_onFrame _ _).bind fun _ => keeps_pure _

theorem putStatic_keeps (f : Frame) (ref : MemberRef) :
    Keeps (Store.Fit s.program) (putStatic s.program caller f ref) := by
  unfold putStatic
  cases hc : s.program.fieldOwner ref with
  | error e => exact fun store h => h
  | ok c =>
    obtain ⟨hmem, hstatic⟩ := fieldOwner_eq_ok hc
    simp only [ofResult, pure_bind]
    refine (initialise_keeps hcaller c).bind fun _ store h => ?_
    obtain ⟨t, old, -, hold, -⟩ := h c hmem ref hstatic
    rw [staticKey] at hold
    simp only [bind, EStateM.bind, get, getThe, MonadStateOf.get, EStateM.get, hold,
      Option.getD_some, onFrame, access_run]
    cases hpop : Frame.popKind old.kind f with
    | error e f' => exact h
    | ok v f' => exact Statics.Fit.set h hold (kind_of_popKind hpop)

theorem invokeStatic_keeps (f : Frame) (ref : MemberRef) :
    Keeps (Store.Fit s.program) (invokeStatic s caller f ref) := by
  unfold invokeStatic
  split
  · split
    · exact invokeNative_keeps _ _ _
    · exact keeps_throw _
  · refine (keeps_onFrame _ _).bind fun af => (initialise_keeps hcaller _).bind fun _ => ?_
    exact (hcaller _ _).bind fun v => pushResult_keeps _ v

theorem perform_keeps (r : Routine) (pc : Nat) (f : Frame) (i : Instruction) :
    Keeps (Store.Fit s.program) (perform s caller r pc f i) := by
  unfold perform
  split
  · exact (getStatic_keeps hcaller f _).map _
  · exact (putStatic_keeps hcaller f _).map _
  · exact (invokeStatic_keeps hcaller f _).map _
  · refine (keeps_onFrame _ _).bind fun cf => ?_
    dsimp only
    split
    · exact keeps_pure _
    · exact keeps_pure _
    · split
      · exact keeps_pure _
      · exact keeps_throw _

end

/-- Whatever runs, static fields keep values of their kinds. -/
theorem run_keeps (s : Setting) (fuel : Nat) :
    (∀ depth r args, Keeps (Store.Fit s.program) (call s fuel depth r args)) ∧
      ∀ depth r pc f, Keeps (Store.Fit s.program) (resume s fuel depth r pc f) := by
  induction fuel with
  | zero =>
    refine ⟨fun depth r args => ?_, fun depth r pc f => ?_⟩
    · rw [call]
      exact keeps_throw _
    · rw [resume]
      exact keeps_throw _
  | succ fuel ih =>
    obtain ⟨hcall, hresume⟩ := ih
    refine ⟨fun depth r args => ?_, fun depth r pc f => ?_⟩
    · rw [call]
      split
      · exact keeps_throw _
      · exact (keeps_onFrame _ _).bind fun uf => hresume _ _ _ _
    · rw [resume]
      split
      · exact keeps_throw _
      · next i _ =>
        have hperform := perform_keeps (hcall depth) r pc f i
        refine (hperform.reported r i.offset).bind fun o => ?_
        cases o with
        | next f pc => exact hresume depth r pc f
        | done v =>
          dsimp only
          split
          · exact keeps_pure v
          · exact keeps_throw _

theorem call_keeps (s : Setting) (fuel depth : Nat) (r : Routine) (args : List Value) :
    Keeps (Store.Fit s.program) (call s fuel depth r args) := (run_keeps s fuel).1 depth r args

/-! ## Loading -/

/-- Every class of a program is prepared from one of the class files, and every static field has a
value of its kind. -/
structure Loaded (files : List ClassFile) (p : Program) (statics : Statics) : Prop where
  prepared : ∀ c ∈ p, ∃ l, l.file ∈ files ∧ c = .ofLoaded l
  owners : ∀ entry ∈ statics, ∃ c ∈ p, c.name = entry.1.owner
  fit : statics.Fit p

theorem initialValue_kind {owner : Text} {f : Field} {v : Value}
    (h : initialValue owner f = .ok v) :
    ∃ t, Descriptor.parseField f.descriptor = .ok t ∧ v.kind = t.kind := by
  obtain ⟨t, ht, h⟩ := bind_eq_ok.mp h
  refine ⟨t, mapError_eq_ok ht, ?_⟩
  split at h
  · cases h
    exact Value.kind_zero t.kind
  · next entry _ =>
    split at h
    · next w hw =>
      cases h
      unfold constantValue? at hw
      split at hw
      all_goals first
        | cases hw
        | (split at hw
           · next hk =>
             cases hw
             exact hk.symm
           · cases hw)
    · cases h

/-- An entry of a static field with the value it starts with. -/
def InitialEntry (owner : Text) (f : Field) (entry : MemberRef × Value) : Prop :=
  entry.1 = ⟨owner, f.name, f.descriptor⟩ ∧ initialValue owner f = .ok entry.2

theorem classStatics_entries {c : LoadedClass} {statics : Statics}
    (h : classStatics c = .ok statics) :
    List.Forall₂ (InitialEntry c.name) c.staticFields statics.reverse := by
  obtain ⟨entries, hentries, h⟩ := bind_eq_ok.mp h
  cases h
  rw [List.reverse_reverse]
  refine (forall₂_of_mapM hentries).imp fun f entry hentry => ?_
  obtain ⟨v, hv, hentry⟩ := bind_eq_ok.mp hentry
  cases hentry
  exact ⟨rfl, hv⟩

theorem lookup_of_mem {statics : Statics} {entry : MemberRef × Value} (h : entry ∈ statics) :
    ∃ v, statics.lookup entry.1 = some v ∧ (entry.1, v) ∈ statics := by
  cases hv : statics.lookup entry.1 with
  | none =>
    have := List.lookup_eq_none_iff.mp hv entry h
    simp at this
  | some v =>
    obtain ⟨before, after, rfl, -⟩ := List.lookup_eq_some_iff.mp hv
    exact ⟨v, rfl, by simp⟩

theorem mem_statics {classes : Hierarchy} {blocks : List Statics} (h : StaticsOf classes blocks)
    {entry : MemberRef × Value} :
    entry ∈ blocks.flatten ↔
      ∃ c ∈ classes, ∃ f ∈ c.staticFields, InitialEntry c.name f entry := by
  rw [List.mem_flatten]
  constructor
  · rintro ⟨block, hblock, hentry⟩
    obtain ⟨c, hc, hstatics⟩ := mem_left_of_forall₂ h hblock
    obtain ⟨f, hf, hinitial⟩ := mem_left_of_forall₂ (classStatics_entries hstatics)
      (List.mem_reverse.mpr hentry)
    exact ⟨c, hc, f, hf, hinitial⟩
  · rintro ⟨c, hc, f, hf, hinitial⟩
    obtain ⟨block, hblock, hstatics⟩ := mem_right_of_forall₂ h hc
    obtain ⟨entry', hentry', hinitial'⟩ :=
      mem_right_of_forall₂ (classStatics_entries hstatics) hf
    have heq : entry' = entry := Prod.ext (hinitial'.1.trans hinitial.1.symm)
      (Except.ok.inj (hinitial'.2.symm.trans hinitial.2))
    exact ⟨block, hblock, List.mem_reverse.mp (heq ▸ hentry')⟩

theorem ofFiles_loaded {files : List ClassFile} {m : Machine} (h : ofFiles files = .ok m) :
    Loaded files m.program m.store.statics := by
  obtain ⟨classes, blocks, hloads, hblocks, rfl⟩ := ofFiles_eq_ok.mp h
  refine ⟨fun c hc => ?_, fun entry he => ?_, fun c hc ref hstatic => ?_⟩
  · obtain ⟨l, hl, rfl⟩ := List.mem_map.mp hc
    exact ⟨l, hloads.files.map_file ▸ List.mem_map_of_mem hl, rfl⟩
  · obtain ⟨l, hl, f, -, hkey, -⟩ := (mem_statics hblocks).mp he
    exact ⟨.ofLoaded l, List.mem_map_of_mem hl, by rw [hkey]; rfl⟩
  · obtain ⟨l, hl, rfl⟩ := List.mem_map.mp hc
    obtain ⟨f, hf, hname⟩ := List.any_eq_true.mp hstatic
    obtain ⟨hname, hdescriptor⟩ := of_decide_eq_true hname
    obtain ⟨block, -, hstatics⟩ := mem_right_of_forall₂ hblocks hl
    obtain ⟨entry, -, hinitial⟩ := mem_right_of_forall₂ (classStatics_entries hstatics) hf
    obtain ⟨v, hv, hmem⟩ := lookup_of_mem ((mem_statics hblocks).mpr ⟨l, hl, f, hf, hinitial⟩)
    -- Of several fields of that name and type another one may count.
    obtain ⟨l', -, f', -, hkey, hv'⟩ := (mem_statics hblocks).mp hmem
    obtain ⟨t, ht, hkind⟩ := initialValue_kind hv'
    have hsame : f.descriptor = f'.descriptor :=
      congrArg MemberRef.descriptor (hinitial.1.symm.trans hkey)
    refine ⟨t, v, hdescriptor ▸ hsame ▸ ht, ?_, hkind⟩
    rw [hinitial.1, hname, hdescriptor] at hv
    exact hv

/-! ## Machines over time -/

/-- A machine that has come about by invoking methods and reading fields. -/
inductive Follows (m₀ : Machine) : Machine → Prop
  | start : Follows m₀ m₀
  | invoke {m : Machine} (clock : Native.Clock) (fuel : Nat) (ref : MemberRef) (args : List Value) :
    Follows m₀ m → Follows m₀ (m.invoke clock fuel ref args).2
  | static {m : Machine} (clock : Native.Clock) (fuel : Nat) (ref : MemberRef) :
    Follows m₀ m → Follows m₀ (m.static clock fuel ref).2

theorem run_fit {m : Machine} (depth : Nat) {x : Run α} (hx : Keeps (Store.Fit m.program) x)
    (h : m.store.Fit m.program) :
    (m.run depth x).2.program = m.program ∧ (m.run depth x).2.store.Fit m.program := by
  have hx := hx m.store h
  unfold run
  cases hrun : x m.store <;> rw [hrun] at hx <;> exact ⟨rfl, hx⟩

theorem invoke_fit {m : Machine} (clock : Native.Clock) (fuel : Nat) (ref : MemberRef)
    (args : List Value) (h : m.store.Fit m.program) :
    (m.invoke clock fuel ref args).2.program = m.program ∧
      (m.invoke clock fuel ref args).2.store.Fit m.program := by
  have hcall := call_keeps ⟨m.program, clock⟩ fuel 0
  refine run_fit 0 ?_ h
  refine (keeps_ofResult _).bind fun cr => (keeps_ofResult _).bind fun _ => ?_
  exact (initialise_keeps hcall cr.1).bind fun _ => hcall cr.2 args

theorem static_fit {m : Machine} (clock : Native.Clock) (fuel : Nat) (ref : MemberRef)
    (h : m.store.Fit m.program) :
    (m.static clock fuel ref).2.program = m.program ∧
      (m.static clock fuel ref).2.store.Fit m.program := by
  have hcall := call_keeps ⟨m.program, clock⟩ fuel m.depth
  refine run_fit m.depth ?_ h
  refine (keeps_ofResult _).bind fun c => (initialise_keeps hcall c).bind fun _ => ?_
  exact keeps_get.bind fun store => keeps_pure _

/-- Static fields have values of their kinds at all times. -/
theorem Follows.fit {m₀ m : Machine} (h : Follows m₀ m) (h₀ : m₀.store.Fit m₀.program) :
    m.program = m₀.program ∧ m.store.Fit m.program := by
  induction h with
  | start => exact ⟨rfl, h₀⟩
  | invoke clock fuel ref args _ ih =>
    obtain ⟨hp, hfit⟩ := invoke_fit clock fuel ref args ih.2
    exact ⟨hp.trans ih.1, hp ▸ hfit⟩
  | static clock fuel ref _ ih =>
    obtain ⟨hp, hfit⟩ := static_fit clock fuel ref ih.2
    exact ⟨hp.trans ih.1, hp ▸ hfit⟩

end ClassWasm.Machine
