/-
  The frames of a machine under watch. A run under watch does what the run does, and its count of
  frames is the depth of the run (`call_shows`, `Watches.serve`). What it notes within a call is
  nested (`Nested`): what is counted at a note are the frames that are in progress there, and one
  more once the call has overflowed.
-/
import ClassWasm.Proofs.Machine.Statics
import ClassWasm.Proofs.Machine.Watching

namespace ClassWasm.Machine

/-! ## Counting frames -/

/-- The event does not change the count of frames. -/
def Event.quiet : Event → Bool
  | .opens _ | .closes | .overflows => false
  | _ => true

/-- The event can come behind an overflow. -/
def Event.unwinds : Event → Bool
  | .closes | .overflows | .fails _ => true
  | _ => false

def Event.isOpens : Event → Bool
  | .opens _ => true
  | _ => false

/-- The frames that have been opened and not closed again. -/
def inProgress (notes : List Note) : Int :=
  (notes.countP fun note => note.event.isOpens) - (notes.countP fun note => note.event = .closes)

def overflows (notes : List Note) : Nat := notes.countP fun note => note.event = .overflows

/-- How a note counts frames at the end of notes that begin where `n` are counted. -/
structure Note.Counts (n : Nat) (note : Note) (through : List Note) : Prop where
  /-- No frame is closed that has not been opened. -/
  opened : 0 ≤ inProgress through
  /-- What is counted are frames in progress and overflows. -/
  frames : (note.frames : Int) = n + inProgress through + overflows through
  /-- Behind an overflow nothing runs. -/
  running : note.event.unwinds = false → overflows through = 0

/-- Notes that are made between a point where `n` frames are counted and another where `n + left`
are. -/
structure Nested (n left : Nat) (notes : List Note) : Prop where
  /-- Every frame that is opened is closed again. -/
  closed : inProgress notes = 0
  /-- Every overflow stays counted. -/
  left : overflows notes = left
  counts : ∀ done note, done ++ [note] <+: notes → note.Counts n (done ++ [note])

theorem inProgress_append (before behind : List Note) :
    inProgress (before ++ behind) = inProgress before + inProgress behind := by
  simp only [inProgress, List.countP_append]
  omega

theorem overflows_append (before behind : List Note) :
    overflows (before ++ behind) = overflows before + overflows behind := List.countP_append

theorem Event.cases_quiet {e : Event} (h : e.quiet) :
    e.isOpens = false ∧ e ≠ .closes ∧ e ≠ .overflows := by
  cases e with
  | opens | closes | overflows => cases h
  | _ => exact ⟨rfl, nofun, nofun⟩

theorem inProgress_quiet {notes : List Note} (h : ∀ note ∈ notes, note.event.quiet) :
    inProgress notes = 0 := by
  have hopens : notes.countP (fun note => note.event.isOpens) = 0 :=
    List.countP_eq_zero.mpr fun note hnote => by simp [(Event.cases_quiet (h note hnote)).1]
  have hcloses : notes.countP (fun note => note.event = .closes) = 0 :=
    List.countP_eq_zero.mpr fun note hnote => by simp [(Event.cases_quiet (h note hnote)).2.1]
  rw [inProgress, hopens, hcloses]
  rfl

theorem overflows_quiet {notes : List Note} (h : ∀ note ∈ notes, note.event.quiet) :
    overflows notes = 0 :=
  List.countP_eq_zero.mpr fun note hnote => by simp [(Event.cases_quiet (h note hnote)).2.2]

theorem Note.Counts.behind {n : Nat} {note : Note} {through before : List Note}
    (h : note.Counts n through) (hin : inProgress before = 0) (hover : overflows before = 0) :
    note.Counts n (before ++ through) := by
  have hin' : inProgress (before ++ through) = inProgress through := by
    rw [inProgress_append, hin, Int.zero_add]
  have hover' : overflows (before ++ through) = overflows through := by
    rw [overflows_append, hover, Nat.zero_add]
  exact ⟨hin' ▸ h.opened, hin' ▸ hover' ▸ h.frames, hover' ▸ h.running⟩

theorem Note.Counts.inside {n : Nat} {note : Note} {through : List Note}
    (h : note.Counts (n + 1) through) (method : MemberRef) :
    note.Counts n ([⟨.opens method, n + 1⟩] ++ through) := by
  have hin : inProgress ([⟨.opens method, n + 1⟩] ++ through) = 1 + inProgress through :=
    inProgress_append _ _
  have hover : overflows ([⟨.opens method, n + 1⟩] ++ through) = overflows through :=
    (overflows_append _ _).trans (Nat.zero_add _)
  have hopened := h.opened
  have hframes := h.frames
  push_cast at hframes
  exact ⟨by omega, by omega, hover ▸ h.running⟩

namespace Nested

variable {n left : Nat} {notes notes' : List Note}

/-- Notes while no frame is opened or closed. -/
theorem quiet (h : ∀ note ∈ notes, note.event.quiet ∧ note.frames = n) : Nested n 0 notes := by
  have hquiet {done : List Note} (hdone : done <+: notes) : ∀ note ∈ done, note.event.quiet :=
    fun note hnote => (h note (hdone.subset hnote)).1
  refine ⟨inProgress_quiet (hquiet List.prefix_rfl), overflows_quiet (hquiet List.prefix_rfl), ?_⟩
  intro done note hdone
  have hin := inProgress_quiet (hquiet hdone)
  have hover := overflows_quiet (hquiet hdone)
  have hframes := (h note (hdone.subset (by simp))).2
  exact ⟨hin.ge, by omega, fun _ => hover⟩

theorem append (h : Nested n 0 notes) (h' : Nested n left notes') :
    Nested n left (notes ++ notes') := by
  refine ⟨?_, ?_, fun done note hdone => ?_⟩
  · rw [inProgress_append, h.closed, h'.closed, Int.add_zero]
  · rw [overflows_append, h.left, h'.left, Nat.zero_add]
  · rcases prefix_concat_cases hdone with hdone | ⟨more, heq, hmore⟩
    · exact h.counts done note hdone
    · rw [heq, List.append_assoc]
      exact (h'.counts more note hmore).behind h.closed h.left

/-- A note behind others that does not open or close a frame. Behind an overflow it is one of a
failure. -/
theorem concat (h : Nested n left notes) {e : Event} (hquiet : e.quiet)
    (hrun : e.unwinds = false → left = 0) : Nested n left (notes ++ [⟨e, n + left⟩]) := by
  have hnote : ∀ note ∈ [(⟨e, n + left⟩ : Note)], note.event.quiet := by simpa using hquiet
  have hin : inProgress (notes ++ [⟨e, n + left⟩]) = 0 := by
    rw [inProgress_append, h.closed, inProgress_quiet hnote, Int.add_zero]
  have hover : overflows (notes ++ [⟨e, n + left⟩]) = left := by
    rw [overflows_append, h.left, overflows_quiet hnote, Nat.add_zero]
  refine ⟨hin, hover, fun done note hdone => ?_⟩
  rcases prefix_concat_cases hdone with hdone | ⟨more, heq, hmore⟩
  · exact h.counts done note hdone
  · obtain ⟨rfl, rfl⟩ := prefix_concat_single hmore
    rw [List.append_nil] at heq
    subst heq
    refine ⟨hin.ge, ?_, fun he => hover.trans (hrun he)⟩
    rw [hin, hover]
    push_cast
    omega

/-- A method that gets no frame. -/
theorem overflow (n : Nat) : Nested n 1 [⟨.overflows, n + 1⟩] := by
  refine ⟨rfl, rfl, fun done note hdone => ?_⟩
  obtain ⟨rfl, rfl⟩ := prefix_concat_single hdone
  exact ⟨le_refl 0, rfl, nofun⟩

/-- A method in a frame of its own. -/
theorem frame (h : Nested (n + 1) left notes) (method : MemberRef) :
    Nested n left ([⟨.opens method, n + 1⟩] ++ (notes ++ [⟨.closes, n + left⟩])) := by
  have hin : inProgress ([⟨.opens method, n + 1⟩] ++ (notes ++ [⟨.closes, n + left⟩])) = 0 := by
    rw [inProgress_append, inProgress_append, h.closed]
    rfl
  have hover : overflows ([⟨.opens method, n + 1⟩] ++ (notes ++ [⟨.closes, n + left⟩])) = left := by
    rw [overflows_append, overflows_append, h.left]
    exact Nat.zero_add left
  refine ⟨hin, hover, fun done note hdone => ?_⟩
  -- The note is the opening, one of those inside or the closing.
  rcases prefix_concat_cases hdone with hdone | ⟨more, heq, hmore⟩
  · obtain ⟨rfl, rfl⟩ := prefix_concat_single hdone
    exact ⟨Int.one_nonneg, rfl, fun _ => rfl⟩
  · rcases prefix_concat_cases hmore with hmore | ⟨last, rfl, hlast⟩
    · rw [heq, List.append_assoc]
      exact (h.counts more note hmore).inside method
    · obtain ⟨rfl, rfl⟩ := prefix_concat_single hlast
      rw [heq, List.append_nil, List.append_assoc]
      refine ⟨hin.ge, ?_, nofun⟩
      rw [hin, hover]
      push_cast
      omega

end Nested

/-! ## Forgetting the notes -/

/-- The frames that a stop leaves counted. -/
def Stop.left (e : Stop) : Nat := overflowCount (.error e : Except Stop Unit)

/-- From one point of a run, where `n` frames are counted, to another: what is noted in between is
nested, and `left` more frames are counted. -/
structure Passes (n left : Nat) (w w' : Watch) : Prop where
  frames : w'.frames = n + left
  log : ∃ notes, w'.log = w.log ++ notes ∧ Nested n left notes

theorem Passes.trans {n left : Nat} {w w' w'' : Watch} (h : Passes n 0 w w')
    (h' : Passes n left w' w'') : Passes n left w w'' := by
  obtain ⟨notes, hlog, hnotes⟩ := h.log
  obtain ⟨notes', hlog', hnotes'⟩ := h'.log
  refine ⟨h'.frames, notes ++ notes', ?_, hnotes.append hnotes'⟩
  rw [hlog', hlog, List.append_assoc]

theorem Passes.still {n : Nat} {w w' : Watch} (hframes : w'.frames = n) (hlog : w'.log = w.log) :
    Passes n 0 w w' :=
  ⟨hframes, [], by rw [hlog, List.append_nil], .quiet (by simp)⟩

theorem Passes.note {n left : Nat} {w w' : Watch} (h : Passes n left w w') {e : Event}
    (hquiet : e.quiet) (hrun : e.unwinds = false → left = 0) : Passes n left w (w'.note e) := by
  obtain ⟨notes, hlog, hnotes⟩ := h.log
  refine ⟨h.frames, notes ++ [⟨e, n + left⟩], ?_, hnotes.concat hquiet hrun⟩
  rw [Watch.note, hlog, h.frames, List.append_assoc]

theorem Passes.frame {n left : Nat} {w w' : Watch} {method : MemberRef} (hw : w.frames = n)
    (h : Passes (n + 1) left ({ w with frames := w.frames + 1 }.note (.opens method)) w') :
    Passes n left w w'.leave := by
  obtain ⟨notes, hlog, hnotes⟩ := h.log
  have hframes : w'.frames - 1 = n + left := by
    rw [h.frames]
    omega
  refine ⟨hframes, _, ?_, hnotes.frame method⟩
  rw [Watch.leave, Watch.note, hframes, hlog, Watch.note, hw]
  simp only [List.append_assoc]

/-- From a point where `n` frames are counted, the run under watch does what the run does. -/
def Shows {α : Type} (n : Nat) (x : Run α) (y : Watched α) : Prop :=
  ∀ w, w.frames = n → match y w with
    | .ok a w' => x w.store = .ok a w'.store ∧ Passes n 0 w w'
    | .error e w' => x w.store = .error e w'.store ∧ Passes n e.left w w'

section

variable {α β : Type} {n : Nat}

theorem shows_pure (a : α) : Shows n (pure a) (pure a) := fun _ hw => ⟨rfl, .still hw rfl⟩

theorem shows_throw {e : Stop} (he : e.left = 0) : Shows n (throw e : Run α) (throw e) :=
  fun _ hw => ⟨rfl, he ▸ .still hw rfl⟩

/-- Nothing but a call overflows. -/
theorem shows_lift {x : Run α} (hx : Throws (fun e => e.left = 0) x) :
    Shows n x (Watched.lift x) := by
  intro w hw
  unfold Watched.lift
  cases hrun : x w.store with
  | ok a store => exact ⟨rfl, .still hw rfl⟩
  | error e store => exact ⟨rfl, hx _ _ _ hrun ▸ .still hw rfl⟩

theorem Shows.bind {x : Run α} {y : Watched α} {f : α → Run β} {g : α → Watched β}
    (hx : Shows n x y) (hf : ∀ a, Shows n (f a) (g a)) : Shows n (x >>= f) (y >>= g) := by
  intro w hw
  have hx := hx w hw
  change match EStateM.bind y g w with
    | .ok b w' => (x >>= f) w.store = .ok b w'.store ∧ Passes n 0 w w'
    | .error e w' => (x >>= f) w.store = .error e w'.store ∧ Passes n e.left w w'
  unfold EStateM.bind
  cases hrun : y w with
  | error e w' =>
    rw [hrun] at hx
    exact ⟨run_bind_eq_error.mpr (.inl hx.1), hx.2⟩
  | ok a w' =>
    rw [hrun] at hx
    have hf := hf a w' hx.2.frames
    dsimp only
    cases hrest : g a w' with
    | ok b w'' =>
      rw [hrest] at hf
      exact ⟨run_bind_eq_ok.mpr ⟨a, _, hx.1, hf.1⟩, hx.2.trans hf.2⟩
    | error e w'' =>
      rw [hrest] at hf
      exact ⟨run_bind_eq_error.mpr (.inr ⟨a, _, hx.1, hf.1⟩), hx.2.trans hf.2⟩

theorem Shows.map {x : Run α} {y : Watched α} (h : Shows n x y) (g : α → β) :
    Shows n (g <$> x) (g <$> y) := by
  rw [map_eq_pure_bind, map_eq_pure_bind]
  exact h.bind fun a => shows_pure (g a)

/-- What is noted while nothing is done. -/
theorem Shows.noting {x : Run α} {y : Watched α} (h : Shows n x y) {e : Event} (hquiet : e.quiet) :
    Shows n x (do Watched.note e; y) := by
  intro w hw
  have hpass : Passes n 0 w (w.note e) := (Passes.still hw rfl).note hquiet fun _ => rfl
  have hy := h (w.note e) hw
  change match y (w.note e) with
    | .ok a w' => x w.store = .ok a w'.store ∧ Passes n 0 w w'
    | .error e w' => x w.store = .error e w'.store ∧ Passes n e.left w w'
  cases hrun : y (w.note e) <;> rw [hrun] at hy <;> exact ⟨hy.1, hpass.trans hy.2⟩

theorem Shows.ending {x : Run Unit} {y : Watched Unit} (h : Shows n x y) (good bad : Event)
    (hgood : good.quiet) (hbad : bad.quiet ∧ bad.unwinds) :
    Shows n x (Watched.ending y good bad) := by
  intro w hw
  have hy := h w hw
  unfold Watched.ending
  cases hrun : y w with
  | ok a w' =>
    rw [hrun] at hy
    exact ⟨hy.1, hy.2.note hgood fun _ => rfl⟩
  | error e w' =>
    rw [hrun] at hy
    exact ⟨hy.1, hy.2.note hbad.1 fun hrun => absurd hbad.2 (by simp [hrun])⟩

theorem Stop.left_within (e : Stop) (ref : MemberRef) (offset : Nat) :
    (e.within ref offset).left = e.left := by
  cases e with
  | error e => cases e <;> rfl
  | frame fault => rfl
  | exhausted => rfl

theorem Shows.reported {x : Run α} {y : Watched α} (h : Shows n x y) (r : Routine)
    (offset : Nat) : Shows n (Machine.reported r offset x) (Watched.reported r offset y) := by
  intro w hw
  have hy := h w hw
  unfold Watched.reported Machine.reported
  cases hrun : y w with
  | ok a w' =>
    rw [hrun] at hy
    exact ⟨by rw [hy.1], hy.2⟩
  | error e w' =>
    rw [hrun] at hy
    exact ⟨by rw [hy.1], (Stop.left_within e r.ref offset).symm ▸ hy.2⟩

/-- The counter is over the limit exactly where the depth has reached it. -/
theorem Shows.inFrame {x : Run α} {y : Watched α} (h : Shows (n + 1) x y) (method : MemberRef) :
    Shows n (if n ≥ maxDepth then throw (.error .stackOverflow) else x) 
      (Watched.inFrame method y) := by
  intro w hw
  unfold Watched.inFrame
  by_cases hn : n ≥ maxDepth
  · rw [if_pos hn]
    dsimp only
    rw [if_pos (hw ▸ Nat.lt_succ_of_le hn)]
    refine ⟨rfl, congrArg (· + 1) hw, [⟨.overflows, n + 1⟩], ?_, .overflow n⟩
    rw [Watch.note, hw]
  · rw [if_neg hn]
    dsimp only
    rw [if_neg (by omega)]
    have hy := h ({ w with frames := w.frames + 1 }.note (.opens method)) (congrArg (· + 1) hw)
    cases hrun : y ({ w with frames := w.frames + 1 }.note (.opens method)) <;> rw [hrun] at hy <;>
      exact ⟨hy.1, .frame hw hy.2⟩

end

/-! ## Only calls overflow -/

/-- The stop leaves no frame counted. -/
def Stop.Leaves (e : Stop) : Prop := e.left = 0

section

variable {α : Type}

theorem throws_access (x : Frame.Access α) : Throws Stop.Leaves (liftM x : Step α) := by
  intro f e f' h
  rw [access_run] at h
  split at h
  · cases h
  · cases h
    rfl

theorem popTwo_throws (a b : Kind) : Throws Stop.Leaves (popTwo a b) :=
  (throws_access _).bind fun _ => (throws_access _).bind fun _ => throws_pure _

theorem popInt_throws : Throws Stop.Leaves popInt := (throws_access _).bind fun _ => throws_pure _

theorem eval_throws (op : Arith) (a b : Value) : Throws Stop.Leaves (match op.eval a b with
    | some v => Frame.push v
    | none => fail divisionByZero : Step Unit) := by
  split
  · exact throws_access _
  · exact throws_throw rfl

theorem arith_throws (op : Arith) : Throws Stop.Leaves (arith op) := by
  unfold arith
  dsimp only
  split
  · exact (throws_access _).bind fun v => eval_throws op v v
  · exact (popTwo_throws _ _).bind fun ab => eval_throws op ab.1 ab.2

theorem shuffle_throws (op : StackOp) : Throws Stop.Leaves (shuffle op) := by
  refine throws_get.bind fun f => ?_
  split
  · exact throws_throw rfl
  · exact (throws_modify fun _ => _).bind fun _ => throws_forM fun v _ => throws_access _

theorem condition_throws (c : Condition) : Throws Stop.Leaves (condition c) := by
  cases c with
  | isNull => exact (throws_access _).bind fun _ => throws_pure _
  | isNonNull => exact (throws_access _).bind fun _ => throws_pure _
  | zero r => exact popInt_throws.bind fun _ => throws_pure _
  | compare r => exact popInt_throws.bind fun _ => popInt_throws.bind fun _ => throws_pure _

theorem step_throws (op : Operation) : Throws Stop.Leaves (step op) := by
  cases op with
  | nop => exact throws_pure _
  | getStatic ref => exact throws_pure _
  | putStatic ref => exact throws_pure _
  | invokeStatic ref => exact throws_pure _
  | goto t => exact throws_pure _
  | const c => exact (throws_access _).bind fun _ => throws_pure _
  | load kind slot =>
    refine (throws_access _).bind fun v => ?_
    have hfail : Throws Stop.Leaves (fail (.wrongLocal slot.toNat v.kind kind) : Step Unit) :=
      throws_throw rfl
    have hpush : Throws Stop.Leaves (do Frame.push v; pure .next : Step Control) :=
      (throws_access _).bind fun _ => throws_pure _
    dsimp only
    split
    · exact hfail.bind fun _ => hpush
    · exact hpush
  | store kind slot =>
    exact (throws_access _).bind fun _ => (throws_access _).bind fun _ => throws_pure _
  | increment slot delta =>
    exact (throws_access _).bind fun _ => (throws_access _).bind fun _ => throws_pure _
  | arith op => exact (arith_throws op).bind fun _ => throws_pure _
  | convert c => exact (throws_access _).bind fun _ => (throws_access _).bind fun _ => throws_pure _
  | narrow n => exact popInt_throws.bind fun _ => (throws_access _).bind fun _ => throws_pure _
  | compare c =>
    exact (popTwo_throws _ _).bind fun _ => (throws_access _).bind fun _ => throws_pure _
  | stack op => exact (shuffle_throws op).bind fun _ => throws_pure _
  | ret kind =>
    simp only [step]
    split
    · exact throws_pure _
    · exact (throws_access _).bind fun _ => throws_pure _
  | branch c t =>
    refine (condition_throws c).bind fun holds => ?_
    cases holds <;> exact throws_pure _
  | tableSwitch default low targets => exact popInt_throws.bind fun _ => throws_pure _
  | lookupSwitch default cases => exact popInt_throws.bind fun _ => throws_pure _

theorem onFrame_throws {x : Step α} (hx : Throws Stop.Leaves x) (f : Frame) :
    Throws Stop.Leaves (onFrame x f) := by
  intro store e store' h
  unfold onFrame at h
  split at h
  · cases h
  · next hrun =>
    cases h
    exact hx _ _ _ hrun

theorem ofResult_throws {x : Except Error α} (hx : ∀ e, x = .error e → (Stop.error e).Leaves) :
    Throws Stop.Leaves (ofResult x) := by
  cases x with
  | ok a => exact throws_pure a
  | error e => exact throws_throw (hx e rfl)

theorem fieldOwner_throws (p : Program) (ref : MemberRef) :
    Throws Stop.Leaves (ofResult (p.fieldOwner ref)) := by
  refine ofResult_throws fun e he => ?_
  rw [fieldOwner_eq_error he]
  rfl

theorem routine_leaves {p : Program} {ref : MemberRef} {e : Error} (h : p.routine ref = .error e) :
    (Stop.error e).Leaves := by
  unfold Program.routine at h
  repeat' split at h
  all_goals cases h <;> rfl

theorem routine_throws (p : Program) (ref : MemberRef) :
    Throws Stop.Leaves (ofResult (p.routine ref)) := ofResult_throws fun _ => routine_leaves

theorem checkKinds_leaves {ref : MemberRef} {i : Nat} {args : List Value} {params : List Kind}
    {e : Error} (h : checkKinds ref i args params = .error e) : (Stop.error e).Leaves := by
  induction args generalizing i params with
  | nil => cases h
  | cons v vs ih =>
    cases params with
    | nil => cases h
    | cons k ks =>
      rw [checkKinds] at h
      split at h
      · exact ih h
      · cases h
        rfl

theorem checkArguments_throws (ref : MemberRef) (args : List Value) (params : List Kind) :
    Throws Stop.Leaves (ofResult (checkArguments ref args params)) := by
  refine ofResult_throws fun e he => ?_
  unfold checkArguments at he
  split at he
  · cases he
    rfl
  · exact checkKinds_leaves he

theorem pushResult_throws (f : Frame) (v : Value) : Throws Stop.Leaves (pushResult f v) := by
  unfold pushResult
  split
  · exact throws_pure f
  · exact (onFrame_throws (throws_access _) f).bind fun _ => throws_pure _

theorem invokeNative_throws (clock : Native.Clock) (f : Frame) (m : Native.Method) :
    Throws Stop.Leaves (invokeNative clock f m) := by
  unfold invokeNative
  split
  · exact throws_throw rfl
  · refine (onFrame_throws (throws_access _) f).bind fun af => ?_
    dsimp only
    split
    · exact throws_throw rfl
    · exact pushResult_throws _ _

end

/-! ## A run under watch is the run -/

theorem performLocal_throws (r : Routine) (pc : Nat) (f : Frame) (i : Instruction) :
    Throws Stop.Leaves (Watched.performLocal r pc f i) := by
  refine (onFrame_throws (step_throws i.op) f).bind fun cf => ?_
  dsimp only
  split
  · exact throws_pure _
  · exact throws_pure _
  · split
    · exact throws_pure _
    · exact throws_throw rfl

section

variable {s : Setting} {caller : Caller} {watched : Watched.Caller} {n : Nat}
  (hcaller : ∀ r args, Shows n (caller r args) (watched r args))

include hcaller

theorem runInitialiser_shows (c : PreparedClass) :
    Shows n (runInitialiser caller c) (Watched.runInitialiser watched c) := by
  unfold runInitialiser Watched.runInitialiser
  generalize (c.findMethod? "<clinit>" "()V").bind PreparedMethod.routine? = initialiser?
  match initialiser? with
  | none => exact shows_pure ()
  | some (.error e) => exact shows_throw rfl
  | some (.ok r) => exact ((hcaller r []).bind fun _ => shows_pure ()).noting rfl

/-- Superclasses first is from the end of the list to its front. -/
theorem initialiseAll_shows (classes : List PreparedClass) :
    Shows n (classes.reverse.forM (runInitialiser caller))
      (Watched.initialiseAll watched classes) := by
  induction classes with
  | nil => exact shows_pure ()
  | cons c above ih =>
    have hlast : [c].forM (runInitialiser caller) = runInitialiser caller c := bind_pure _
    rw [List.reverse_cons, List.forM_eq_forM, List.forM_append, ← List.forM_eq_forM, hlast,
      Watched.initialiseAll]
    exact (ih.bind fun _ => runInitialiser_shows hcaller c).ending _ _ rfl ⟨rfl, rfl⟩

theorem initialise_shows (c : PreparedClass) :
    Shows n (initialise s.program caller c) (Watched.initialise s.program watched c) := by
  intro w hw
  let classes := unstarted s.program s.program.length w.store.started c
  have hentered : Passes n 0 w (w.enter classes) := by
    refine ⟨hw, _, rfl, .quiet fun note hnote => ?_⟩
    obtain ⟨d, -, rfl⟩ := List.mem_map.mp hnote
    exact ⟨rfl, hw⟩
  have hall := initialiseAll_shows hcaller classes (w.enter classes) hentered.frames
  have hrun : initialise s.program caller c w.store =
      classes.reverse.forM (runInitialiser caller) (w.enter classes).store := rfl
  have hwatched : Watched.initialise s.program watched c w =
      Watched.initialiseAll watched classes (w.enter classes) := rfl
  rw [hrun, hwatched]
  split at hall
  · exact ⟨hall.1, hentered.trans hall.2⟩
  · exact ⟨hall.1, hentered.trans hall.2⟩

/-- To use a field of a class is to initialise the class. -/
theorem access_shows (c : PreparedClass) {e : Event} (hquiet : e.quiet) :
    Shows n (initialise s.program caller c) (Watched.access s.program watched c e) := by
  have hnote : Shows n (pure ()) (Watched.note e) := (shows_pure ()).noting hquiet
  have h := (initialise_shows (s := s) hcaller c).bind fun _ => hnote
  rwa [bind_pure] at h

theorem getStatic_shows (f : Frame) (ref : MemberRef) :
    Shows n (getStatic s.program caller f ref) (Watched.getStatic s.program watched f ref) := by
  refine (shows_lift (fieldOwner_throws _ ref)).bind fun c => ?_
  refine (access_shows hcaller c rfl).bind fun _ => ?_
  exact shows_lift (throws_get.bind fun _ =>
    (onFrame_throws (throws_access _) f).bind fun _ => throws_pure _)

theorem putStatic_shows (f : Frame) (ref : MemberRef) :
    Shows n (putStatic s.program caller f ref) (Watched.putStatic s.program watched f ref) := by
  refine (shows_lift (fieldOwner_throws _ ref)).bind fun c => ?_
  refine (access_shows hcaller c rfl).bind fun _ => ?_
  exact shows_lift (throws_get.bind fun _ => (onFrame_throws (throws_access _) f).bind fun _ =>
    (throws_modify fun _ => _).bind fun _ => throws_pure _)

theorem invokeStatic_shows (f : Frame) (ref : MemberRef) :
    Shows n (invokeStatic s caller f ref) (Watched.invokeStatic s watched f ref) := by
  unfold invokeStatic Watched.invokeStatic
  cases hr : s.program.routine ref with
  | error e =>
    refine shows_lift ?_
    cases Native.find? ref with
    | none => exact throws_throw (routine_leaves hr)
    | some m => exact invokeNative_throws _ f m
  | ok cr =>
    refine (shows_lift (onFrame_throws (throws_access _) f)).bind fun af => ?_
    refine (initialise_shows hcaller cr.1).bind fun _ => (hcaller cr.2 af.1).bind fun v => ?_
    exact shows_lift (pushResult_throws _ v)

theorem perform_shows (r : Routine) (pc : Nat) (f : Frame) (i : Instruction) :
    Shows n (perform s caller r pc f i) (Watched.perform s watched r pc f i) := by
  have hlocal := performLocal_throws r pc f i
  unfold Watched.performLocal at hlocal
  unfold perform Watched.perform Watched.performLocal
  generalize i.op = op at hlocal ⊢
  cases op with
  | getStatic ref => exact (getStatic_shows hcaller f ref).map _
  | putStatic ref => exact (putStatic_shows hcaller f ref).map _
  | invokeStatic ref => exact (invokeStatic_shows hcaller f ref).map _
  | _ => exact shows_lift hlocal

end

/-- Whatever runs does under watch what it does alone. -/
theorem run_shows (s : Setting) (fuel : Nat) :
    (∀ n r args, Shows n (call s fuel n r args) (Watched.call s fuel r args)) ∧
      ∀ n r pc f, Shows (n + 1) (resume s fuel (n + 1) r pc f) (Watched.resume s fuel r pc f) := by
  induction fuel with
  | zero =>
    refine ⟨fun n r args => ?_, fun n r pc f => ?_⟩
    · rw [call, Watched.call]
      exact shows_throw rfl
    · rw [resume, Watched.resume]
      exact shows_throw rfl
  | succ fuel ih =>
    obtain ⟨hcall, hresume⟩ := ih
    refine ⟨fun n r args => ?_, fun n r pc f => ?_⟩
    · rw [call, Watched.call]
      refine .inFrame ?_ r.ref
      exact (shows_lift (onFrame_throws (throws_access _) _)).bind fun uf => hresume n r 0 uf.2
    · rw [resume, Watched.resume]
      cases r.instrs[pc]? with
      | none => exact shows_throw rfl
      | some i =>
        have hperform := perform_shows (s := s) (hcall (n + 1)) r pc f i
        refine ((hperform.reported r i.offset).bind fun o => ?_).noting rfl
        cases o with
        | next f pc => exact hresume n r pc f
        | done v =>
          dsimp only
          split
          · exact shows_pure v
          · exact shows_throw rfl

theorem call_shows (s : Setting) (fuel n : Nat) (r : Routine) (args : List Value) :
    Shows n (call s fuel n r args) (Watched.call s fuel r args) := (run_shows s fuel).1 n r args

theorem invoke_shows (s : Setting) (fuel : Nat) (ref : MemberRef) (args : List Value) :
    Shows 0 (do
      let (c, r) ← ofResult (s.program.routine ref)
      ofResult (checkArguments ref args r.params)
      initialise s.program (call s fuel 0) c
      call s fuel 0 r args) (Watched.invoke s fuel ref args) := by
  refine (shows_lift (routine_throws s.program ref)).bind fun cr => ?_
  refine (shows_lift (checkArguments_throws ref args cr.2.params)).bind fun _ => ?_
  have hcall := call_shows s fuel 0
  exact (initialise_shows hcall cr.1).bind fun _ => hcall cr.2 args

theorem static_shows (s : Setting) (fuel depth : Nat) (ref : MemberRef) :
    Shows depth (do
      let c ← ofResult (s.program.fieldOwner ref)
      initialise s.program (call s fuel depth) c
      let store ← get
      pure ((store.statics.lookup ⟨c.name, ref.name, ref.descriptor⟩).getD default))
      (Watched.static s fuel ref) := by
  refine (shows_lift (fieldOwner_throws s.program ref)).bind fun c => ?_
  refine (access_shows (call_shows s fuel depth) c rfl).bind fun _ => ?_
  exact shows_lift (throws_get.bind fun _ => throws_pure _)

/-! ## Machines under watch -/

/-- The watch is at the machine. -/
structure Watches (w : Watch) (m : Machine) : Prop where
  store : w.store = m.store
  frames : w.frames = m.depth

theorem watches_start (m : Machine) : Watches (.start m) m := ⟨rfl, rfl⟩

theorem overflowCount_error {α : Type} (e : Stop) :
    overflowCount (.error e : Except Stop α) = e.left := by
  cases e with
  | error e => cases e <;> rfl
  | frame fault => rfl
  | exhausted => rfl

theorem overflowCount_ofStop {α : Type} (a : Except Stop α) :
    overflowCount (ofStop a) = overflowCount a := by
  cases a with
  | ok v => rfl
  | error e => cases e <;> rfl

/-- A request under watch: the same answer, and how the watch has come from before the request to
behind it. -/
structure Served (base : Nat) (w : Watch) (alone : Except Stop Value × Machine)
    (watched : Except Stop Value × Watch) : Prop where
  answer : watched.1 = alone.1
  watches : Watches watched.2 alone.2
  passes : Passes base (overflowCount alone.1) w watched.2

theorem run_served {x : Run Value} {y : Watched Value} {depth : Nat} (h : Shows depth x y)
    {m : Machine} {w : Watch} (hstore : w.store = m.store) (hframes : w.frames = depth) :
    Served depth w (m.run depth x) (w.run y) := by
  have hy := h w hframes
  rw [hstore] at hy
  unfold run Watch.run
  cases hrun : y w with
  | ok a w' =>
    rw [hrun] at hy
    rw [hy.1]
    exact ⟨rfl, ⟨rfl, hy.2.frames⟩, hy.2⟩
  | error e w' =>
    rw [hrun] at hy
    rw [hy.1]
    have hpasses := hy.2
    rw [← overflowCount_error (α := Value)] at hpasses
    exact ⟨rfl, ⟨rfl, hpasses.frames⟩, hpasses⟩

/-- A machine that is watched answers as it does alone. -/
theorem Watches.serve {w : Watch} {m : Machine} (h : Watches w m) (q : Request) :
    Served (w.base q) { w with frames := w.base q } (m.serve q) (w.serve m.program q) := by
  obtain ⟨store, frames, log⟩ := w
  obtain ⟨rfl, rfl⟩ := h
  cases q with
  | invoke clock fuel ref args =>
    have hrun := run_served (invoke_shows ⟨m.program, clock⟩ fuel ref args) (m := m)
      (w := ⟨m.store, 0, log⟩) rfl rfl
    refine ⟨congrArg ofStop hrun.answer, hrun.watches, ?_⟩
    have hpasses := hrun.passes
    rw [← overflowCount_ofStop] at hpasses
    exact hpasses
  | static clock fuel ref =>
    exact run_served (static_shows ⟨m.program, clock⟩ fuel m.depth ref) (m := m)
      (w := ⟨m.store, m.depth, log⟩) rfl rfl

theorem serve_program (m : Machine) (q : Request) : (m.serve q).2.program = m.program := by
  cases q <;> rfl

theorem after_program (m : Machine) (qs : List Request) : (m.after qs).program = m.program := by
  induction qs generalizing m with
  | nil => rfl
  | cons q qs ih => exact (ih (m.serve q).2).trans (serve_program m q)

theorem Watches.after {w : Watch} {m : Machine} (h : Watches w m) (qs : List Request) :
    Watches (w.after m.program qs) (m.after qs) := by
  induction qs generalizing w m with
  | nil => exact h
  | cons q qs ih =>
    have hserve := (h.serve q).watches
    rw [← serve_program m q]
    exact serve_program m q ▸ ih hserve

end ClassWasm.Machine
