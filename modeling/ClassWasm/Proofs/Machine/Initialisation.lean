/-
  Runs keep the order in which classes are initialised. A run leaves alone the classes that it
  finds started. What it starts it initialises to the end; if it fails, each of these classes is
  initialised or could not be (`Goes`). The cases are those of the machine: one initialisation
  (`initialise_goes`), one instruction (`perform_goes`) and, by induction on the steps, any run
  (`run_goes`).
-/
import ClassWasm.Proofs.Machine.Frames
import ClassWasm.Proofs.Machine.Ledger

namespace ClassWasm.Machine

/-! ## Runs -/

section

open Ledger

variable {α β : Type} {p : Program} {own own' pending : List Text} {l : Ledger} {w : Watch}

@[simp] theorem ledger_note (w : Watch) (e : Event) : (w.note e).ledger = w.ledger.add e := by
  simp [Watch.ledger, Watch.events, Watch.note, add]

@[simp] theorem ledger_enter (w : Watch) (classes : List PreparedClass) :
    (w.enter classes).ledger = w.ledger.enter (classes.map fun c => c.name) := by
  simp [Watch.ledger, Watch.events, Watch.enter, enter]

/-- How a part of a run ends that has begun with a ledger. If it fails, some of the classes that it
has started may have failed, too. -/
def Goes (p : Program) (own pending : List Text) (l : Ledger) : EStateM.Result Stop Watch α → Prop
  | .ok _ w => Orderly p pending w.ledger ∧ Extends own l w.ledger ∧ Settles p own l w.ledger
  | .error _ w => Orderly p pending w.ledger ∧ Extends own l w.ledger ∧ Concludes p own l w.ledger

/-- A part of a run that begins and ends between two instructions. -/
abbrev Behaves (p : Program) (w : Watch) (r : EStateM.Result Stop Watch α) : Prop :=
  Goes p [] [] w.ledger r

theorem goes_pure (h : Orderly p [] w.ledger) (a : α) :
    Behaves p w ((pure a : Watched α) w) :=
  ⟨h, extends_refl _ _, settles_refl _ _⟩

theorem goes_throw (h : Orderly p [] w.ledger) (e : Stop) :
    Behaves p w ((throw e : Watched α) w) :=
  ⟨h, extends_refl _ _, (settles_refl _ _).concludes⟩

/-- A part of which nothing is noted starts no class. -/
theorem goes_lift {x : Run α} (hx : ∀ names, Keeps (fun store => store.started = names) x)
    (h : Orderly p [] w.ledger) : Behaves p w (Watched.lift x w) := by
  have hx := hx w.store.started w.store rfl
  unfold Watched.lift
  cases hrun : x w.store with
  | ok a store =>
    rw [hrun] at hx
    have hledger : ({ w with store } : Watch).ledger = w.ledger :=
      congrArg (Ledger.mk · w.events) hx
    change Orderly p [] ({ w with store } : Watch).ledger ∧ _
    rw [hledger]
    exact ⟨h, extends_refl _ _, settles_refl _ _⟩
  | error e store =>
    rw [hrun] at hx
    have hledger : ({ w with store } : Watch).ledger = w.ledger :=
      congrArg (Ledger.mk · w.events) hx
    change Orderly p [] ({ w with store } : Watch).ledger ∧ _
    rw [hledger]
    exact ⟨h, extends_refl _ _, (settles_refl _ _).concludes⟩

/-- A run that goes on from a later ledger. -/
theorem Goes.behind {l' : Ledger} (hext : Extends [] l l') (hsettles : Settles p [] l l')
    {r : EStateM.Result Stop Watch α} (h : Goes p [] [] l' r) : Goes p [] [] l r := by
  cases r with
  | ok a w =>
    obtain ⟨horderly, hext', hsettles'⟩ := h
    exact ⟨horderly, hext.trans hext', hsettles.trans hext' hsettles'⟩
  | error e w =>
    obtain ⟨horderly, hext', hends⟩ := h
    exact ⟨horderly, hext.trans hext', hsettles.concludes.trans hext' hends⟩

theorem Goes.bind {x : Watched α} {f : α → Watched β} (hx : Behaves p w (x w))
    (hf : ∀ a w', x w = .ok a w' → Orderly p [] w'.ledger → Extends [] w.ledger w'.ledger →
      Behaves p w' (f a w')) : Behaves p w ((x >>= f) w) := by
  change Behaves p w (EStateM.bind x f w)
  unfold EStateM.bind
  cases hrun : x w with
  | error e w' =>
    rw [hrun] at hx
    exact hx
  | ok a w' =>
    rw [hrun] at hx
    obtain ⟨horderly, hext, hsettles⟩ := hx
    exact (hf a w' hrun horderly hext).behind hext hsettles

theorem Goes.map {x : Watched α} (hx : Behaves p w (x w)) (g : α → β) :
    Behaves p w ((g <$> x) w) := by
  rw [map_eq_pure_bind]
  exact hx.bind fun a w' _ horderly _ => goes_pure horderly (g a)

theorem Goes.reported {x : Watched α} (hx : Behaves p w (x w)) (r : Routine) (offset : Nat) :
    Behaves p w (Watched.reported r offset x w) := by
  unfold Watched.reported
  cases hrun : x w <;> rw [hrun] at hx <;> exact hx

/-- An event that does not concern the initialisation of a class. -/
theorem goes_note (h : Orderly p [] w.ledger) {e : Event} (he : InOrder p w.events e)
    (hsubject : e.subject = none) : Behaves p w (Watched.note e w) := by
  change Orderly p [] (w.note e).ledger ∧ Extends [] w.ledger (w.note e).ledger ∧
    Settles p [] w.ledger (w.note e).ledger
  rw [ledger_note]
  refine ⟨h.plain he hsubject, (extends_refl _ _).add fun name hname => ?_, settles_add ?_⟩
  · rw [hsubject] at hname
    cases hname
  · rintro name rfl
    cases hsubject

/-- Methods of classes that have been started behave. -/
def Calls (p : Program) (call : Watched.Caller) : Prop :=
  ∀ r args w, r.ref.owner ∈ w.store.started → Orderly p [] w.ledger → Behaves p w (call r args w)

/-- How the initialiser of a class ends that has its superclasses behind it: it has been called if
there is one. -/
def InitialiserEnds (p : Program) (pending : List Text) (c : PreparedClass) (l : Ledger) :
    EStateM.Result Stop Watch Unit → Prop
  | .ok _ w => Orderly p (c.name :: pending) w.ledger ∧ Extends [c.name] l w.ledger ∧
      Settles p [] l w.ledger ∧ (p.HasInitialiser c.name → .starts c.name ∈ w.events)
  | .error _ w => Orderly p (c.name :: pending) w.ledger ∧ Extends [c.name] l w.ledger ∧
      Concludes p [] l w.ledger

/-- The classes are about to be initialised, the last one first, and those that are pending after
them. -/
structure Queued (p : Program) (pending : List Text) (classes : List PreparedClass) (l : Ledger) :
    Prop where
  orderly : Orderly p (classes.map (fun c => c.name) ++ pending) l
  mem : ∀ c ∈ classes, c ∈ p
  above : classes.Pairwise fun c d => p.Above c.name d.name
  below : ∀ name ∈ pending, ∀ c ∈ classes, p.Above name c.name
  nodup : (classes.map (fun c => c.name) ++ pending).Nodup
  started : ∀ name ∈ classes.map (fun c => c.name) ++ pending, name ∈ l.started
  untouched : ∀ name ∈ classes.map (fun c => c.name) ++ pending, ∀ e ∈ l.events,
    e.subject = some name → e = .entered name

section

variable {l' : Ledger} {c : PreparedClass} {above : List PreparedClass}

theorem ending_bind (x y : Watched Unit) (good bad : Event) (w : Watch) :
    Watched.ending (do x; y) good bad w = match x w with
      | .ok _ w' => Watched.ending y good bad w'
      | .error e w' => .error e (w'.note bad) := by
  unfold Watched.ending
  change (match EStateM.bind x (fun _ => y) w with
    | .ok _ w' => EStateM.Result.ok () (w'.note good)
    | .error e w' => .error e (w'.note bad)) = _
  unfold EStateM.bind
  cases x w <;> rfl

/-- The classes above the front of the queue are initialised before it. -/
theorem Queued.tail (h : Queued p pending (c :: above) l) :
    Queued p (c.name :: pending) above l := by
  obtain ⟨habove, hpairs⟩ := List.pairwise_cons.mp h.above
  have hmem {name : Text} : name ∈ above.map (fun c => c.name) ++ c.name :: pending ↔
      name ∈ (c :: above).map (fun c => c.name) ++ pending := by
    simp only [List.mem_append, List.mem_cons, List.map_cons]
    tauto
  refine ⟨h.orderly.mono fun name hname => hmem.mpr hname, fun d hd => h.mem d (.tail _ hd), hpairs,
    fun name hname d hd => ?_, List.perm_middle.nodup_iff.mpr h.nodup,
    fun name hname => h.started name (hmem.mp hname),
    fun name hname => h.untouched name (hmem.mp hname)⟩
  rcases List.mem_cons.mp hname with rfl | hname
  · exact habove d hd
  · exact h.below name hname d (.tail _ hd)

/-- Once those above it have been initialised, the front of the queue is alone in it. -/
theorem Queued.front (h : Queued p pending (c :: above) l) (h' : Orderly p (c.name :: pending) l')
    (hext : Extends (above.map fun c => c.name) l l') : Queued p pending [c] l' := by
  have happart := List.nodup_append.mp (List.perm_middle.nodup_iff.mpr h.nodup)
  have hmem {name : Text} (hname : name ∈ c.name :: pending) :
      name ∈ (c :: above).map (fun c => c.name) ++ pending := by
    simp only [List.mem_append, List.mem_cons, List.map_cons] at hname ⊢
    tauto
  refine ⟨h', fun d hd => ?_, List.pairwise_singleton _ _, fun name hname d hd => ?_,
    happart.2.1, fun name hname => hext.started name (h.started name (hmem hname)),
    fun name hname e he hsubject => ?_⟩
  · exact List.mem_singleton.mp hd ▸ h.mem c List.mem_cons_self
  · exact List.mem_singleton.mp hd ▸ h.below name hname c List.mem_cons_self
  · refine h.untouched name (hmem hname) e ((hext.mem_iff hsubject
      (h.started name (hmem hname)) fun hown => ?_).mp he) hsubject
    exact happart.2.2 name hown name hname rfl

/-- The initialisation of a class that is alone in the queue ends. -/
theorem Queued.ends (h : Queued p pending [c] l) (h' : Orderly p (c.name :: pending) l')
    (hext : Extends [c.name] l l') (hends : Concludes p [] l l') {e : Event}
    (he : e = .finishes c.name ∨ e = .fails c.name) (hended : Ended p (l'.add e).events c.name) :
    Orderly p pending (l'.add e) ∧ Extends [c.name] l (l'.add e) ∧
      Concludes p [c.name] l (l'.add e) := by
  have hmem : c.name ∈ [c].map (fun c => c.name) ++ pending := List.mem_cons_self
  have hstarts : .starts c.name ∉ l.events := fun h' => nomatch h.untouched _ hmem _ h' rfl
  obtain ⟨horderly, hall⟩ :=
    h.orderly.ends h' hext hends (h.started _ hmem) hstarts he hended
  refine ⟨horderly, hext.add fun name hname => ?_, hall⟩
  rcases he with rfl | rfl <;> exact Option.some.inj hname ▸ List.mem_cons_self

end

end

section

open Ledger

variable {p : Program} {pending : List Text} {w : Watch} {c : PreparedClass}
  {call : Watched.Caller} (hp : p.Distinct) (hprepared : p.Prepared) (hcall : Calls p call)

include hp hprepared hcall

omit hp hprepared in
theorem callInitialiser_goes (h : Queued p pending [c] w.ledger) {r : Routine}
    (howner : r.ref.owner = c.name) : InitialiserEnds p pending c w.ledger ((do
      Watched.note (.starts c.name)
      let _ ← call r []
      pure () : Watched Unit) w) := by
  have hstarted : c.name ∈ w.ledger.started := h.started c.name List.mem_cons_self
  have huntouched := h.untouched c.name List.mem_cons_self
  have hbegun : Orderly p [] (w.note (.starts c.name)).ledger := by
    rw [ledger_note]
    exact h.orderly.begins hstarted (fun he => nomatch huntouched _ he rfl)
      (fun he => nomatch huntouched _ he rfl) (fun he => nomatch huntouched _ he rfl)
      fun below hbelow => h.below below hbelow c List.mem_cons_self
  have hext : Extends [c.name] w.ledger (w.note (.starts c.name)).ledger := by
    rw [ledger_note]
    refine (extends_refl _ _).add ?_
    rintro _ ⟨⟩
    exact List.mem_cons_self
  have hsettles : Settles p [] w.ledger (w.note (.starts c.name)).ledger := by
    rw [ledger_note]
    exact settles_add nofun
  have hcalled : .starts c.name ∈ (w.note (.starts c.name)).ledger.events := by
    rw [ledger_note]
    exact mem_add.mpr (.inr rfl)
  have hrun := hcall r [] (w.note (.starts c.name)) (howner ▸ hstarted) hbegun
  change InitialiserEnds p pending c w.ledger
    (EStateM.bind (call r []) (fun _ => pure ()) (w.note (.starts c.name)))
  unfold EStateM.bind
  cases hresult : call r [] (w.note (.starts c.name)) with
  | ok v w' =>
    rw [hresult] at hrun
    obtain ⟨horderly, hext', hsettles'⟩ := hrun
    exact ⟨horderly.mono nofun, hext.trans hext', hsettles.trans hext' hsettles',
      fun _ => hext'.subset hcalled⟩
  | error e w' =>
    rw [hresult] at hrun
    obtain ⟨horderly, hext', hends⟩ := hrun
    exact ⟨horderly.mono nofun, hext.trans hext', hsettles.concludes.trans hext' hends⟩

/-- A class is alone in the queue: its initialiser is called if there is one. -/
theorem runInitialiser_goes (h : Queued p pending [c] w.ledger) :
    InitialiserEnds p pending c w.ledger (Watched.runInitialiser call c w) := by
  have hc : c ∈ p := h.mem c List.mem_cons_self
  unfold Watched.runInitialiser
  cases hinit : (c.findMethod? "<clinit>" "()V").bind PreparedMethod.routine? with
  | none =>
    refine ⟨h.orderly, extends_refl _ _, settles_refl _ _, fun hyes => ?_⟩
    obtain ⟨r, hr⟩ := (hp.hasInitialiser_iff hc).mp hyes
    rw [hinit] at hr
    cases hr
  | some loaded =>
    cases loaded with
    | error e => exact ⟨h.orderly, extends_refl _ _, (settles_refl _ _).concludes⟩
    | ok r =>
      obtain ⟨m, hm, hr⟩ := Option.bind_eq_some_iff.mp hinit
      exact callInitialiser_goes hcall h
        (hprepared.owner_of_routine hc (findMethod?_eq_some hm).1 hr)

/-- The class at the front of the queue, after those above it. -/
theorem initialiseOne_goes {w : Watch} (h : Queued p pending [c] w.ledger) :
    Goes p [c.name] pending w.ledger
      (Watched.ending (Watched.runInitialiser call c) (.finishes c.name) (.fails c.name) w) := by
  have hrun := runInitialiser_goes hp hprepared hcall h
  unfold Watched.ending
  cases hresult : Watched.runInitialiser call c w with
  | ok _ w' =>
    rw [hresult] at hrun
    obtain ⟨horderly, hext, hsettles, hcalled⟩ := hrun
    have hended : Ended p (w'.ledger.add (.finishes c.name)).events c.name :=
      .inl ⟨mem_add.mpr (.inr rfl), fun hinit => mem_add.mpr (.inl (hcalled hinit))⟩
    have huntouched := h.untouched c.name List.mem_cons_self
    obtain ⟨horderly', hext', -⟩ := h.ends horderly hext hsettles.concludes (.inl rfl) hended
    change Orderly p pending (w'.note _).ledger ∧ Extends _ _ (w'.note _).ledger ∧
      Settles p _ _ (w'.note _).ledger
    rw [ledger_note]
    exact ⟨horderly', hext', hsettles.finishes hended fun he => nomatch huntouched _ he rfl⟩
  | error e w' =>
    rw [hresult] at hrun
    obtain ⟨horderly, hext, hends⟩ := hrun
    rw [Goes, ledger_note]
    exact h.ends horderly hext hends (.inr rfl) (.inr (mem_add.mpr (.inr rfl)))

/-- All classes of the queue, from its end to its front. -/
theorem initialiseAll_goes {classes : List PreparedClass} {w : Watch}
    (h : Queued p pending classes w.ledger) :
    Goes p (classes.map fun c => c.name) pending w.ledger
      (Watched.initialiseAll call classes w) := by
  induction classes generalizing pending w with
  | nil => exact ⟨h.orderly, extends_refl _ _, settles_refl _ _⟩
  | cons c above ih =>
    have hperm : (above.map (fun c => c.name) ++ [c.name]).Perm
        ((c :: above).map fun c => c.name) := List.perm_append_singleton _ _
    have hsub : ∀ name ∈ above.map (fun c => c.name) ++ [c.name],
        name ∈ (c :: above).map fun c => c.name := fun _ hname => hperm.mem_iff.mp hname
    have hsub' : ∀ name ∈ (c :: above).map (fun c => c.name),
        name ∈ above.map (fun c => c.name) ++ [c.name] := fun _ hname => hperm.mem_iff.mpr hname
    have habove := ih h.tail
    rw [Watched.initialiseAll, ending_bind]
    cases hresult : Watched.initialiseAll call above w with
    | error e w' =>
      rw [hresult] at habove
      obtain ⟨horderly, hext, hends⟩ := habove
      obtain ⟨horderly', hext', hends'⟩ := (h.front horderly hext).ends horderly (extends_refl _ _)
        (settles_refl _ _).concludes (.inr rfl) (.inr (mem_add.mpr (.inr rfl)))
      rw [Goes, ledger_note]
      exact ⟨horderly', (hext.trans hext').mono hsub, (hends.trans hext' hends').mono hsub'⟩
    | ok _ w' =>
      rw [hresult] at habove
      obtain ⟨horderly, hext, hsettles⟩ := habove
      have hfront := initialiseOne_goes hp hprepared hcall
        (h.front horderly hext)
      dsimp only
      cases hlast : Watched.ending (Watched.runInitialiser call c) (.finishes c.name)
        (.fails c.name) w' with
      | ok _ w'' =>
        rw [hlast] at hfront
        obtain ⟨horderly', hext', hsettles'⟩ := hfront
        exact ⟨horderly', (hext.trans hext').mono hsub, (hsettles.trans hext' hsettles').mono hsub'⟩
      | error e w'' =>
        rw [hlast] at hfront
        obtain ⟨horderly', hext', hends'⟩ := hfront
        exact ⟨horderly', (hext.trans hext').mono hsub,
          (hsettles.concludes.trans hext' hends').mono hsub'⟩

omit hprepared hcall in
/-- What a use of a class starts is a queue once it is marked. -/
theorem Chain.queued {classes : List PreparedClass} (h : Orderly p [] w.ledger)
    (hchain : Chain p w.store.started c classes) : Queued p [] classes (w.enter classes).ledger := by
  have hclosed : ∀ name ∈ classes.map (fun c => c.name), ∀ super, p.Super name super →
      super ∈ w.ledger.started ++ classes.map fun c => c.name := by
    intro name hname super hsuper
    obtain ⟨d, hd, rfl⟩ := List.mem_map.mp hname
    obtain ⟨e, he, rfl⟩ := (hp.super_iff (hchain.mem d hd)).mp hsuper
    exact hchain.closed d hd e he
  have horderly := h.enter hchain.fresh_names hchain.nodup hclosed
  rw [ledger_enter]
  refine ⟨horderly.mono fun name hname => List.mem_append_left _ hname, hchain.mem, hchain.above,
    nofun, by rw [List.append_nil]; exact hchain.nodup, fun name hname => ?_,
    fun name hname e he hsubject => ?_⟩
  · rw [List.append_nil] at hname
    exact List.mem_append_right _ hname
  · rw [List.append_nil] at hname
    rcases mem_enter.mp he with he | ⟨name', -, rfl⟩
    · exact absurd (h.subjects e he name hsubject) (hchain.fresh_names name hname)
    · exact congrArg Event.entered (Option.some.inj hsubject)

/-- A class and those above it are initialised, as far as they have not been started. -/
theorem initialise_goes (hc : c ∈ p) (h : Orderly p [] w.ledger) :
    Behaves p w (Watched.initialise p call c w) ∧
      ∀ w', Watched.initialise p call c w = .ok () w' → c.name ∈ w'.store.started := by
  let classes := unstarted p p.length w.store.started c
  have hchain : Chain p w.store.started c classes := unstarted_chain hp hc List.countP_le_length
  have hfresh : ∀ name ∈ classes.map (fun c => c.name), name ∉ w.ledger.started :=
    hchain.fresh_names
  have hrun : Watched.initialise p call c w =
      Watched.initialiseAll call classes (w.enter classes) := rfl
  have hall := initialiseAll_goes hp hprepared hcall (hchain.queued hp h)
  rw [ledger_enter] at hall
  rw [hrun]
  cases hresult : Watched.initialiseAll call classes (w.enter classes) with
  | ok _ w' =>
    rw [hresult] at hall
    obtain ⟨horderly', hext', hsettles'⟩ := hall
    refine ⟨⟨horderly', hext'.enter hfresh, hsettles'.enter⟩, ?_⟩
    rintro _ ⟨⟩
    exact hext'.started _ hchain.covers
  | error e w' =>
    rw [hresult] at hall
    obtain ⟨horderly', hext', hends⟩ := hall
    exact ⟨⟨horderly', hext'.enter hfresh, hends.enter⟩, nofun⟩

end

section

open Ledger

variable {α : Type} {p : Program} {w : Watch}

theorem goes_leave (h : Orderly p [] w.ledger) :
    Behaves p w (.ok () w.leave : EStateM.Result Stop Watch Unit) :=
  goes_note (w := { w with frames := w.frames - 1 }) (e := .closes) h trivial rfl

/-- A method of a class that has been started runs in a frame of its own. -/
theorem inFrame_goes {x : Watched α} {method : MemberRef} (h : Orderly p [] w.ledger)
    (howner : method.owner ∈ w.store.started)
    (hx : ∀ w', Orderly p [] w'.ledger → Behaves p w' (x w')) :
    Behaves p w (Watched.inFrame method x w) := by
  let counted : Watch := { w with frames := w.frames + 1 }
  have hcounted : Orderly p [] counted.ledger := h
  unfold Watched.inFrame
  dsimp only
  split
  · have hnote := goes_note (e := .overflows) hcounted trivial rfl
    exact ⟨hnote.1, hnote.2.1, hnote.2.2.concludes⟩
  · have hopens : InOrder p counted.events (.opens method) := (h.marked _).mpr howner
    obtain ⟨horderly, hext, hsettles⟩ := goes_note hcounted hopens rfl
    have hrun := hx _ horderly
    cases hresult : x (counted.note (.opens method)) with
    | ok a w' =>
      rw [hresult] at hrun
      obtain ⟨horderly', hext', hsettles'⟩ := hrun
      obtain ⟨hleft, hlast, hquiet⟩ := goes_leave horderly'
      exact .behind hext hsettles ⟨hleft, hext'.trans hlast, hsettles'.trans hlast hquiet⟩
    | error e w' =>
      rw [hresult] at hrun
      obtain ⟨horderly', hext', hends⟩ := hrun
      obtain ⟨hleft, hlast, hquiet⟩ := goes_leave horderly'
      exact .behind hext hsettles ⟨hleft, hext'.trans hlast, hends.trans hlast hquiet.concludes⟩

theorem lift_ofResult {x : Except Error α} {a : α} {w' : Watch}
    (h : Watched.lift (ofResult x) w = .ok a w') : x = .ok a := by
  cases x with
  | ok b =>
    cases h
    rfl
  | error e => cases h

/-- What is done at one point of a run keeps the classes that have been started. -/
theorem performLocal_keeps {I : Store → Prop} (r : Routine) (pc : Nat) (f : Frame)
    (i : Instruction) : Keeps I (Watched.performLocal r pc f i) := by
  refine (keeps_onFrame _ _).bind fun cf => ?_
  dsimp only
  split
  · exact keeps_pure _
  · exact keeps_pure _
  · split
    · exact keeps_pure _
    · exact keeps_throw _

end

section

open Ledger

variable {s : Setting} {call : Watched.Caller} {w : Watch} (hp : s.program.Distinct)
  (hprepared : s.program.Prepared) (hcall : Calls s.program call)

include hp hprepared hcall

theorem access_goes {c : PreparedClass} (hc : c ∈ s.program) (h : Orderly s.program [] w.ledger)
    {e : Event} (he : e = .reads c.name ∨ e = .writes c.name) :
    Behaves s.program w (Watched.access s.program call c e w) := by
  obtain ⟨hrun, hstarted⟩ := initialise_goes hp hprepared hcall hc h
  refine hrun.bind fun _ w' hresult horderly _ => goes_note horderly ?_ ?_
  · have hentered := (horderly.marked c.name).mpr (hstarted w' hresult)
    rcases he with rfl | rfl <;> exact hentered
  · rcases he with rfl | rfl <;> rfl

theorem getStatic_goes (h : Orderly s.program [] w.ledger) (f : Frame) (ref : MemberRef) :
    Behaves s.program w (Watched.getStatic s.program call f ref w) := by
  refine (goes_lift (fun _ => keeps_ofResult _) h).bind fun c w' hresult h' _ => ?_
  have hc : c ∈ s.program := (fieldOwner_eq_ok (lift_ofResult hresult)).1
  refine (access_goes hp hprepared hcall hc h' (.inl rfl)).bind fun _ w'' _ h'' _ => ?_
  exact goes_lift
    (fun _ => keeps_get.bind fun _ => (keeps_onFrame _ _).bind fun _ => keeps_pure _) h''

theorem putStatic_goes (h : Orderly s.program [] w.ledger) (f : Frame) (ref : MemberRef) :
    Behaves s.program w (Watched.putStatic s.program call f ref w) := by
  refine (goes_lift (fun _ => keeps_ofResult _) h).bind fun c w' hresult h' _ => ?_
  have hc : c ∈ s.program := (fieldOwner_eq_ok (lift_ofResult hresult)).1
  refine (access_goes hp hprepared hcall hc h' (.inr rfl)).bind fun _ w'' _ h'' _ => ?_
  refine goes_lift (fun names store hstore => ?_) h''
  simp only [bind, EStateM.bind, get, getThe, MonadStateOf.get, EStateM.get, onFrame]
  generalize (Frame.popKind _ : Step Value) f = x
  cases x with
  | ok v f' => exact hstore
  | error e f' => exact hstore

theorem invokeStatic_goes (h : Orderly s.program [] w.ledger) (f : Frame) (ref : MemberRef) :
    Behaves s.program w (Watched.invokeStatic s call f ref w) := by
  unfold Watched.invokeStatic
  cases hroutine : s.program.routine ref with
  | error e =>
    refine goes_lift (fun names => ?_) h
    cases Native.find? ref with
    | none => exact keeps_throw _
    | some m => exact invokeNative_keeps _ f m
  | ok cr =>
    obtain ⟨hc, m, hm, -, hr⟩ := routine_eq_ok hroutine
    refine (goes_lift (fun _ => keeps_onFrame _ f) h).bind fun af w₁ _ h₁ _ => ?_
    obtain ⟨hrun, hstarted⟩ := initialise_goes hp hprepared hcall hc h₁
    refine hrun.bind fun _ w₂ hresult h₂ _ => ?_
    have howner : cr.2.ref.owner ∈ w₂.store.started := by
      rw [hprepared.owner_of_routine hc hm hr]
      exact hstarted w₂ hresult
    refine (hcall cr.2 af.1 w₂ howner h₂).bind fun v w₃ _ h₃ _ => ?_
    exact goes_lift (fun _ => pushResult_keeps _ v) h₃

theorem perform_goes (h : Orderly s.program [] w.ledger) (r : Routine) (pc : Nat) (f : Frame)
    (i : Instruction) : Behaves s.program w (Watched.perform s call r pc f i w) := by
  unfold Watched.perform
  cases i.op with
  | getStatic ref => exact (getStatic_goes hp hprepared hcall h f ref).map _
  | putStatic ref => exact (putStatic_goes hp hprepared hcall h f ref).map _
  | invokeStatic ref => exact (invokeStatic_goes hp hprepared hcall h f ref).map _
  | _ => exact goes_lift (fun _ => performLocal_keeps r pc f i) h

end

/-- Whatever runs keeps the order in which classes are initialised. -/
theorem run_goes {s : Setting} (hp : s.program.Distinct) (hprepared : s.program.Prepared)
    (fuel : Nat) :
    Calls s.program (Watched.call s fuel) ∧ ∀ r pc f w, Ledger.Orderly s.program [] w.ledger →
      Behaves s.program w (Watched.resume s fuel r pc f w) := by
  induction fuel with
  | zero =>
    refine ⟨fun r args w _ h => ?_, fun r pc f w h => ?_⟩
    · rw [Watched.call]
      exact goes_throw h _
    · rw [Watched.resume]
      exact goes_throw h _
  | succ fuel ih =>
    obtain ⟨hcall, hresume⟩ := ih
    refine ⟨fun r args w howner h => ?_, fun r pc f w h => ?_⟩
    · rw [Watched.call]
      refine inFrame_goes h howner fun w' h' => ?_
      refine (goes_lift (fun _ => keeps_onFrame _ _) h').bind fun uf w'' _ h'' _ => ?_
      exact hresume r 0 uf.2 w'' h''
    · rw [Watched.resume]
      cases r.instrs[pc]? with
      | none => exact goes_throw h _
      | some i =>
        refine (goes_note (e := .steps) h trivial rfl).bind fun _ w₁ _ h₁ _ => ?_
        have hperform := perform_goes hp hprepared hcall h₁ r pc f i
        refine (hperform.reported r i.offset).bind fun o w₂ _ h₂ _ => ?_
        cases o with
        | next f pc => exact hresume r pc f w₂ h₂
        | done v =>
          dsimp only
          split
          · exact goes_pure h₂ v
          · exact goes_throw h₂ _

end ClassWasm.Machine
