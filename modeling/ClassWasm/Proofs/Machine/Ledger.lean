/-
  The order in which classes are initialised. What counts are the classes that have been started
  and the events so far (`Ledger`). Where code runs, a ledger is in order (`Orderly`): each event
  was due when it happened, and no started class still waits for its initialiser to be called,
  unless that of one of its superclasses is running right then or its own initialisation has failed.
  Each event of an initialisation keeps that, and from one ledger to a later one (`Extends`) it
  tells which classes have come to an end (`Concludes`) and that this was a good one (`Settles`).
-/
import ClassWasm.Proofs.Machine.Superclasses
import ClassWasm.Proofs.Machine.Watching

namespace ClassWasm.Machine

/-! ## Ledgers -/

/-- The class whose initialisation an event is about. -/
def Event.subject : Event → Option Text
  | .entered name | .starts name | .finishes name | .fails name => some name
  | _ => none

/-- The classes that count as started, and what has happened. -/
structure Ledger where
  started : List Text
  events : List Event

def Watch.ledger (w : Watch) : Ledger := ⟨w.store.started, w.events⟩

namespace Ledger

variable {p : Program} {own own' pending : List Text} {l l' l'' : Ledger} {name : Text}

def add (l : Ledger) (e : Event) : Ledger := { l with events := l.events ++ [e] }

/-- Marks classes as started. -/
def enter (l : Ledger) (names : List Text) : Ledger :=
  ⟨l.started ++ names, l.events ++ names.map .entered⟩

/-- Some class could not be initialised. -/
def Failed (events : List Event) : Prop := ∃ name, .fails name ∈ events

theorem failed_iff_any {events : List Event} :
    events.any (fun e => match e with | .fails _ => true | _ => false) = true ↔ Failed events := by
  rw [List.any_eq_true]
  constructor
  · rintro ⟨e, he, hfails⟩
    cases e with
    | fails name => exact ⟨name, he⟩
    | _ => cases hfails
  · rintro ⟨name, he⟩
    exact ⟨_, he, rfl⟩

instance (events : List Event) : Decidable (Failed events) := decidable_of_iff _ failed_iff_any

/-- The initialiser of a class has been called and has not ended. -/
def Running (events : List Event) (name : Text) : Prop :=
  .starts name ∈ events ∧ .finishes name ∉ events ∧ .fails name ∉ events

/-- The initialiser of a class, if there is one, has been called, or the class could not be
initialised, or it waits for the initialiser of a superclass that is running. -/
def Called (p : Program) (events : List Event) (name : Text) : Prop :=
  (p.HasInitialiser name → .starts name ∈ events) ∨ .fails name ∈ events ∨
    ∃ super, p.Above name super ∧ Running events super

/-- What has come before an event. A class is entered once. Its initialiser is called once, after
the class and all its superclasses have been entered, and, where no class is above itself, after the
initialiser of each superclass but those that could not be initialised or wait for a superclass of
their own. Its fields are used and its methods run after it has been entered. -/
def InOrder (p : Program) (before : List Event) : Event → Prop
  | .entered name => .entered name ∉ before
  | .starts name => .starts name ∉ before ∧ .entered name ∈ before ∧
      ∀ super, p.Above name super →
        .entered super ∈ before ∧ (p.Acyclic → Called p before super)
  | .reads name | .writes name => .entered name ∈ before
  | .opens method => .entered method.owner ∈ before
  | _ => True

/-- A ledger is in order, but for the classes that are pending. -/
structure Orderly (p : Program) (pending : List Text) (l : Ledger) : Prop where
  marked : ∀ name, .entered name ∈ l.events ↔ name ∈ l.started
  subjects : ∀ e ∈ l.events, ∀ name, e.subject = some name → name ∈ l.started
  closed : ∀ name super, name ∈ l.started → p.Super name super → super ∈ l.started
  called : p.Acyclic → ∀ name ∈ l.started, name ∉ pending → Called p l.events name
  inOrder : ∀ before e, before ++ [e] <+: l.events → InOrder p before e

/-- From one ledger to a later one. Initialisations in between are of classes that were not started
or are the run's own. -/
structure Extends (own : List Text) (l l' : Ledger) : Prop where
  started : ∀ name ∈ l.started, name ∈ l'.started
  events : ∃ more, l'.events = l.events ++ more ∧
    ∀ e ∈ more, ∀ name, e.subject = some name → name ∉ l.started ∨ name ∈ own

/-- All that has been started in between, and the run's own classes, are initialised. -/
structure Settles (p : Program) (own : List Text) (l l' : Ledger) : Prop where
  finished : ∀ name ∈ l'.started, name ∉ l.started ∨ name ∈ own →
    .finishes name ∈ l'.events ∧ (p.HasInitialiser name → .starts name ∈ l'.events)
  fine : ∀ name, .fails name ∈ l'.events → .fails name ∈ l.events

/-- An initialisation has failed in between. -/
def Fails (l l' : Ledger) : Prop := ∃ name, .fails name ∈ l'.events ∧ .fails name ∉ l.events

/-- The class is initialised, or could not be. -/
def Ended (p : Program) (events : List Event) (name : Text) : Prop :=
  (.finishes name ∈ events ∧ (p.HasInitialiser name → .starts name ∈ events)) ∨
    .fails name ∈ events

/-- All that has been started in between, and the run's own classes, have come to an end. -/
def Concludes (p : Program) (own : List Text) (l l' : Ledger) : Prop :=
  ∀ name ∈ l'.started, name ∉ l.started ∨ name ∈ own → Ended p l'.events name

/-! ## Later ledgers -/

theorem extends_refl (own : List Text) (l : Ledger) : Extends own l l :=
  ⟨fun _ h => h, [], (List.append_nil _).symm, nofun⟩

theorem settles_refl (p : Program) (l : Ledger) : Settles p [] l l :=
  ⟨fun _ h hnew => hnew.elim (fun hnew => absurd h hnew) nofun, fun _ h => h⟩

theorem Extends.subset (h : Extends own l l') {e : Event} (he : e ∈ l.events) : e ∈ l'.events := by
  obtain ⟨more, hmore, -⟩ := h.events
  exact hmore ▸ List.mem_append_left _ he

/-- Nothing more happens to a class that was started, unless it is one of the run's own. -/
theorem Extends.mem_iff (h : Extends own l l') {e : Event} (hsubject : e.subject = some name)
    (hstarted : name ∈ l.started) (hown : name ∉ own) : e ∈ l'.events ↔ e ∈ l.events := by
  refine ⟨fun he => ?_, h.subset⟩
  obtain ⟨more, hmore, hnew⟩ := h.events
  rw [hmore] at he
  rcases List.mem_append.mp he with he | he
  · exact he
  · rcases hnew e he name hsubject with hname | hname
    · exact absurd hstarted hname
    · exact absurd hname hown

theorem Extends.mono (h : Extends own l l') (hsub : ∀ name ∈ own, name ∈ own') :
    Extends own' l l' := by
  obtain ⟨more, hmore, hnew⟩ := h.events
  exact ⟨h.started, more, hmore, fun e he name hsubject =>
    (hnew e he name hsubject).imp_right (hsub name)⟩

theorem Settles.mono (h : Settles p own' l l') (hsub : ∀ name ∈ own, name ∈ own') :
    Settles p own l l' :=
  ⟨fun name hname hnew => h.finished name hname (hnew.imp_right (hsub name)), h.fine⟩

theorem Extends.trans (h : Extends own l l') (h' : Extends own' l' l'') :
    Extends (own ++ own') l l'' := by
  obtain ⟨more, hmore, hnew⟩ := h.events
  obtain ⟨more', hmore', hnew'⟩ := h'.events
  refine ⟨fun name hname => h'.started name (h.started name hname), more ++ more', ?_, ?_⟩
  · rw [hmore', hmore, List.append_assoc]
  · intro e he name hsubject
    rcases List.mem_append.mp he with he | he
    · exact (hnew e he name hsubject).imp_right fun hown => List.mem_append_left own' hown
    · rcases hnew' e he name hsubject with hname | hname
      · exact .inl fun hstarted => hname (h.started name hstarted)
      · exact .inr (List.mem_append_right _ hname)

/-- What is new after two runs is new in the second one, or was new after the first. -/
theorem new_of_append (hnew : name ∉ l.started ∨ name ∈ own ++ own') :
    (name ∉ l'.started ∨ name ∈ own') ∨
      name ∈ l'.started ∧ (name ∉ l.started ∨ name ∈ own) := by
  by_cases hlater : name ∉ l'.started ∨ name ∈ own'
  · exact .inl hlater
  · rw [not_or, not_not] at hlater
    exact .inr ⟨hlater.1, hnew.imp_right fun hown =>
      (List.mem_append.mp hown).resolve_right hlater.2⟩

theorem Settles.trans (h : Settles p own l l') (hext : Extends own' l' l'')
    (h' : Settles p own' l' l'') : Settles p (own ++ own') l l'' := by
  refine ⟨fun name hname hnew => ?_, fun name hfails => h.fine name (h'.fine name hfails)⟩
  rcases new_of_append hnew with hlater | ⟨hmiddle, hnew⟩
  · exact h'.finished name hname hlater
  · obtain ⟨hfinishes, hstarts⟩ := h.finished name hmiddle hnew
    exact ⟨hext.subset hfinishes, fun hinit => hext.subset (hstarts hinit)⟩

theorem Ended.mono {events events' : List Event} (h : Ended p events name)
    (hsub : ∀ e ∈ events, e ∈ events') : Ended p events' name :=
  h.imp (fun h => ⟨hsub _ h.1, fun hinit => hsub _ (h.2 hinit)⟩) (hsub _)

theorem Settles.concludes (h : Settles p own l l') : Concludes p own l l' :=
  fun name hname hnew => .inl (h.finished name hname hnew)

theorem Concludes.mono (h : Concludes p own' l l') (hsub : ∀ name ∈ own, name ∈ own') :
    Concludes p own l l' :=
  fun name hname hnew => h name hname (hnew.imp_right (hsub name))

theorem Concludes.trans (h : Concludes p own l l') (hext : Extends own' l' l'')
    (h' : Concludes p own' l' l'') : Concludes p (own ++ own') l l'' := by
  intro name hname hnew
  rcases new_of_append hnew with hlater | ⟨hmiddle, hnew⟩
  · exact h' name hname hlater
  · exact (h name hmiddle hnew).mono fun _ => hext.subset

/-- Where all that has been started has come to an end, it is a good one unless there was a
failure. -/
theorem Concludes.settles_or_fails (h : Concludes p [] l l') (hl : Orderly p pending l) :
    Settles p [] l l' ∨ Fails l l' := by
  by_cases hfails : Fails l l'
  · exact .inr hfails
  have hfine (name : Text) (hname : .fails name ∈ l'.events) : .fails name ∈ l.events := by
    by_contra hnew
    exact hfails ⟨name, hname, hnew⟩
  refine .inl ⟨fun name hname hnew => (h name hname hnew).resolve_right fun hfailed => ?_, hfine⟩
  exact hnew.resolve_right List.not_mem_nil (hl.subjects _ (hfine name hfailed) name rfl)

/-! ## Events -/

theorem Orderly.mono {pending' : List Text} (h : Orderly p pending l)
    (hsub : ∀ name ∈ pending, name ∈ pending') : Orderly p pending' l :=
  { h with called := fun hp name hname hpending =>
      h.called hp name hname fun hmem => hpending (hsub name hmem) }

theorem Called.mono {events events' : List Event} (h : Called p events name)
    (hsub : ∀ e ∈ events, e ∈ events')
    (hrunning : ∀ super, Running events super → Running events' super) : Called p events' name := by
  rcases h with h | h | ⟨super, habove, hsuper⟩
  · exact .inl fun hinit => hsub _ (h hinit)
  · exact .inr (.inl (hsub _ h))
  · exact .inr (.inr ⟨super, habove, hrunning super hsuper⟩)

theorem mem_add {e e' : Event} : e ∈ (l.add e').events ↔ e ∈ l.events ∨ e = e' := by
  simp [add]

theorem Extends.add (h : Extends own l l') {e : Event}
    (he : ∀ name, e.subject = some name → name ∈ own) : Extends own l (l'.add e) := by
  obtain ⟨more, hmore, hnew⟩ := h.events
  refine ⟨h.started, more ++ [e], ?_, fun e' he' name hsubject => ?_⟩
  · rw [Ledger.add, hmore, List.append_assoc]
  · rcases List.mem_append.mp he' with he' | he'
    · exact hnew e' he' name hsubject
    · rw [List.mem_singleton.mp he'] at hsubject
      exact .inr (he name hsubject)

theorem settles_add {e : Event} (hfails : ∀ name, e ≠ .fails name) : Settles p [] l (l.add e) :=
  ⟨fun _ h hnew => hnew.elim (fun hnew => absurd h hnew) nofun,
    fun name hmem => (mem_add.mp hmem).resolve_right fun heq => hfails name heq.symm⟩

/-- An initialiser runs on through any event but the end of the initialisation. -/
theorem Running.add (h : Running l.events name) {e : Event} (hfinishes : e ≠ .finishes name)
    (hfails : e ≠ .fails name) : Running (l.add e).events name :=
  ⟨mem_add.mpr (.inl h.1), fun he => h.2.1 ((mem_add.mp he).resolve_right hfinishes.symm),
    fun he => h.2.2 ((mem_add.mp he).resolve_right hfails.symm)⟩

theorem Orderly.add {pending' : List Text} (h : Orderly p pending l) {e : Event}
    (he : InOrder p l.events e) (hentered : ∀ name, e ≠ .entered name)
    (hsubject : ∀ name, e.subject = some name → name ∈ l.started)
    (hcalled : p.Acyclic → ∀ name ∈ l.started, name ∉ pending' →
      Called p (l.add e).events name) : Orderly p pending' (l.add e) := by
  refine ⟨fun name => ?_, ?_, h.closed, hcalled, ?_⟩
  · rw [mem_add, h.marked]
    exact or_iff_left fun heq => hentered name heq.symm
  · intro e' he' name hname
    rcases mem_add.mp he' with he' | rfl
    · exact h.subjects e' he' name hname
    · exact hsubject name hname
  · intro before e' hprefix
    rcases prefix_concat_cases hprefix with hprefix | ⟨more, hbefore, hmore⟩
    · exact h.inOrder before e' hprefix
    · obtain ⟨rfl, rfl⟩ := prefix_concat_single hmore
      rw [hbefore, List.append_nil]
      exact he

theorem Orderly.called_add (h : Orderly p pending l) (hp : p.Acyclic) {e : Event}
    (hends : ∀ name, Running l.events name → e ≠ .finishes name ∧ e ≠ .fails name)
    (hname : name ∈ l.started) (hpending : name ∉ pending) : Called p (l.add e).events name :=
  (h.called hp name hname hpending).mono (fun _ h => mem_add.mpr (.inl h))
    fun super hsuper => hsuper.add (hends super hsuper).1 (hends super hsuper).2

/-- An event that does not concern the initialisation of a class. -/
theorem Orderly.plain (h : Orderly p pending l) {e : Event} (he : InOrder p l.events e)
    (hsubject : e.subject = none) : Orderly p pending (l.add e) := by
  have hother (e' : Event) (name : Text) (he' : e'.subject = some name) : e ≠ e' := by
    rintro rfl
    cases hsubject.symm.trans he'
  refine h.add he (fun name => hother _ name rfl) ?_ fun hp name hname hpending =>
    h.called_add hp (fun name _ => ⟨hother _ name rfl, hother _ name rfl⟩) hname hpending
  intro name hname
  cases hsubject.symm.trans hname

theorem Orderly.above (h : Orderly p pending l) {super : Text} (hname : name ∈ l.started)
    (habove : p.Above name super) : super ∈ l.started := by
  induction habove with
  | single hsuper => exact h.closed name _ hname hsuper
  | tail _ hsuper ih => exact h.closed _ _ ih hsuper

section

variable {names : List Text}

theorem mem_enter {e : Event} :
    e ∈ (l.enter names).events ↔ e ∈ l.events ∨ ∃ name ∈ names, .entered name = e := by
  simp [Ledger.enter]

theorem mem_started_enter :
    name ∈ (l.enter names).started ↔ name ∈ l.started ∨ name ∈ names := by
  simp [Ledger.enter]

/-- Classes are marked as started, and wait. -/
theorem Orderly.enter (h : Orderly p [] l) (hfresh : ∀ name ∈ names, name ∉ l.started)
    (hnodup : names.Nodup) (hclosed : ∀ name ∈ names, ∀ super, p.Super name super →
      super ∈ l.started ++ names) : Orderly p names (l.enter names) := by
  refine ⟨fun name => ?_, fun e he name hsubject => ?_, fun name super hname hsuper => ?_,
    fun hp name hname hpending => ?_, fun before e hprefix => ?_⟩
  · rw [mem_enter, mem_started_enter, h.marked]
    simp
  · rw [mem_started_enter]
    rcases mem_enter.mp he with he | ⟨name', hname', rfl⟩
    · exact .inl (h.subjects e he name hsubject)
    · cases hsubject
      exact .inr hname'
  · rcases mem_started_enter.mp hname with hname | hname
    · exact mem_started_enter.mpr (.inl (h.closed name super hname hsuper))
    · exact mem_started_enter.mpr (List.mem_append.mp (hclosed name hname super hsuper))
  · have hold := (mem_started_enter.mp hname).resolve_right hpending
    have hkept {e : Event} (he : ∀ name, e ≠ .entered name) (hmem : e ∈ (l.enter names).events) :
        e ∈ l.events := by
      refine (mem_enter.mp hmem).resolve_right ?_
      rintro ⟨name, -, rfl⟩
      exact he name rfl
    exact (h.called hp name hold nofun).mono (fun _ h => mem_enter.mpr (.inl h)) fun super hsuper =>
      ⟨mem_enter.mpr (.inl hsuper.1), fun he => hsuper.2.1 (hkept nofun he),
        fun he => hsuper.2.2 (hkept nofun he)⟩
  · rcases prefix_concat_cases hprefix with hprefix | ⟨more, rfl, hmore⟩
    · exact h.inOrder before e hprefix
    · obtain ⟨name, hname, rfl⟩ := List.mem_map.mp (hmore.subset (by simp : e ∈ more ++ [e]))
      have hnodup' : (names.map Event.entered).Nodup :=
        hnodup.map fun _ _ heq => Event.entered.inj heq
      have hnew := (List.nodup_append.mp (hmore.sublist.nodup hnodup')).2.2
      intro hagain
      rcases List.mem_append.mp hagain with hagain | hagain
      · exact hfresh name hname ((h.marked name).mp hagain)
      · exact hnew _ hagain _ (List.mem_singleton_self _) rfl

theorem extends_enter (hfresh : ∀ name ∈ names, name ∉ l.started) :
    Extends [] l (l.enter names) := by
  refine ⟨fun name hname => mem_started_enter.mpr (.inl hname), names.map .entered, rfl, ?_⟩
  intro e he name hsubject
  obtain ⟨name', hname', rfl⟩ := List.mem_map.mp he
  cases hsubject
  exact .inl (hfresh name hname')

/-- Classes that are marked and then initialised have not been started before. -/
theorem Extends.enter (hfresh : ∀ name ∈ names, name ∉ l.started)
    (h' : Extends names (l.enter names) l') : Extends [] l l' := by
  have h := extends_enter hfresh
  obtain ⟨more, hmore, hnew⟩ := (h.trans h').events
  refine ⟨fun name hname => h'.started name (h.started name hname), more, hmore, ?_⟩
  intro e he name hsubject
  exact .inl ((hnew e he name hsubject).elim id (hfresh name))

/-- A class that has been started since is one of those that were marked, or has been started after
them. -/
theorem new_of_enter {other : Text} (hnew : other ∉ l.started ∨ other ∈ ([] : List Text)) :
    other ∉ (l.enter names).started ∨ other ∈ names := by
  by_cases hown : other ∈ names
  · exact .inr hown
  · exact .inl fun hstarted => (mem_started_enter.mp hstarted).elim
      (hnew.resolve_right List.not_mem_nil) hown

theorem Concludes.enter (h : Concludes p names (l.enter names) l') : Concludes p [] l l' :=
  fun name hname hnew => h name hname (new_of_enter hnew)

theorem Settles.enter (h : Settles p names (l.enter names) l') : Settles p [] l l' := by
  refine ⟨fun name hname hnew => h.finished name hname (new_of_enter hnew), fun name hfails => ?_⟩
  refine (mem_enter.mp (h.fine name hfails)).resolve_right ?_
  rintro ⟨_, -, ⟨⟩⟩

end

/-- A class comes next whose initialiser is called: all above it have had theirs called, and those
that still wait are below it. -/
theorem Orderly.begins (h : Orderly p (name :: pending) l) (hname : name ∈ l.started)
    (hstarts : .starts name ∉ l.events) (hfinishes : .finishes name ∉ l.events)
    (hfails : .fails name ∉ l.events) (hbelow : ∀ below ∈ pending, p.Above below name) :
    Orderly p [] (l.add (.starts name)) := by
  have hrunning : Running (l.add (.starts name)).events name :=
    ⟨mem_add.mpr (.inr rfl), fun h => hfinishes ((mem_add.mp h).resolve_right nofun),
      fun h => hfails ((mem_add.mp h).resolve_right nofun)⟩
  refine h.add ⟨hstarts, (h.marked name).mpr hname, fun super habove => ?_⟩ nofun ?_ ?_
  · have hsuper := h.above hname habove
    refine ⟨(h.marked super).mpr hsuper, fun hp => h.called hp super hsuper fun hmem => ?_⟩
    rcases List.mem_cons.mp hmem with rfl | hmem
    · exact hp super habove
    · exact hp name (habove.trans (hbelow super hmem))
  · rintro _ ⟨⟩
    exact hname
  · intro hp name' hname' _
    by_cases hpending : name' ∈ name :: pending
    · rcases List.mem_cons.mp hpending with rfl | hpending
      · exact .inl fun _ => mem_add.mpr (.inr rfl)
      · exact .inr (.inr ⟨name, hbelow name' hpending, hrunning⟩)
    · exact h.called_add hp (fun _ _ => ⟨nofun, nofun⟩) hname' hpending

/-- The initialisation of a class ends. Those that have been started since have come to an end, too,
so none of them waits for it, and those from before wait for others. -/
theorem Orderly.ends (h : Orderly p (name :: pending) l) (h' : Orderly p (name :: pending) l')
    (hext : Extends [name] l l') (hends : Concludes p [] l l') (hname : name ∈ l.started)
    (hstarts : .starts name ∉ l.events) {e : Event} (he : e = .finishes name ∨ e = .fails name)
    (hended : Ended p (l'.add e).events name) :
    Orderly p pending (l'.add e) ∧ Concludes p [name] l (l'.add e) := by
  have hold {e' : Event} (he' : e' ∈ l'.events) : e' ∈ (l'.add e).events := mem_add.mpr (.inl he')
  have hother {super : Text} (hne : super ≠ name) : e ≠ .finishes super ∧ e ≠ .fails super := by
    rcases he with rfl | rfl
    · exact ⟨fun heq => hne (Event.finishes.inj heq).symm, nofun⟩
    · exact ⟨nofun, fun heq => hne (Event.fails.inj heq).symm⟩
  have hall : Concludes p [name] l (l'.add e) := by
    intro other hstarted hnew
    by_cases hsame : other = name
    · exact hsame ▸ hended
    · refine (hends other hstarted (.inl ?_)).mono fun _ => hold
      exact hnew.resolve_right fun hmem => hsame (List.mem_singleton.mp hmem)
  refine ⟨h'.add ?_ ?_ ?_ fun hp other hstarted hpending => ?_, hall⟩
  · rcases he with rfl | rfl <;> exact trivial
  · rcases he with rfl | rfl <;> nofun
  · rcases he with rfl | rfl <;>
    · rintro _ ⟨⟩
      exact hext.started name hname
  by_cases hnew : other ∉ l.started ∨ other ∈ [name]
  · exact (hall other hstarted hnew).imp And.right .inl
  rw [not_or, not_not, List.mem_singleton] at hnew
  have hmem : other ∉ name :: pending := fun hmem => (List.mem_cons.mp hmem).elim hnew.2 hpending
  refine (h.called hp other hnew.1 hmem).mono (fun _ h => hold (hext.subset h)) ?_
  intro super hsuper
  have hne : super ≠ name := fun heq => hstarts (heq ▸ hsuper.1)
  have hkept {e' : Event} (hsubject : e'.subject = some super) : e' ∈ l'.events ↔ e' ∈ l.events :=
    hext.mem_iff hsubject (h.subjects _ hsuper.1 super rfl) (by simpa using hne)
  refine Running.add ⟨hext.subset hsuper.1, ?_, ?_⟩ (hother hne).1 (hother hne).2
  · exact fun h => hsuper.2.1 ((hkept rfl).mp h)
  · exact fun h => hsuper.2.2 ((hkept rfl).mp h)

/-- A class has been initialised, and nothing has failed. -/
theorem Settles.finishes (h : Settles p [] l l')
    (hended : Ended p (l'.add (.finishes name)).events name) (hfails : .fails name ∉ l.events) :
    Settles p [name] l (l'.add (.finishes name)) := by
  have hfine (other : Text) (hother : .fails other ∈ (l'.add (.finishes name)).events) :
      .fails other ∈ l.events := h.fine other ((mem_add.mp hother).resolve_right nofun)
  refine ⟨fun other hother hnew => ?_, hfine⟩
  by_cases hsame : other = name
  · exact hsame ▸ hended.resolve_right fun hfailed => hfails (hfine name hfailed)
  · obtain ⟨hfinishes, hstarts⟩ := h.finished other hother (.inl (hnew.resolve_right
      fun hmem => hsame (List.mem_singleton.mp hmem)))
    exact ⟨mem_add.mpr (.inl hfinishes), fun hinit => mem_add.mpr (.inl (hstarts hinit))⟩

end Ledger

end ClassWasm.Machine
