/-
  What becomes of the classes of a machine over its life. Requests one after the other keep the
  order in which classes are initialised (`initialised_in_order`), though a superclass whose
  initialiser leads to a class below is overtaken by it (`superclass_overtaken`). A request with a
  value has initialised all that it has started, and nothing happens later to a class that could
  not be initialised (`values_initialised`), so the next request may well find a value there
  (`failure_forgotten`).
-/
import ClassWasm.ClassFile.Parser
import ClassWasm.Proofs.Machine.Initialisation

namespace ClassWasm.Machine

open Ledger

/-! ## Requests -/

section

variable {p : Program} {w : Watch}

/-- What a request does to the classes. -/
structure Serves (p : Program) (l : Ledger) (answer : Except Stop Value) (l' : Ledger) : Prop where
  orderly : Orderly p [] l'
  later : Extends [] l l'
  ends : Settles p [] l l' ∨ Fails l l'
  value : ∀ v, answer = .ok v → Settles p [] l l'

theorem run_serves {x : Watched Value} (hw : Orderly p [] w.ledger) (h : Behaves p w (x w)) :
    Serves p w.ledger (w.run x).1 (w.run x).2.ledger := by
  unfold Watch.run
  cases hrun : x w with
  | ok v w' =>
    rw [hrun] at h
    exact ⟨h.1, h.2.1, .inl h.2.2, fun _ _ => h.2.2⟩
  | error e w' =>
    rw [hrun] at h
    exact ⟨h.1, h.2.1, h.2.2.settles_or_fails hw, nofun⟩

theorem ofStop_eq_ok {a : Except Stop Value} {v : Value} (h : ofStop a = .ok v) : a = .ok v := by
  cases a with
  | ok v' =>
    cases h
    rfl
  | error e => cases e <;> cases h

section

variable {s : Setting} (hp : s.program.Distinct) (hprepared : s.program.Prepared) (fuel : Nat)
  (ref : MemberRef) (h : Orderly s.program [] w.ledger)

include hp hprepared h

theorem invoke_goes (args : List Value) :
    Behaves s.program w (Watched.invoke s fuel ref args w) := by
  have hcall := (run_goes hp hprepared fuel).1
  refine (goes_lift (fun _ => keeps_ofResult _) h).bind fun cr w₁ hresult h₁ _ => ?_
  obtain ⟨hc, m, hm, -, hr⟩ := routine_eq_ok (lift_ofResult hresult)
  refine (goes_lift (fun _ => keeps_ofResult _) h₁).bind fun _ w₂ _ h₂ _ => ?_
  obtain ⟨hrun, hstarted⟩ := initialise_goes hp hprepared hcall hc h₂
  refine hrun.bind fun _ w₃ hresult h₃ _ => hcall cr.2 args w₃ ?_ h₃
  rw [hprepared.owner_of_routine hc hm hr]
  exact hstarted w₃ hresult

theorem static_goes : Behaves s.program w (Watched.static s fuel ref w) := by
  have hcall := (run_goes hp hprepared fuel).1
  refine (goes_lift (fun _ => keeps_ofResult _) h).bind fun c w₁ hresult h₁ _ => ?_
  have hc : c ∈ s.program := (fieldOwner_eq_ok (lift_ofResult hresult)).1
  refine (access_goes hp hprepared hcall hc h₁ (.inl rfl)).bind fun _ w₂ _ h₂ _ => ?_
  exact goes_lift (fun _ => keeps_get.bind fun _ => keeps_pure _) h₂

end

theorem serve_serves (hp : p.Distinct) (hprepared : p.Prepared) (h : Orderly p [] w.ledger)
    (q : Request) : Serves p w.ledger (w.serve p q).1 (w.serve p q).2.ledger := by
  cases q with
  | invoke clock fuel ref args =>
    have hrun := run_serves (w := { w with frames := 0 }) h
      (invoke_goes (s := ⟨p, clock⟩) (w := { w with frames := 0 }) hp hprepared fuel ref h args)
    exact ⟨hrun.orderly, hrun.later, hrun.ends, fun v hv => hrun.value v (ofStop_eq_ok hv)⟩
  | static clock fuel ref =>
    exact run_serves h (static_goes (s := ⟨p, clock⟩) hp hprepared fuel ref h)

theorem orderly_start {m : Machine} (h : m.store.started = []) :
    Orderly m.program [] (Watch.start m).ledger := by
  have hstarted : (Watch.start m).ledger.started = [] := h
  refine ⟨fun name => ?_, nofun, fun name super hname => ?_, fun _ name hname => ?_,
    fun before e hprefix => ?_⟩
  · rw [hstarted]
    exact ⟨nofun, nofun⟩
  · rw [hstarted] at hname
    cases hname
  · rw [hstarted] at hname
    cases hname
  · exact absurd (List.prefix_nil.mp hprefix) (by simp)

theorem after_orderly (hp : p.Distinct) (hprepared : p.Prepared) (h : Orderly p [] w.ledger)
    (qs : List Request) : Orderly p [] (w.after p qs).ledger := by
  induction qs generalizing w with
  | nil => exact h
  | cons q qs ih => exact ih (serve_serves hp hprepared h q).orderly

/-- As long as no initialisation has failed, all that has been started is initialised. -/
def Initialised (p : Program) (l : Ledger) : Prop :=
  ¬ Failed l.events → ∀ name ∈ l.started,
    .finishes name ∈ l.events ∧ (p.HasInitialiser name → .starts name ∈ l.events)

theorem Initialised.serves {l l' : Ledger} {answer : Except Stop Value} (h : Initialised p l)
    (hserves : Serves p l answer l') : Initialised p l' := by
  intro hfine name hname
  have hsettles : Settles p [] l l' := hserves.ends.resolve_right fun ⟨failed, hfails, _⟩ =>
    hfine ⟨failed, hfails⟩
  by_cases hold : name ∈ l.started
  · have hfine' : ¬ Failed l.events := fun ⟨failed, hfails⟩ =>
      hfine ⟨failed, hserves.later.subset hfails⟩
    obtain ⟨hfinishes, hstarts⟩ := h hfine' name hold
    exact ⟨hserves.later.subset hfinishes, fun hinit => hserves.later.subset (hstarts hinit)⟩
  · exact hsettles.finished name hname (.inl hold)

theorem after_initialised (hp : p.Distinct) (hprepared : p.Prepared) (h : Orderly p [] w.ledger)
    (hinit : Initialised p w.ledger) (qs : List Request) :
    Initialised p (w.after p qs).ledger := by
  induction qs generalizing w with
  | nil => exact hinit
  | cons q qs ih =>
    have hserves := serve_serves hp hprepared h q
    exact ih hserves.orderly (hinit.serves hserves)

end

/-! ## The order of initialisation -/

/-- A request with a value has initialised all classes that it has started, and without any failure
all classes ever started are initialised. Whatever has happened to a class that a request finds
started, nothing more does: one that could not be initialised is not tried again. -/
theorem values_initialised {files : List ClassFile} {m : Machine} (h : ofFiles files = .ok m)
    (qs : List Request) (q : Request) :
    let w := (Watch.start m).after m.program qs
    let answer := (m.after qs).serve q
    let watched := w.serve m.program q
    watched.1 = answer.1 ∧ Watches watched.2 answer.2 ∧
      Initialised m.program watched.2.ledger ∧
      (∀ v, answer.1 = .ok v → Settles m.program [] w.ledger watched.2.ledger) ∧
      ∀ name ∈ (m.after qs).store.started, ∀ e, e.subject = some name →
        (e ∈ watched.2.events ↔ e ∈ w.events) := by
  intro w answer watched
  obtain ⟨hp, hprepared, hstarted⟩ := ofFiles_distinct h
  have hw : Watches w (m.after qs) := (watches_start m).after qs
  have hserve := hw.serve q
  rw [after_program] at hserve
  have hstart : Orderly m.program [] (Watch.start m).ledger := orderly_start hstarted
  have hnone : Initialised m.program (Watch.start m).ledger := by
    intro _ name hname
    rw [show (Watch.start m).ledger.started = [] from hstarted] at hname
    cases hname
  have hserves := serve_serves hp hprepared (after_orderly hp hprepared hstart qs) q
  refine ⟨hserve.answer, hserve.watches,
    (after_initialised hp hprepared hstart hnone qs).serves hserves,
    fun v hv => hserves.value v (hserve.answer.trans hv), fun name hname e hsubject => ?_⟩
  rw [← hw.store] at hname
  exact hserves.later.mem_iff hsubject hname List.not_mem_nil

/-! ## A failure that is forgotten -/

/-- A class with `static { int unused = 1 / 0; }` and `static int f() { return 3; }`. -/
def failingBytes : Bytes :=
  [0xca, 0xfe, 0xba, 0xbe, 0, 0, 0, 0x34, 0, 8, 1, 0, 1, 0x41, 7, 0, 1, 1, 0, 8, 0x3c, 0x63, 0x6c,
    0x69, 0x6e, 0x69, 0x74, 0x3e, 1, 0, 3, 0x28, 0x29, 0x56, 1, 0, 4, 0x43, 0x6f, 0x64, 0x65, 1, 0,
    1, 0x66, 1, 0, 3, 0x28, 0x29, 0x49, 0, 0x21, 0, 2, 0, 0, 0, 0, 0, 0, 0, 2, 0, 8, 0, 3, 0, 4, 0,
    1, 0, 5, 0, 0, 0, 0x11, 0, 2, 0, 0, 0, 0, 0, 5, 4, 3, 0x6c, 0x57, 0xb1, 0, 0, 0, 0, 0, 9, 0, 6,
    0, 7, 0, 1, 0, 5, 0, 0, 0, 14, 0, 1, 0, 0, 0, 0, 0, 2, 6, 0xac, 0, 0, 0, 0, 0, 0]

def failingPool : Pool :=
  ⟨#[none, some (.utf8 "A"), some (.classRef 1), some (.utf8 "<clinit>"), some (.utf8 "()V"),
    some (.utf8 "Code"), some (.utf8 "f"), some (.utf8 "()I")]⟩

def dividingCode : Code := ⟨2, 0, [0x04, 0x03, 0x6c, 0x57, 0xb1], [], []⟩

def dividingMethod : Method := ⟨⟨0x0008⟩, "<clinit>", "()V", [.code dividingCode]⟩

def threeCode : Code := ⟨1, 0, [0x06, 0xac], [], []⟩

def threeMethod : Method := ⟨⟨0x0009⟩, "f", "()I", [.code threeCode]⟩

def failingFile : ClassFile :=
  ⟨0, 52, failingPool, ⟨0x0021⟩, 2, 0, [], [], [dividingMethod, threeMethod], []⟩

def dividingInstrs : Array Instruction :=
  #[⟨0, 1, 0x04, false, .const (.int 1)⟩, ⟨1, 1, 0x03, false, .const (.int 0)⟩,
    ⟨2, 1, 0x6c, false, .arith (.int .div)⟩, ⟨3, 1, 0x57, false, .stack .pop⟩,
    ⟨4, 1, 0xb1, false, .ret .void⟩]

def threeInstrs : Array Instruction :=
  #[⟨0, 1, 0x06, false, .const (.int 3)⟩, ⟨1, 1, 0xac, false, .ret .int⟩]

def dividing : Routine :=
  ⟨⟨"A", "<clinit>", "()V"⟩, [], .void, 0, 2, dividingInstrs, .ofInstructions dividingInstrs⟩

def three : Routine := ⟨⟨"A", "f", "()I"⟩, [], .int, 0, 1, threeInstrs, .ofInstructions threeInstrs⟩

def failingMachine : Machine where
  program := [⟨⟨failingFile, "A", .empty⟩,
    [⟨dividingMethod, some (.ok dividing)⟩, ⟨threeMethod, some (.ok three)⟩]⟩]
  store := { statics := [] }

theorem load_failing :
    Routine.load "A" failingPool dividingMethod dividingCode = .ok dividing ∧
      Routine.load "A" failingPool threeMethod threeCode = .ok three := by
  have hdividing : decode failingPool dividingCode.bytes = .ok dividingInstrs :=
    ok_of_toOption (by decide +kernel)
  have hthree : decode failingPool threeCode.bytes = .ok threeInstrs :=
    ok_of_toOption (by decide +kernel)
  have hint : Descriptor.parseMethod "()I" = .ok ⟨[], some ⟨0, .primitive .int⟩⟩ := by
    decide +kernel
  constructor
  · exact Routine.load_of_decode (m := dividingMethod) parseMethod_void rfl hdividing
  · exact Routine.load_of_decode (m := threeMethod) hint rfl hthree

theorem ofFiles_failing : ofFiles [failingFile] = .ok failingMachine := by
  refine ofFiles_eq_ok.mpr ⟨[⟨failingFile, "A", .empty⟩], [[]], ⟨.cons rfl .nil, by decide⟩,
    .cons rfl .nil, ?_⟩
  obtain ⟨hdividing, hthree⟩ := load_failing
  simp only [failingMachine, ← hdividing, ← hthree]
  rfl

/-- A call of the method that does not need the initialiser. -/
def asking : Request := .invoke ⟨0, 0⟩ 20 ⟨"A", "f", "()I"⟩ []

theorem values_initialised_failing :
    let w := (Watch.start failingMachine).after failingMachine.program [asking]
    let watched := w.serve failingMachine.program asking
    ofFiles [failingFile] = .ok failingMachine ∧
      ("A" : Text) ∈ (failingMachine.after [asking]).store.started ∧
      (.fails "A" ∈ watched.2.events ↔ .fails "A" ∈ w.events) ∧ .fails "A" ∈ w.events :=
  have hstarted : ("A" : Text) ∈ (failingMachine.after [asking]).store.started := by decide +kernel
  have hvalues := values_initialised ofFiles_failing [asking] asking
  ⟨ofFiles_failing, hstarted, hvalues.2.2.2.2 "A" hstarted (.fails "A") rfl, by decide +kernel⟩

/-- A class whose initialiser has failed counts as started, and is used as if it had not. -/
theorem failure_forgotten :
    let watched := (Watch.start failingMachine).serve failingMachine.program asking
    ClassFile.parse failingBytes = .ok failingFile ∧ ofFiles [failingFile] = .ok failingMachine ∧
      (failingMachine.serve asking).1 = .error (.error divisionByZero) ∧
      .fails "A" ∈ watched.2.events ∧
      ((failingMachine.after [asking]).serve asking).1 = .ok (.int 3) := by
  exact ⟨by cbv, ofFiles_failing, rfl, by decide +kernel, ok_of_toOption (by decide +kernel)⟩

end ClassWasm.Machine
