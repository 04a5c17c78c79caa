/-
  The loaded superclasses of a class. A class is above another one when it is reached from there
  by superclasses. What a use of a class starts is a chain upward (`unstarted_chain`) that stops
  only at a class which has been started before or where no superclass is loaded.
-/
import ClassWasm.Proofs.Machine.Soundness

namespace ClassWasm.Machine

variable {p : Program} {c d : PreparedClass}

namespace Program

/-- No two classes have the same name. -/
def Distinct (p : Program) : Prop := (p.map fun c => c.name).Nodup

/-- The direct superclass of `a` is loaded, as `b`. -/
def Super (p : Program) (a b : Text) : Prop :=
  ∃ c d, p.named? a = some c ∧ p.named? c.superName = some d ∧ d.name = b

/-- `b` is one of the loaded superclasses of `a`. -/
def Above (p : Program) : Text → Text → Prop := Relation.TransGen p.Super

/-- No class is its own superclass. -/
def Acyclic (p : Program) : Prop := ∀ name, ¬ p.Above name name

/-- The class has an initialiser with code that can be run. -/
def HasInitialiser (p : Program) (name : Text) : Prop :=
  ∃ c r, p.named? name = some c ∧
    (c.findMethod? "<clinit>" "()V").bind PreparedMethod.routine? = some (.ok r)

theorem mem_of_named? {name : Text} (h : p.named? name = some c) : c ∈ p ∧ c.name = name :=
  ⟨List.mem_of_find?_eq_some h, by simpa using List.find?_some h⟩

theorem Distinct.named?_of_mem (h : p.Distinct) (hc : c ∈ p) : p.named? c.name = some c := by
  obtain ⟨c', hc'⟩ := Option.isSome_iff_exists.mp
    (find?_isSome_iff_mem_map.mpr (List.mem_map_of_mem (f := fun c => c.name) hc))
  obtain ⟨hmem, hname⟩ := mem_of_named? hc'
  rw [List.inj_on_of_nodup_map h hmem hc hname] at hc'
  exact hc'

theorem Distinct.super_iff (h : p.Distinct) (hc : c ∈ p) {b : Text} :
    p.Super c.name b ↔ ∃ d, p.named? c.superName = some d ∧ d.name = b := by
  constructor
  · rintro ⟨c', d, hc', hd, hb⟩
    obtain rfl := Option.some.inj ((h.named?_of_mem hc).symm.trans hc')
    exact ⟨d, hd, hb⟩
  · rintro ⟨d, hd, hb⟩
    exact ⟨c, d, h.named?_of_mem hc, hd, hb⟩

theorem Distinct.hasInitialiser_iff (h : p.Distinct) (hc : c ∈ p) :
    p.HasInitialiser c.name ↔
      ∃ r, (c.findMethod? "<clinit>" "()V").bind PreparedMethod.routine? = some (.ok r) := by
  constructor
  · rintro ⟨c', r, hc', hr⟩
    obtain rfl := Option.some.inj ((h.named?_of_mem hc).symm.trans hc')
    exact ⟨r, hr⟩
  · rintro ⟨r, hr⟩
    exact ⟨c, r, h.named?_of_mem hc, hr⟩

/-- A routine is one of the class that its method is found in. -/
theorem Prepared.owner_of_routine (hp : p.Prepared) (hc : c ∈ p) {m : PreparedMethod}
    (hm : m ∈ c.methods) {r : Routine} (hr : m.routine? = some (.ok r)) : r.ref.owner = c.name := by
  obtain ⟨l, rfl⟩ := hp c hc
  obtain ⟨-, code, -, hload⟩ := load_of_routine hm hr
  unfold Routine.load at hload
  obtain ⟨type, -, hload⟩ := bind_eq_ok.mp hload
  split at hload
  · cases hload
  · obtain ⟨instrs, -, hload⟩ := bind_eq_ok.mp hload
    cases hload
    rfl

end Program

/-- What a machine has that is set up from class files. -/
theorem ofFiles_distinct {files : List ClassFile} {m : Machine} (h : ofFiles files = .ok m) :
    m.program.Distinct ∧ m.program.Prepared ∧ m.store.started = [] := by
  obtain ⟨classes, blocks, hloads, -, rfl⟩ := ofFiles_eq_ok.mp h
  refine ⟨?_, fun c hc => ?_, rfl⟩
  · have hnames : (classes.map PreparedClass.ofLoaded).map (fun c => c.name) =
        classes.map LoadedClass.name := by
      rw [List.map_map]
      rfl
    rw [Program.Distinct, hnames]
    exact hloads.names
  · obtain ⟨l, -, rfl⟩ := List.mem_map.mp hc
    exact ⟨l, rfl⟩

/-! ## What is started with a class -/

/-- The classes that a use of `c` starts: `c` and those above it, up to the first that has been
started. -/
structure Chain (p : Program) (started : List Text) (c : PreparedClass)
    (classes : List PreparedClass) : Prop where
  head : ∀ d ∈ classes.head?, d = c
  linked : classes.IsChain fun a b => p.Super a.name b.name
  mem : ∀ d ∈ classes, d ∈ p
  fresh : ∀ d ∈ classes, d.name ∉ started
  nodup : (classes.map fun d => d.name).Nodup
  covers : c.name ∈ started ++ classes.map fun d => d.name
  closed : ∀ d ∈ classes, ∀ e, p.named? d.superName = some e →
    e.name ∈ started ++ classes.map fun d => d.name

theorem Chain.above {started : List Text} {classes : List PreparedClass}
    (h : Chain p started c classes) : classes.Pairwise fun a b => p.Above a.name b.name := by
  let rel (a b : PreparedClass) : Prop := p.Above a.name b.name
  have : Trans rel rel rel := ⟨Relation.TransGen.trans⟩
  have hlinked : classes.IsChain rel := h.linked.imp fun _ _ => Relation.TransGen.single
  exact hlinked.pairwise

theorem Chain.fresh_names {started : List Text} {classes : List PreparedClass}
    (h : Chain p started c classes) : ∀ name ∈ classes.map (fun d => d.name), name ∉ started := by
  intro name hname
  obtain ⟨d, hd, rfl⟩ := List.mem_map.mp hname
  exact h.fresh d hd

theorem chain_nil {started : List Text} (h : c.name ∈ started) : Chain p started c [] :=
  ⟨nofun, .nil, nofun, nofun, .nil, List.mem_append_left _ h, nofun⟩

theorem chain_single {started : List Text} (hc : c ∈ p) (h : c.name ∉ started)
    (hsuper : p.named? c.superName = none) : Chain p started c [c] := by
  refine ⟨?_, .singleton c, ?_, ?_, List.nodup_singleton _, by simp, ?_⟩
  · rintro d ⟨⟩
    rfl
  · intro d hd
    exact List.mem_singleton.mp hd ▸ hc
  · intro d hd
    exact List.mem_singleton.mp hd ▸ h
  · intro d hd e he
    rw [List.mem_singleton.mp hd, hsuper] at he
    cases he

theorem Chain.cons (hp : p.Distinct) {started : List Text} {classes : List PreparedClass}
    (hc : c ∈ p) (h : c.name ∉ started) (hsuper : p.named? c.superName = some d)
    (hchain : Chain p (c.name :: started) d classes) : Chain p started c (c :: classes) := by
  have hmem {name : Text} (hname : name ∈ (c.name :: started) ++ classes.map fun d => d.name) :
      name ∈ started ++ (c :: classes).map fun d => d.name := by
    simp only [List.cons_append, List.mem_cons, List.mem_append, List.map_cons] at hname ⊢
    tauto
  refine ⟨?_, ?_, ?_, ?_, ?_, by simp, ?_⟩
  · rintro e ⟨⟩
    rfl
  · refine List.isChain_cons.mpr ⟨fun e he => ?_, hchain.linked⟩
    exact (hp.super_iff hc).mpr ⟨d, hsuper, congrArg (fun c => c.name) (hchain.head e he).symm⟩
  · intro e he
    rcases List.mem_cons.mp he with rfl | he
    · exact hc
    · exact hchain.mem e he
  · intro e he
    rcases List.mem_cons.mp he with rfl | he
    · exact h
    · exact fun hstarted => hchain.fresh e he (List.mem_cons_of_mem _ hstarted)
  · refine List.nodup_cons.mpr ⟨fun hagain => ?_, hchain.nodup⟩
    obtain ⟨e, he, hname⟩ := List.mem_map.mp hagain
    exact hchain.fresh e he (hname ▸ List.mem_cons_self)
  · intro e he e' hsuper'
    rcases List.mem_cons.mp he with rfl | he
    · obtain rfl := Option.some.inj (hsuper.symm.trans hsuper')
      exact hmem hchain.covers
    · exact hmem (hchain.closed e he e' hsuper')

theorem countP_started {started : List Text} (hc : c ∈ p) (h : c.name ∉ started) :
    p.countP (fun d => d.name ∉ c.name :: started) < p.countP (fun d => d.name ∉ started) := by
  have hle (ds : List PreparedClass) :
      ds.countP (fun d => d.name ∉ c.name :: started) ≤ ds.countP (fun d => d.name ∉ started) :=
    List.countP_mono_left fun d _ hd => by simp_all
  obtain ⟨before, after, rfl⟩ := List.append_of_mem hc
  have hbefore := hle before
  have hafter := hle after
  rw [List.countP_append, List.countP_append, List.countP_cons_of_neg (by simp),
    List.countP_cons_of_pos (by simpa using h)]
  omega

/-- The number of classes is bound enough, since every class on the way is another one. -/
theorem unstarted_chain (hp : p.Distinct) {n : Nat} {started : List Text} (hc : c ∈ p)
    (hn : p.countP (fun d => d.name ∉ started) ≤ n) :
    Chain p started c (unstarted p n started c) := by
  induction n generalizing started c with
  | zero =>
    have hall := List.countP_eq_zero.mp (Nat.le_zero.mp hn) c hc
    exact chain_nil (by simpa using hall)
  | succ n ih =>
    unfold unstarted
    by_cases hstarted : c.name ∈ started
    · rw [if_pos hstarted]
      exact chain_nil hstarted
    · rw [if_neg hstarted]
      cases hsuper : p.named? c.superName with
      | none => exact chain_single hc hstarted hsuper
      | some d =>
        refine .cons hp hc hstarted hsuper (ih (Program.mem_of_named? hsuper).1 ?_)
        exact Nat.le_of_lt_succ (Nat.lt_of_lt_of_le (countP_started hc hstarted) hn)

end ClassWasm.Machine
