/-
  How lookups end. A lookup goes from the class of a name to its superclasses, until it finds
  something or meets a name that is not loaded. It does not count or mark the classes on its way.
  So it ends, within as many classes as are loaded, exactly where it does not come back to a class
  that it has passed (`settles`); where a class is above itself it may never end. What it finds is
  what the chain of superclasses holds first (`found?_eq_findSome?`).
-/
import ClassWasm.Machine.Program
import Mathlib.Tactic

open Relation (ReflTransGen TransGen)

namespace ClassWasm

/-- Up to `n` classes, each the superclass of the one before. -/
def ancestry {α : Type} (named? : Text → Option α) (superName : α → Text) :
    (n : Nat) → Text → List α
  | 0, _ => []
  | n + 1, name =>
    match named? name with
    | none => []
    | some c => c :: ancestry named? superName n (superName c)

namespace Lookup

variable {α β : Type} {l : Lookup α β} {a b name : Text} {n m : Nat} {r r' : Option β}

/-- The lookup passes the class of `a`, which has nothing for it, and goes on to its superclass
`b`. -/
def Ascends (l : Lookup α β) (a b : Text) : Prop :=
  ∃ c, l.named? a = some c ∧ l.pick c = none ∧ l.superName c = b

/-- The lookup from a name comes back to a class that it has passed. -/
def ComesRound (l : Lookup α β) (name : Text) : Prop :=
  ∃ a, ReflTransGen l.Ascends name a ∧ TransGen l.Ascends a a

/-- The lookup from a name ends after `n` classes: at one that has what is searched, or at a name
that is not loaded. -/
inductive Ends (l : Lookup α β) : Nat → Text → Option β → Prop
  | unloaded {name : Text} (hc : l.named? name = none) : l.Ends 0 name none
  | found {name : Text} {c : α} {b : β} (hc : l.named? name = some c) (hpick : l.pick c = some b) :
      l.Ends 1 name (some b)
  | above {n : Nat} {a b : Text} {r : Option β} (hab : l.Ascends a b) (h : l.Ends n b r) :
      l.Ends (n + 1) a r

/-! ## Ends -/

theorem Ascends.loaded (h : l.Ascends a b) : (l.named? a).isSome := by
  obtain ⟨c, hc, -⟩ := h
  rw [hc]
  rfl

theorem Ends.of_ascends (hab : l.Ascends a b) (h : l.Ends n a r) :
    ∃ m, n = m + 1 ∧ l.Ends m b r := by
  obtain ⟨c, hc, hpick, rfl⟩ := hab
  cases h with
  | unloaded hc' => exact absurd (hc.symm.trans hc') nofun
  | found hc' hpick' =>
    obtain rfl := Option.some.inj (hc.symm.trans hc')
    exact absurd (hpick.symm.trans hpick') nofun
  | above hab' h =>
    obtain ⟨c', hc', -, rfl⟩ := hab'
    obtain rfl := Option.some.inj (hc.symm.trans hc')
    exact ⟨_, rfl, h⟩

/-- A lookup ends in one way only. -/
theorem Ends.unique (h : l.Ends n name r) (h' : l.Ends m name r') : n = m ∧ r = r' := by
  induction h generalizing m with
  | unloaded hc =>
    cases h' with
    | unloaded => exact ⟨rfl, rfl⟩
    | found hc' => exact absurd (hc.symm.trans hc') nofun
    | above hab =>
      obtain ⟨c, hc', -⟩ := hab
      exact absurd (hc.symm.trans hc') nofun
  | @found name c b hc hpick =>
    cases h' with
    | unloaded hc' => exact absurd (hc.symm.trans hc') nofun
    | found hc' hpick' =>
      obtain rfl := Option.some.inj (hc.symm.trans hc')
      exact ⟨rfl, hpick.symm.trans hpick'⟩
    | above hab =>
      obtain ⟨c', hc', hpick', -⟩ := hab
      obtain rfl := Option.some.inj (hc.symm.trans hc')
      exact absurd (hpick.symm.trans hpick') nofun
  | above hab _ ih =>
    obtain ⟨m', rfl, hb⟩ := h'.of_ascends hab
    obtain ⟨rfl, rfl⟩ := ih hb
    exact ⟨rfl, rfl⟩

theorem Ends.run (h : l.Ends n name r) : l.run name = some r := by
  induction h with
  | unloaded hc => rw [Lookup.run, hc]
  | found hc hpick => rw [Lookup.run, hc]; simp only [hpick]
  | above hab _ ih =>
    obtain ⟨c, hc, hpick, rfl⟩ := hab
    rw [Lookup.run, hc]
    simp only [hpick]
    exact ih

theorem run_eq_some : l.run name = some r ↔ ∃ n, l.Ends n name r := by
  refine ⟨?_, fun ⟨_, h⟩ => h.run⟩
  -- What a search gives has come from finitely many turns, so it is enough to look at one of them.
  refine run.partial_correctness l (fun name r => ∃ n, l.Ends n name r) (fun run ih name r h => ?_)
    name r
  split at h
  · next hc =>
    cases h
    exact ⟨0, .unloaded hc⟩
  · next c hc =>
    split at h
    · next hpick =>
      cases h
      exact ⟨1, .found hc hpick⟩
    · next hpick =>
      obtain ⟨n, hends⟩ := ih _ _ h
      exact ⟨n + 1, .above ⟨c, hc, hpick, rfl⟩ hends⟩

/-- What a lookup finds is taken from a loaded class. -/
theorem exists_of_run {b : β} (h : l.run name = some (some b)) :
    ∃ name c, l.named? name = some c ∧ l.pick c = some b := by
  obtain ⟨n, hends⟩ := run_eq_some.mp h
  clear h
  generalize hr : some b = r at hends
  induction hends with
  | unloaded => cases hr
  | found hc hpick =>
    cases hr
    exact ⟨_, _, hc, hpick⟩
  | above _ _ ih => exact ih hr

theorem Ends.of_reflTransGen (hab : ReflTransGen l.Ascends a b) (h : l.Ends n a r) :
    ∃ m ≤ n, l.Ends m b r := by
  induction hab with
  | refl => exact ⟨n, le_rfl, h⟩
  | tail _ hbc ih =>
    obtain ⟨m, hm, hb⟩ := ih
    obtain ⟨k, rfl, hc⟩ := hb.of_ascends hbc
    exact ⟨k, by omega, hc⟩

/-- A class that is passed again would leave as many classes as before, and fewer. -/
theorem ComesRound.not_ends (h : l.ComesRound name) : ¬ l.Ends n name r := by
  obtain ⟨a, hpath, hround⟩ := h
  intro hends
  obtain ⟨m, -, ha⟩ := hends.of_reflTransGen hpath
  obtain ⟨b, hab, hba⟩ := TransGen.head'_iff.mp hround
  obtain ⟨k, rfl, hb⟩ := ha.of_ascends hab
  obtain ⟨k', hk', ha'⟩ := hb.of_reflTransGen hba
  have := (ha.unique ha').1
  omega

theorem ComesRound.run (h : l.ComesRound name) : l.run name = none := by
  cases hrun : l.run name with
  | none => rfl
  | some r =>
    obtain ⟨n, hends⟩ := run_eq_some.mp hrun
    exact absurd hends h.not_ends

theorem Ascends.run_self (h : l.Ascends a a) : l.run a = none := ComesRound.run ⟨a, .refl, .single h⟩

/-- A round is one of every relation that holds where a lookup goes on to a loaded class. -/
theorem ComesRound.transGen {R : Text → Text → Prop} (h : l.ComesRound name)
    (hR : ∀ a b, l.Ascends a b → (l.named? b).isSome → R a b) : ∃ a, TransGen R a a := by
  obtain ⟨a, -, hround⟩ := h
  obtain ⟨b, hab, hba⟩ := TransGen.head'_iff.mp hround
  have hloaded : ∀ {x}, ReflTransGen l.Ascends x a → ReflTransGen R x a ∧ (l.named? x).isSome := by
    intro x hxa
    induction hxa using ReflTransGen.head_induction_on with
    | refl => exact ⟨.refl, hab.loaded⟩
    | head hxy _ ih => exact ⟨.head (hR _ _ hxy ih.2) ih.1, hxy.loaded⟩
  obtain ⟨hback, hb⟩ := hloaded hba
  exact ⟨a, .head' (hR a b hab hb) hback⟩

/-! ## Classes on the way -/

/-- The induction is on the classes that have not been passed: a class that is passed for the first
time is one more of the loaded ones, any other one closes a round. -/
theorem ends_or_comesRound {names : List Text}
    (hnames : ∀ name, (l.named? name).isSome → name ∈ names) (passed : List Text)
    (hnodup : passed.Nodup) (hsub : passed ⊆ names) (name : Text)
    (hpassed : ∀ a ∈ passed, TransGen l.Ascends a name) :
    (∃ n r, l.Ends n name r ∧ passed.length + n ≤ names.length) ∨ l.ComesRound name := by
  cases hc : l.named? name with
  | none => exact .inl ⟨0, none, .unloaded hc, (hnodup.subperm hsub).length_le⟩
  | some c =>
    -- A class that has been passed is above itself, whatever the lookup makes of it.
    by_cases hmem : name ∈ passed
    · exact .inr ⟨name, .refl, hpassed name hmem⟩
    have hnodup' : (name :: passed).Nodup := List.nodup_cons.mpr ⟨hmem, hnodup⟩
    have hsub' : name :: passed ⊆ names :=
      List.cons_subset.mpr ⟨hnames name (by rw [hc]; rfl), hsub⟩
    have hlength : passed.length + 1 ≤ names.length := (hnodup'.subperm hsub').length_le
    cases hpick : l.pick c with
    | some b => exact .inl ⟨1, some b, .found hc hpick, hlength⟩
    | none =>
      have hab : l.Ascends name (l.superName c) := ⟨c, hc, hpick, rfl⟩
      have hpassed' : ∀ a ∈ name :: passed, TransGen l.Ascends a (l.superName c) := by
        intro a ha
        rcases List.mem_cons.mp ha with rfl | ha
        · exact .single hab
        · exact (hpassed a ha).tail hab
      obtain ⟨n, r, h, hn⟩ | ⟨a, hpath, hround⟩ :=
        ends_or_comesRound hnames (name :: passed) hnodup' hsub' (l.superName c) hpassed'
      · rw [List.length_cons] at hn
        exact .inl ⟨n + 1, r, .above hab h, by omega⟩
      · exact .inr ⟨a, .head hab hpath, hround⟩
termination_by names.length - passed.length
decreasing_by
  rw [List.length_cons]
  omega

/-- A lookup among `n` classes ends within them, and nowhere else, or comes round and never
ends. -/
structure Settles (l : Lookup α β) (n : Nat) (name : Text) : Prop where
  ends : ∀ r, l.run name = some r ↔ ∃ k ≤ n, l.Ends k name r
  never : l.run name = none ↔ l.ComesRound name

section

variable {key : α → Text} {classes : List α}

theorem settles (hnamed : ∀ name, l.named? name = classes.find? fun c => key c = name)
    (name : Text) : l.Settles classes.length name := by
  have hnames : ∀ name, (l.named? name).isSome → name ∈ classes.map key := by
    intro name h
    obtain ⟨c, hc⟩ := Option.isSome_iff_exists.mp (hnamed name ▸ h)
    exact List.mem_map.mpr ⟨c, List.mem_of_find?_eq_some hc, by simpa using List.find?_some hc⟩
  have hcases := ends_or_comesRound hnames [] List.nodup_nil (List.nil_subset _) name nofun
  rw [List.length_nil, List.length_map] at hcases
  refine ⟨fun r => ⟨fun hrun => ?_, fun ⟨_, _, h⟩ => h.run⟩, fun hrun => ?_, ComesRound.run⟩
  · obtain ⟨k, h⟩ := run_eq_some.mp hrun
    obtain ⟨k', r', h', hk'⟩ | hround := hcases
    · obtain ⟨rfl, rfl⟩ := h.unique h'
      exact ⟨k, by omega, h⟩
    · exact absurd h hround.not_ends
  · obtain ⟨k, r, h, -⟩ | hround := hcases
    · exact absurd (hrun.symm.trans h.run) nofun
    · exact hround

/-! ## What is found -/

theorem runFrom_eq_run (n : Nat) (name : Text) : l.runFrom n name = l.run name := by
  induction n generalizing name with
  | zero => rfl
  | succ n ih =>
    rw [runFrom, run]
    simp only [ih]

theorem found?_eq (n : Nat) (name : Text) : l.found? n name = (l.run name).join := by
  rw [found?, runFrom_eq_run]

theorem found?_eq_some {b : β} : l.found? n name = some b ↔ l.run name = some (some b) := by
  rw [found?_eq, Option.join_eq_some_iff]

theorem Ends.findSome?_eq (h : l.Ends n name r) (hm : n ≤ m) :
    (ancestry l.named? l.superName m name).findSome? l.pick = r := by
  induction h generalizing m with
  | unloaded hc =>
    cases m with
    | zero => rfl
    | succ m => rw [ancestry, hc]; rfl
  | found hc hpick =>
    cases m with
    | zero => omega
    | succ m =>
      simp only [ancestry, hc, List.findSome?_cons, hpick]
  | above hab _ ih =>
    obtain ⟨c, hc, hpick, rfl⟩ := hab
    cases m with
    | zero => omega
    | succ m =>
      simp only [ancestry, hc, List.findSome?_cons, hpick]
      exact ih (by omega)

theorem ends_of_findSome? {b : β}
    (h : (ancestry l.named? l.superName m name).findSome? l.pick = some b) :
    ∃ n, l.Ends n name (some b) := by
  induction m generalizing name with
  | zero => cases h
  | succ m ih =>
    unfold ancestry at h
    split at h
    · cases h
    · next c hc =>
      cases hpick : l.pick c with
      | some b' =>
        rw [List.findSome?_cons, hpick] at h
        cases h
        exact ⟨1, .found hc hpick⟩
      | none =>
        rw [List.findSome?_cons, hpick] at h
        obtain ⟨n, hends⟩ := ih h
        exact ⟨n + 1, .above ⟨c, hc, hpick, rfl⟩ hends⟩

/-- The chain of a name holds what a lookup finds. -/
theorem found?_eq_findSome? (hnamed : ∀ name, l.named? name = classes.find? fun c => key c = name)
    (n : Nat) (name : Text) :
    l.found? n name =
      (ancestry l.named? l.superName classes.length name).findSome? l.pick := by
  rw [found?_eq]
  cases hrun : l.run name with
  | some r =>
    obtain ⟨k, hk, h⟩ := ((settles hnamed name).ends r).mp hrun
    exact (h.findSome?_eq hk).symm
  | none =>
    refine (Option.eq_none_iff_forall_ne_some.mpr fun b hb => ?_).symm
    obtain ⟨k, h⟩ := ends_of_findSome? hb
    exact absurd (hrun.symm.trans h.run) nofun

end

end Lookup

/-! ## Members -/

namespace Hierarchy

/-- The class of a name and its loaded superclasses. Where no class is its own ancestor, a chain
holds each class once at most. -/
def chain (h : Hierarchy) (name : Text) : List LoadedClass :=
  ancestry h.named? LoadedClass.superName h.length name

theorem staticMethod?_eq (h : Hierarchy) (ref : MemberRef) :
    h.staticMethod? ref = (h.chain ref.owner).findSome? (h.methodLookup ref).pick :=
  Lookup.found?_eq_findSome? (fun _ => rfl) _ _

end Hierarchy

namespace Machine

/-- The class of a name and its loaded superclasses. -/
def Program.chain (p : Program) (name : Text) : List PreparedClass :=
  ancestry p.named? (fun c => c.superName) p.length name

variable {p : Program} {ref : MemberRef} {c : PreparedClass}

theorem fieldOwner_eq_ok_iff :
    p.fieldOwner ref = .ok c ↔ (p.fieldLookup ref).run ref.owner = some (some c) := by
  unfold Program.fieldOwner
  rw [← Lookup.found?_eq_some (n := p.length + 1)]
  cases (p.fieldLookup ref).found? (p.length + 1) ref.owner with
  | none => exact ⟨nofun, nofun⟩
  | some c' => rw [Option.some.injEq, Except.ok.injEq]

theorem routine_eq_ok_iff {r : Routine} :
    p.routine ref = .ok (c, r) ↔ ∃ m, (p.methodLookup ref).run ref.owner = some (some (c, m)) ∧
      m.method.access.isStatic = true ∧ m.routine? = some (.ok r) := by
  simp only [← Lookup.found?_eq_some (n := p.length + 1)]
  constructor
  · intro h
    unfold Program.routine at h
    split at h
    · cases h
    · split at h
      · cases h
      · next c' m hfound =>
        split at h
        · cases h
        · next loaded hloaded =>
          split at h
          · cases h
          · next hstatic =>
            split at h
            · cases h
            · cases h
              exact ⟨m, hfound, by simpa using hstatic, hloaded⟩
  · rintro ⟨m, hfound, hstatic, hloaded⟩
    have hnamed : (p.named? ref.owner).isNone = false := by
      cases hnone : p.named? ref.owner with
      | some _ => rfl
      | none =>
        rw [Lookup.found?, Lookup.runFrom, show (p.methodLookup ref).named? ref.owner = none from
          hnone] at hfound
        cases hfound
    unfold Program.routine
    rw [hnamed, if_neg Bool.false_ne_true, hfound]
    simp only [hloaded, hstatic, Bool.not_true, Bool.false_eq_true, if_false]

theorem methodLookup_found? :
    (p.methodLookup ref).found? (p.length + 1) ref.owner = (p.chain ref.owner).findSome? fun c =>
      (c.findMethod? ref.name ref.descriptor).map (c, ·) :=
  Lookup.found?_eq_findSome? (fun _ => rfl) _ _

end Machine

end ClassWasm
