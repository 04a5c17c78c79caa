/-
  Walks. A walk through code takes decisions: whether a conditional branch is taken, and which
  target of a switch. The flat program goes from position to position; a walk through a tree goes
  on inside and behind loops and blocks, leaves the nearest block that stops at the target of a
  branch forward, and restarts the nearest loop that starts at the target of a branch back. Both
  visit the same instructions (`treeVisits_eq_flatVisits`).
-/
import ClassWasm.Proofs.Region.Structured

namespace ClassWasm

/-! ## Decisions -/

/-- Where control goes from an instruction. -/
inductive Course where
  | stop
  | next
  | to (target : Nat)

/-- The course of the instruction at position `k` under a decision: a conditional branch is taken
on decision 0, and a switch takes the target with the number of the decision, or its default. -/
def course (instrs : Array Instruction) (decision k : Nat) : Course :=
  match instrs[k]? with
  | none => .stop
  | some i =>
    let go (delta : Int32) : Course :=
      match (OffsetTable.ofInstructions instrs).find? (i.absolute delta) with
      | some t => .to t
      | none => .stop
    match i.op with
    | .ret _ => .stop
    | .goto delta => go delta
    | .branch _ delta => if decision = 0 then go delta else .next
    | .tableSwitch default _ targets => go ((targets[decision]?).getD default)
    | .lookupSwitch default cases => go (((cases.map Prod.snd)[decision]?).getD default)
    | _ => .next

/-- Whether the instruction at position `k` uses up a decision. -/
def decides (instrs : Array Instruction) (k : Nat) : Bool :=
  match instrs[k]? with
  | some i => i.op.isConditional || i.op.isSwitch
  | none => false

/-- Something that stands at an instruction and can follow a course from there. -/
structure Walker (σ : Type) where
  index : σ → Nat
  follow : σ → Course → Option σ

/-- The instruction that a walk visits `n`-th, if it gets that far. -/
def Walker.visits {σ : Type} (w : Walker σ) (instrs : Array Instruction) (decisions : Nat → Nat)
    (s : Option σ) : Nat → Option Nat
  | 0 => s.map w.index
  | n + 1 =>
    match s with
    | none => none
    | some s =>
      let rest := if decides instrs (w.index s) then fun m => decisions (m + 1) else decisions
      w.visits instrs rest (w.follow s (course instrs (decisions 0) (w.index s))) n

/-! ## The two walks -/

/-- Positions `0` to `n - 1`, one behind the other. -/
def flat (n : Nat) : Walker Nat where
  index k := k
  follow k
    | .stop => none
    | .next => if k + 1 < n then some (k + 1) else none
    | .to t => if t < n then some t else none

def flatVisits (instrs : Array Instruction) (decisions : Nat → Nat) : Nat → Option Nat :=
  (flat instrs.size).visits instrs decisions (if 0 < instrs.size then some 0 else none)

/-- A loop or block that a walk is in, with the nodes behind it. -/
inductive Scope where
  | loop (start : Nat) (body rest : List Node)
  | block (stop : Nat) (rest : List Node)

def Scope.rest : Scope → List Node
  | loop _ _ rest | block _ rest => rest

/-- Where a walk through a tree stands: at an instruction, the nodes behind it, and the loops and
blocks around it, innermost first. A guard stands in its block, before the body. -/
structure Spot where
  index : Nat
  isGuard : Bool
  behind : List Node
  scopes : List Scope

namespace Spot

/-- The first instruction of nodes, or of what comes behind the scopes they end. -/
def settle (scopes : List Scope) : List Node → Option Spot
  | .op i :: ns => some ⟨i, false, ns, scopes⟩
  | .loop start _ body :: ns => settle (.loop start body ns :: scopes) body
  | .block start stop kind body :: ns =>
    if kind = .conditional then some ⟨start, true, body, .block stop ns :: scopes⟩
    else settle (.block stop ns :: scopes) body
  | [] =>
    match scopes with
    | [] => none
    | s :: scopes => settle scopes s.rest
termination_by ns => sizeOf ns + (scopes.map fun s => sizeOf s.rest).sum
decreasing_by
  all_goals simp_wf
  all_goals simp only [Scope.rest]
  all_goals omega

/-- Behind the nearest block that stops at `t`. -/
def leave (t : Nat) : List Scope → Option Spot
  | [] => none
  | .loop .. :: scopes => leave t scopes
  | .block stop rest :: scopes => if stop = t then settle scopes rest else leave t scopes

/-- In the nearest loop that starts at `t`, once more from its start. -/
def restart (t : Nat) : List Scope → Option Spot
  | [] => none
  | .block .. :: scopes => restart t scopes
  | .loop start body rest :: scopes =>
    if start = t then settle (.loop start body rest :: scopes) body else restart t scopes

/-- A guard that branches skips the body of its block. -/
def follow (s : Spot) : Course → Option Spot
  | .stop => none
  | .next => settle s.scopes s.behind
  | .to t =>
    match s.isGuard, s.scopes with
    | true, scope :: scopes => settle scopes scope.rest
    | _, scopes => if s.index < t then leave t scopes else restart t scopes

end Spot

def treeVisits (instrs : Array Instruction) (tree : List Node) (decisions : Nat → Nat) :
    Nat → Option Nat :=
  Walker.visits ⟨Spot.index, Spot.follow⟩ instrs decisions (Spot.settle [] tree)

/-! ## Walks step by step -/

/-- Two walkers that are at the same instructions, and stay so on the courses that code takes. -/
theorem Walker.visits_eq {σ τ : Type} {v : Walker σ} {w : Walker τ} {instrs : Array Instruction}
    {R : σ → τ → Prop} (hindex : ∀ s t, R s t → v.index s = w.index t)
    (hfollow : ∀ s t d, R s t → Option.Rel R (v.follow s (course instrs d (v.index s)))
      (w.follow t (course instrs d (v.index s))))
    {s : Option σ} {t : Option τ} (h : Option.Rel R s t) (decisions : Nat → Nat) (n : Nat) :
    v.visits instrs decisions s n = w.visits instrs decisions t n := by
  induction n generalizing s t decisions with
  | zero =>
    cases h with
    | none => rfl
    | some h => exact congrArg some (hindex _ _ h)
  | succ n ih =>
    cases h with
    | none => rfl
    | @some s t h =>
      have hnext := hfollow s t (decisions 0) h
      unfold visits
      dsimp only
      rw [← hindex s t h]
      exact ih hnext _

/-- The courses of an instruction: it goes on, stops, or takes one of its branches. -/
theorem course_cases {instrs : Array Instruction} (hasc : Ascending instrs) (d k : Nat) :
    course instrs d k = .stop ∨ course instrs d k = .next ∨
      ∃ t, course instrs d k = .to t ∧ LeadsTo instrs k t := by
  unfold course
  cases hi : instrs[k]? with
  | none => exact .inl rfl
  | some i =>
    dsimp only
    have hgo {delta : Int32} (hd : delta ∈ i.op.branches) :
        let c := match (OffsetTable.ofInstructions instrs).find? (i.absolute delta) with
          | some t => Course.to t
          | none => Course.stop
        c = .stop ∨ c = .next ∨ ∃ t, c = .to t ∧ LeadsTo instrs k t := by
      dsimp only
      split
      · next t ht =>
        exact .inr (.inr ⟨t, rfl, i, hi, delta, hd, (OffsetTable.find?_ofInstructions hasc).mp ht⟩)
      · exact .inl rfl
    -- A decision picks a case of a switch or, where there is none, the default.
    have hpick (default : Int32) (targets : List Int32) :
        (targets[d]?).getD default ∈ default :: targets := by
      cases ht : targets[d]? with
      | none => exact List.mem_cons_self
      | some t => exact List.mem_cons_of_mem _ (List.mem_of_getElem? ht)
    split
    · exact .inl rfl
    · next delta hop => exact hgo (by rw [hop]; exact List.mem_cons_self)
    · next delta hop =>
      split
      · exact hgo (by rw [hop]; exact List.mem_cons_self)
      · exact .inr (.inl rfl)
    · next default low targets hop => exact hgo (by rw [hop]; exact hpick default targets)
    · next default cases hop =>
      exact hgo (by rw [hop]; exact hpick default (cases.map Prod.snd))
    · exact .inr (.inl rfl)

/-! ## Where a walk through a tree stands -/

def Scope.mark : Scope → Mark
  | loop start _ _ => .restart start
  | block stop _ => .leave stop

/-- The scopes around nodes that end at `b`, each with structured nodes behind it. -/
def Enclosed (instrs : Array Instruction) : List Scope → Nat → Prop
  | [], b => b = instrs.size
  | s :: scopes, b =>
    (match s with
      | .block stop _ => stop = b
      | .loop start body _ =>
        Structured instrs (.restart start :: scopes.map Scope.mark) start b body) ∧
    ∃ e, Structured instrs (scopes.map Scope.mark) b e s.rest ∧ Enclosed instrs scopes e

theorem Enclosed.le {instrs : Array Instruction} {scopes : List Scope} {b : Nat}
    (h : Enclosed instrs scopes b) : b ≤ instrs.size := by
  induction scopes generalizing b with
  | nil => exact Nat.le_of_eq h
  | cons s scopes ih =>
    obtain ⟨-, e, hs, he⟩ := h
    exact hs.le.trans (ih he)

/-- The spot `s` is at position `k`, with the marks around it serving the branches there. -/
structure Stands (instrs : Array Instruction) (k : Nat) (s : Spot) : Prop where
  index : s.index = k
  behind : ∃ b, k < b ∧ Structured instrs (s.scopes.map Scope.mark) (k + 1) b s.behind ∧
    Enclosed instrs s.scopes b
  served : s.isGuard = false → ∀ t, LeadsTo instrs k t → Served (s.scopes.map Scope.mark) k t
  guard : s.isGuard = true → ∃ stop rest scopes, s.scopes = .block stop rest :: scopes ∧
    Guards instrs k stop

theorem Stands.lt_size {instrs : Array Instruction} {k : Nat} {s : Spot}
    (h : Stands instrs k s) : k < instrs.size := by
  obtain ⟨b, hk, -, he⟩ := h.behind
  exact hk.trans_le he.le

/-- A walk that settles at position `a` stands there, or `a` is the end of the code. -/
def SettlesAt (instrs : Array Instruction) (a : Nat) (s : Option Spot) : Prop :=
  if a < instrs.size then ∃ spot, s = some spot ∧ Stands instrs a spot else s = none

theorem settle_spec {instrs : Array Instruction} {scopes : List Scope} {ns : List Node} {a b : Nat}
    (h : Structured instrs (scopes.map Scope.mark) a b ns) (he : Enclosed instrs scopes b) :
    SettlesAt instrs a (Spot.settle scopes ns) := by
  have hb := he.le
  have hstands {k : Nat} {spot : Spot} (hs : Stands instrs k spot) :
      SettlesAt instrs k (some spot) := by
    unfold SettlesAt
    rw [if_pos hs.lt_size]
    exact ⟨spot, rfl, hs⟩
  fun_induction Spot.settle scopes ns generalizing a b with
  | case1 scopes i ns =>
    cases h with
    | op hserved hrest =>
      exact hstands ⟨rfl, ⟨b, hrest.le, hrest, he⟩, fun _ => hserved, fun h => nomatch h⟩
  | case2 scopes start stop body ns ih =>
    cases h with
    | loop hlt hbody hrest => exact ih hbody ⟨hbody, b, hrest, he⟩ (hrest.le.trans hb)
  | case3 scopes start stop body ns =>
    cases h with
    | block hk => exact absurd rfl hk
    | guarded hg hlt hbody hrest =>
      refine hstands ⟨rfl, ⟨stop, hlt, hbody, rfl, b, hrest, he⟩, fun h => ?_, fun _ => ?_⟩
      · cases h
      · exact ⟨stop, ns, scopes, rfl, hg⟩
  | case4 scopes start stop kind body ns hk ih =>
    cases h with
    | block _ hlt hbody hrest => exact ih hbody ⟨rfl, b, hrest, he⟩ (hrest.le.trans hb)
    | guarded => exact absurd rfl hk
  | case5 =>
    cases h
    obtain rfl := he
    unfold SettlesAt
    rw [if_neg (Nat.lt_irrefl _)]
  | case6 s scopes ih =>
    cases h
    obtain ⟨-, e, hrest, he⟩ := he
    exact ih hrest he he.le

theorem leave_spec {instrs : Array Instruction} {scopes : List Scope} {b t : Nat}
    (he : Enclosed instrs scopes b) (ht : .leave t ∈ scopes.map Scope.mark) :
    SettlesAt instrs t (Spot.leave t scopes) := by
  induction scopes generalizing b with
  | nil => cases ht
  | cons s scopes ih =>
    obtain ⟨hs, e, hrest, he⟩ := he
    cases s with
    | loop start body rest =>
      rcases List.mem_cons.mp ht with h | ht
      · cases h
      · exact ih he ht
    | block stop rest =>
      unfold Spot.leave
      split
      · next hstop =>
        subst hstop
        obtain rfl := hs
        exact settle_spec hrest he
      · next hstop =>
        rcases List.mem_cons.mp ht with h | ht
        · cases h
          exact absurd rfl hstop
        · exact ih he ht

theorem restart_spec {instrs : Array Instruction} {scopes : List Scope} {b t : Nat}
    (he : Enclosed instrs scopes b) (ht : .restart t ∈ scopes.map Scope.mark) :
    SettlesAt instrs t (Spot.restart t scopes) := by
  induction scopes generalizing b with
  | nil => cases ht
  | cons s scopes ih =>
    have henclosed := he
    obtain ⟨hs, e, hrest, he⟩ := he
    cases s with
    | block stop rest =>
      rcases List.mem_cons.mp ht with h | ht
      · cases h
      · exact ih he ht
    | loop start body rest =>
      unfold Spot.restart
      split
      · next hstart =>
        subst hstart
        exact settle_spec hs henclosed
      · next hstart =>
        rcases List.mem_cons.mp ht with h | ht
        · cases h
          exact absurd rfl hstart
        · exact ih he ht

theorem SettlesAt.rel {instrs : Array Instruction} {a : Nat} {s : Option Spot}
    (h : SettlesAt instrs a s) :
    Option.Rel (Stands instrs) (if a < instrs.size then some a else none) s := by
  unfold SettlesAt at h
  split at h
  · next hlt =>
    obtain ⟨spot, rfl, hs⟩ := h
    rw [if_pos hlt]
    exact .some hs
  · next hlt =>
    rw [h, if_neg hlt]
    exact .none

/-- A guard has no branch but the one over its block. -/
theorem Guards.unique {instrs : Array Instruction} (hasc : Ascending instrs) {k e t : Nat}
    (h : Guards instrs k e) (ht : LeadsTo instrs k t) : t = e := by
  obtain ⟨he, i, hi, hc⟩ := h
  obtain ⟨d, hd, hst⟩ := (Region.leadsTo_iff hi).mp ht
  obtain ⟨d', hd', hse⟩ := (Region.leadsTo_iff hi).mp he
  unfold Operation.isConditional at hc
  split at hc
  · next hop =>
    rw [hop, Operation.branches, List.mem_singleton] at hd hd'
    subst hd hd'
    exact hst.unique hasc hse
  · cases hc

theorem Stands.follow {instrs : Array Instruction} (hasc : Ascending instrs) {k : Nat} {s : Spot}
    (h : Stands instrs k s) (d : Nat) :
    Option.Rel (Stands instrs) ((flat instrs.size).follow k (course instrs d k))
      (s.follow (course instrs d k)) := by
  obtain ⟨b, hlt, hbehind, hencl⟩ := h.behind
  rcases course_cases hasc d k with hc | hc | ⟨t, hc, ht⟩
  · rw [hc]
    exact .none
  · rw [hc]
    exact (settle_spec hbehind hencl).rel
  · rw [hc]
    refine SettlesAt.rel ?_
    unfold Spot.follow
    cases hg : s.isGuard with
    | true =>
      obtain ⟨stop, rest, scopes, hscopes, hguards⟩ := h.guard hg
      obtain rfl := hguards.unique hasc ht
      rw [hscopes] at hencl ⊢
      obtain ⟨rfl, e, hrest, he⟩ := hencl
      exact settle_spec hrest he
    | false =>
      have hserved := h.served hg t ht
      dsimp only
      rw [h.index]
      unfold Served at hserved
      split at hserved
      · next hkt =>
        rw [if_pos hkt]
        exact leave_spec hencl hserved
      · next hkt =>
        rw [if_neg hkt]
        exact restart_spec hencl hserved

/-- For every sequence of decisions the walk through the tree of decoded instructions visits the
instructions that the flat program visits. -/
theorem treeVisits_eq_flatVisits {pool : Pool} {code : Bytes} {instrs : Array Instruction}
    {tree : List Node} (hd : decode pool code = .ok instrs) (hs : structureOf instrs = .ok tree)
    (decisions : Nat → Nat) : treeVisits instrs tree decisions = flatVisits instrs decisions := by
  have hasc := ascending_of_decode hd
  have hstart : SettlesAt instrs 0 (Spot.settle [] tree) :=
    settle_spec (structureOf_structured hasc hs).1 rfl
  funext n
  refine (Walker.visits_eq (R := Stands instrs) (fun k s h => h.index.symm) ?_ hstart.rel
    decisions n).symm
  exact fun k s d h => h.follow hasc d

/-- Once around the loop, out of it, and to the default of the switch. -/
theorem treeVisits_sample :
    decode ⟨#[]⟩ sampleCode = .ok sampleInstrs ∧ structureOf sampleInstrs = .ok sampleTree ∧
      (List.range 9).map (treeVisits sampleInstrs sampleTree fun n => if n = 0 then 1 else n - 1) =
        [some 0, some 1, some 2, some 0, some 1, some 3, some 4, some 7, some 8] := by
  refine ⟨decode_sampleCode, structureOf_sampleInstrs, ?_⟩
  rw [treeVisits_eq_flatVisits decode_sampleCode structureOf_sampleInstrs]
  decide +kernel

end ClassWasm
