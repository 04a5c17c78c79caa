/-
  Runs of the code of branches, switches and guards. A switch over listed keys goes where the first
  case of its key leads, except that over close keys it becomes a table, which goes where the last
  one does (`run_spanTarget`).
-/
import ClassWasm.Proofs.Lowering.StraightRuns
import ClassWasm.Proofs.Lowering.Validity

namespace ClassWasm.Lowering

open Wasm (Plain Val Config IntBinary IntCompare runPlain runPlain_append runPlain_cons)

variable {L : Locals} {c : Config} {rest : List Val}

/-! ## Tables -/

/-- The difference of a key and the least key, as a number without sign. -/
theorem toNat_rebased (key low : Int32) :
    (0 ≤ key.toInt - low.toInt → (key - low).toBitVec.toNat = (key.toInt - low.toInt).toNat) ∧
      (key.toInt - low.toInt < 0 → 2 ^ 31 - low.toInt ≤ (key - low).toBitVec.toNat) := by
  have hkey : key.toInt = key.toBitVec.toInt := rfl
  have hlow : low.toInt = low.toBitVec.toInt := rfl
  rw [hkey, hlow, Int32.toBitVec_sub, BitVec.toNat_sub, BitVec.toInt_eq_toNat_cond,
    BitVec.toInt_eq_toNat_cond]
  have := key.toBitVec.isLt
  have := low.toBitVec.isLt
  split <;> split <;> omega

theorem run_rebase (low key : Int32) {locals globals : List Val} :
    runPlain (rebase low) ⟨.i32 key.toBitVec :: rest, locals, globals⟩ =
      some (.next, ⟨.i32 (key - low).toBitVec :: rest, locals, globals⟩) := by
  unfold rebase
  split
  · next h =>
    rw [h, Int32.sub_zero]
    rfl
  · rfl

/-- A table of branches, from the least key on. -/
theorem run_table (low key : Int32) (ds : List UInt32) (d : UInt32)
    (hc : c.stack = .i32 key.toBitVec :: rest) :
    runPlain (rebase low ++ [Plain.brTable ds d]) c =
      some (.br ((ds[(key - low).toBitVec.toNat]?).getD d).toNat, { c with stack := rest }) := by
  obtain ⟨stack, locals, globals⟩ := c
  obtain rfl := hc
  rw [runPlain_append (run_rebase low key)]
  rfl

theorem tableTarget_rel {R : Int32 → UInt32 → Prop} {default low : Int32} {ts : List Int32}
    {ds : List UInt32} {d : UInt32} (hwf : low.toInt + ts.length ≤ 2 ^ 31)
    (hts : List.Forall₂ R ts ds) (hd : R default d) (key : Int32) :
    R (Machine.tableTarget default low ts key) ((ds[(key - low).toBitVec.toNat]?).getD d) := by
  obtain ⟨habove, hbelow⟩ := toNat_rebased key low
  have hlen := hts.length_eq
  unfold Machine.tableTarget
  dsimp only
  split
  · next hneg =>
    have := hbelow hneg
    rw [List.getElem?_eq_none (by omega)]
    exact hd
  · next hpos =>
    rw [habove (by omega)]
    by_cases hlt : (key.toInt - low.toInt).toNat < ts.length
    · rw [List.getElem?_eq_getElem hlt, List.getElem?_eq_getElem (hlen ▸ hlt)]
      exact hts.get hlt (hlen ▸ hlt)
    · rw [List.getElem?_eq_none (by omega), List.getElem?_eq_none (by omega)]
      exact hd

/-! ## Sparse keys -/

theorem lookup_rel {α β : Type} {R : α → β → Prop} {xs : List (Int32 × α)} {ys : List (Int32 × β)}
    (h : List.Forall₂ (fun x y => x.1 = y.1 ∧ R x.2 y.2) xs ys) {a : α} {b : β} (hab : R a b)
    (key : Int32) : R ((xs.lookup key).getD a) ((ys.lookup key).getD b) := by
  induction h with
  | nil => exact hab
  | @cons x y xs ys hxy _ ih =>
    obtain ⟨k, x⟩ := x
    obtain ⟨k', y⟩ := y
    obtain ⟨rfl, hxy⟩ : k = k' ∧ R x y := hxy
    rw [List.lookup_cons, List.lookup_cons]
    cases key == k with
    | true => exact hxy
    | false => exact ih

/-- The distance of a key from the least key has 32 bits, and wraps around from 2^31 on. -/
theorem toInt_distance {key low : Int32} (h : low.toInt ≤ key.toInt) :
    (key.toInt - low.toInt < 2 ^ 31 → (key - low).toInt = key.toInt - low.toInt) ∧
      (2 ^ 31 ≤ key.toInt - low.toInt → (key - low).toInt < 0) := by
  have := key.toInt_lt
  have := low.le_toInt
  rw [Int32.toInt_sub, Int.bmod_def]
  constructor <;> intro hdistance <;> split <;> omega

/-- No index wraps around where every key is closer than that to the least one. -/
theorem wrapped?_eq_none_iff {low : Int32} {keys : List Int32}
    (hlow : ∀ key ∈ keys, low.toInt ≤ key.toInt) :
    wrapped? low keys = none ↔ ∀ key ∈ keys, key.toInt - low.toInt < 2 ^ 31 := by
  unfold wrapped?
  rw [List.find?_eq_none, List.forall_mem_map]
  refine forall₂_congr fun key hkey => ?_
  obtain ⟨hclose, hfar⟩ := toInt_distance (hlow key hkey)
  have := hlow key hkey
  rw [decide_eq_true_eq]
  omega

/-- Of equal keys, the last one fills the table. -/
theorem denseTable_get {low : Int32} {cases : List (Int32 × UInt32)}
    (hlow : ∀ e ∈ cases, low.toInt ≤ e.1.toInt)
    (hclose : ∀ e ∈ cases, e.1.toInt - low.toInt < 2 ^ 31) (default : UInt32) {span : Nat}
    {key : Int32}
    (hkey : low.toInt ≤ key.toInt) (hspan : (key.toInt - low.toInt).toNat < span) :
    (denseTable low span default cases)[(key.toInt - low.toInt).toNat]? =
      some ((cases.reverse.lookup key).getD default) := by
  induction cases using List.reverseRecOn with
  | nil => simp [denseTable, hspan]
  | append_singleton cases e ih =>
    obtain ⟨k, d⟩ := e
    have hk : low.toInt ≤ k.toInt := hlow (k, d) (by simp)
    have hrest := ih (fun e he => hlow e (List.mem_append_left _ he))
      fun e he => hclose e (List.mem_append_left _ he)
    have hsize := length_denseTable low span default cases
    have hstep : denseTable low span default (cases ++ [(k, d)]) =
        (denseTable low span default cases).set (k.toInt - low.toInt).toNat d := by
      rw [← (toInt_distance hk).1 (hclose (k, d) (by simp))]
      simp [denseTable]
    rw [hstep, List.reverse_append, List.reverse_singleton, List.singleton_append, List.lookup_cons]
    by_cases he : key = k
    · subst he
      rw [List.getElem?_set_self (by omega)]
      simp
    · have hne : (k.toInt - low.toInt).toNat ≠ (key.toInt - low.toInt).toNat := by
        have : key.toInt ≠ k.toInt := fun h => he (Int32.toInt_inj.mp h)
        omega
      rw [List.getElem?_set_ne hne, hrest, beq_eq_false_iff_ne.mpr he]

/-- What every item of a fold is on one side of. -/
theorem foldl_bound {α : Type} {f : α → α → α} {R : α → α → Prop} (hrefl : ∀ a, R a a)
    (htrans : ∀ a b c, R a b → R b c → R a c) (hleft : ∀ a b, R (f a b) a)
    (hright : ∀ a b, R (f a b) b) (k : α) (ks : List α) : ∀ j ∈ k :: ks, R (ks.foldl f k) j := by
  induction ks generalizing k with
  | nil =>
    intro j hj
    rw [List.mem_singleton.mp hj]
    exact hrefl k
  | cons i ks ih =>
    have hfirst := ih (f k i) (f k i) List.mem_cons_self
    intro j hj
    rcases List.mem_cons.mp hj with rfl | hj
    · exact htrans _ _ _ hfirst (hleft j i)
    · rcases List.mem_cons.mp hj with rfl | hj
      · exact htrans _ _ _ hfirst (hright k j)
      · exact ih (f k i) j (List.mem_cons_of_mem _ hj)

theorem foldl_min_le (k : Int32) (ks : List Int32) :
    ∀ j ∈ k :: ks, (ks.foldl min k).toInt ≤ j.toInt := by
  have hmin (a b : Int32) : (min a b).toInt ≤ a.toInt ∧ (min a b).toInt ≤ b.toInt := by
    change (if a ≤ b then a else b).toInt ≤ _ ∧ (if a ≤ b then a else b).toInt ≤ _
    simp only [Int32.le_iff_toInt_le]
    split <;> omega
  exact foldl_bound (R := fun a b => a.toInt ≤ b.toInt) (fun a => Int.le_refl _)
    (fun a b c => Int.le_trans) (fun a b => (hmin a b).1) (fun a b => (hmin a b).2) k ks

theorem le_foldl_max (k : Int32) (ks : List Int32) :
    ∀ j ∈ k :: ks, j.toInt ≤ (ks.foldl max k).toInt := by
  have hmax (a b : Int32) : a.toInt ≤ (max a b).toInt ∧ b.toInt ≤ (max a b).toInt := by
    change _ ≤ (if a ≤ b then b else a).toInt ∧ _ ≤ (if a ≤ b then b else a).toInt
    simp only [Int32.le_iff_toInt_le]
    split <;> omega
  exact foldl_bound (R := fun a b => b.toInt ≤ a.toInt) (fun a => Int.le_refl _)
    (fun a b c hab hbc => Int.le_trans hbc hab) (fun a b => (hmax a b).1) (fun a b => (hmax a b).2)
    k ks

/-- Comparisons one after the other find the first case. -/
theorem run_chain {key default : UInt32} {k : Int32} {locals globals : List Val}
    (hkey : locals[key.toNat]? = some (.i32 k.toBitVec)) (cases : List (Int32 × UInt32)) :
    runPlain (cases.flatMap (fun (v, d) =>
        [Plain.localGet key, .i32Const v, .intCompare .w32 .eq, .brIf d]) ++ [Plain.br default])
      ⟨rest, locals, globals⟩ =
      some (.br ((cases.lookup k).getD default).toNat, ⟨rest, locals, globals⟩) := by
  induction cases with
  | nil => rfl
  | cons e cases ih =>
    obtain ⟨v, d⟩ := e
    have heq : k.toBitVec = v.toBitVec ↔ k = v := Int32.toBitVec_inj
    rw [List.flatMap_cons, List.append_assoc, List.lookup_cons]
    simp only [List.cons_append, List.nil_append, runPlain, Plain.run?_localGet,
      Plain.run?_i32Const, Plain.run?_intCompare32, Plain.run?_brIf, hkey, Option.bind_some,
      Config.next, IntCompare.eval, heq, Val.ofBool]
    by_cases hk : k = v
    · simp [hk]
    · simp only [hk, decide_false, Bool.false_eq_true, if_false, if_true, beq_eq_false_iff_ne.mpr hk]
      exact ih

/-- The keys of a switch lie so close that it becomes a table. -/
def Dense (maxSpan : Int) (cases : List (Int32 × Int32)) : Prop :=
  ∀ a ∈ cases, ∀ b ∈ cases, b.1.toInt - a.1.toInt < maxSpan

instance (maxSpan : Int) (cases : List (Int32 × Int32)) : Decidable (Dense maxSpan cases) :=
  inferInstanceAs (Decidable (∀ a ∈ cases, ∀ b ∈ cases, b.1.toInt - a.1.toInt < maxSpan))

/-- It is the distance of the greatest key from the least one that decides. -/
theorem span_le_iff (maxSpan : Int) {cases : List (Int32 × Int32)} {k : Int32} {ks : List Int32}
    (h : cases.map Prod.fst = k :: ks) :
    (ks.foldl max k).toInt - (ks.foldl min k).toInt + 1 ≤ maxSpan ↔ Dense maxSpan cases := by
  constructor
  · intro hspan a ha b hb
    have := foldl_min_le k ks a.1 (h ▸ List.mem_map_of_mem ha)
    have := le_foldl_max k ks b.1 (h ▸ List.mem_map_of_mem hb)
    omega
  · intro hdense
    have hlow : ks.foldl min k ∈ cases.map Prod.fst := h ▸ foldl_mem Std.MinEqOr.min_eq_or k ks
    have hhigh : ks.foldl max k ∈ cases.map Prod.fst := h ▸ foldl_mem int32_max_eq_or k ks
    obtain ⟨a, ha, halow⟩ := List.mem_map.mp hlow
    obtain ⟨b, hb, hbhigh⟩ := List.mem_map.mp hhigh
    have hbound := hdense a ha b hb
    rw [halow, hbhigh] at hbound
    omega

/-- The table of a switch stays within indices of 32 bits. -/
theorem wrapped?_eq_none_iff_dense {cases : List (Int32 × Int32)} {k : Int32} {ks : List Int32}
    (h : cases.map Prod.fst = k :: ks) :
    wrapped? (ks.foldl min k) (k :: ks) = none ↔ Dense (2 ^ 31) cases := by
  rw [wrapped?_eq_none_iff (foldl_min_le k ks), ← span_le_iff _ h]
  constructor
  · intro hclose
    have := hclose _ (foldl_mem int32_max_eq_or k ks)
    omega
  · intro hspan key hkey
    have := le_foldl_max k ks key hkey
    omega

/-- Where the code of a switch over listed keys goes: where the last case of the key leads if the
switch becomes a table, else where the first does. -/
def spanTarget (maxSpan : Int) (default : Int32) (cases : List (Int32 × Int32)) (key : Int32) :
    Int32 :=
  if Dense maxSpan cases then (cases.reverse.lookup key).getD default
  else Machine.lookupTarget default cases key

theorem spanTarget_eq {maxSpan : Int} {cases : List (Int32 × Int32)} {key : Int32}
    (honce : Dense maxSpan cases → cases.lookup key = cases.reverse.lookup key) (default : Int32) :
    spanTarget maxSpan default cases key = Machine.lookupTarget default cases key := by
  unfold spanTarget
  split
  · next hdense => rw [Machine.lookupTarget, honce hdense]
  · rfl

theorem spanTarget_mem (maxSpan : Int) (default : Int32) (cases : List (Int32 × Int32)) (key : Int32) :
    spanTarget maxSpan default cases key ∈ default :: cases.map Prod.snd := by
  unfold spanTarget
  split
  · have hmem := Machine.lookupTarget_mem default cases.reverse key
    rw [List.map_reverse, List.mem_cons, List.mem_reverse, ← List.mem_cons] at hmem
    exact hmem
  · exact Machine.lookupTarget_mem default cases key

/-- The entry of a table for a key, which is the default outside the table. -/
theorem denseTable_getD {low high : Int32} {cases : List (Int32 × UInt32)}
    (hlow : ∀ e ∈ cases, low.toInt ≤ e.1.toInt) (hhigh : ∀ e ∈ cases, e.1.toInt ≤ high.toInt)
    (hclose : ∀ e ∈ cases, e.1.toInt - low.toInt < 2 ^ 31) (default : UInt32) (key : Int32) :
    ((denseTable low (high.toInt - low.toInt + 1).toNat default cases)[(key -
      low).toBitVec.toNat]?).getD default = (cases.reverse.lookup key).getD default := by
  obtain ⟨habove, hbelow⟩ := toNat_rebased key low
  by_cases hin : low.toInt ≤ key.toInt ∧ key.toInt ≤ high.toInt
  · rw [habove (by omega), denseTable_get hlow hclose default hin.1 (by omega), Option.getD_some]
  · have hlength := length_denseTable low (high.toInt - low.toInt + 1).toNat default cases
    have hbound := high.toInt_lt
    have hnone : cases.reverse.lookup key = none := by
      rw [List.lookup_eq_none_iff]
      intro e he
      have := hlow e (List.mem_reverse.mp he)
      have := hhigh e (List.mem_reverse.mp he)
      have hne : key ≠ e.1 := by
        rintro rfl
        exact hin ⟨‹_›, ‹_›⟩
      simpa using hne
    rw [hnone, List.getElem?_eq_none (by omega)]

/-- A switch over listed keys takes its key and goes where `spanTarget` says. -/
theorem run_spanTarget (hL : L.Sound) {R : Int32 → UInt32 → Prop} {maxSpan : Int} {default : Int32}
    {d : UInt32} {cases : List (Int32 × Int32)} {ds : List UInt32} {ps : List Plain}
    (hps : LookupCode L maxSpan d ((cases.map Prod.fst).zip ds) ps)
    (hds : List.Forall₂ (fun c d => R c.2 d) cases ds) (hd : R default d) {key : Int32}
    (hsize : c.locals.length = L.types.size) (hc : c.stack = .i32 key.toBitVec :: rest) :
    ∃ d' c', runPlain ps c = some (.br d'.toNat, c') ∧
      R (spanTarget maxSpan default cases key) d' ∧ c'.stack = rest ∧ Keeps L c c' := by
  have hcs : List.Forall₂ (fun x y => x.1 = y.1 ∧ R x.2 y.2) cases ((cases.map Prod.fst).zip ds) := by
    clear hps
    induction hds with
    | nil => exact .nil
    | cons h _ ih => exact .cons ⟨rfl, h⟩ ih
  have hkeys : ((cases.map Prod.fst).zip ds).map Prod.fst = cases.map Prod.fst := by
    rw [List.map_fst_zip]
    rw [List.length_map, hds.length_eq]
  generalize (cases.map Prod.fst).zip ds = cs at hcs hkeys hps
  have hfirst := lookup_rel hcs hd key
  have hlast := lookup_rel (List.forall₂_reverse_iff.mpr hcs) hd key
  unfold spanTarget
  unfold LookupCode at hps
  split at hps
  · next hnil =>
    obtain rfl := hps
    obtain rfl : cases = [] := by simpa [hkeys] using hnil
    obtain ⟨stack, locals, globals⟩ := c
    obtain rfl := hc
    exact ⟨d, ⟨rest, locals, globals⟩, rfl, by split <;> exact hd, rfl, .refl _ _⟩
  · next k ks hcons =>
    have hlow := foldl_min_le k ks
    have hhigh := le_foldl_max k ks
    have hiff : _ ≤ maxSpan ↔ _ := span_le_iff _ (hkeys.symm.trans hcons)
    rw [← hcons] at hlow hhigh
    dsimp only at hps
    generalize ks.foldl min k = low at hps hlow hiff
    generalize ks.foldl max k = high at hps hhigh hiff
    split at hps
    · next hspan =>
      obtain ⟨hin, rfl⟩ := hps
      rw [← hcons, wrapped?_eq_none_iff hlow] at hin
      refine ⟨_, _, run_table low key _ d hc, ?_, rfl, .refl c rest⟩
      rw [if_pos (hiff.mp hspan), denseTable_getD (fun e he => hlow e.1 (List.mem_map_of_mem he))
        (fun e he => hhigh e.1 (List.mem_map_of_mem he))
        (fun e he => hin e.1 (List.mem_map_of_mem he))]
      exact hlast
    · next hspan =>
      obtain ⟨l, hl, rfl⟩ := hps
      have hlt : l.toNat < c.locals.length := by
        rw [hsize]
        exact Locals.lt_size_of_type (hl.type hL)
      have hset := run_localSet hc hlt
      have hget : (c.locals.set l.toNat (.i32 key.toBitVec))[l.toNat]? = some (.i32 key.toBitVec) :=
        List.getElem?_set_self hlt
      rw [if_neg fun hdense => hspan (hiff.mpr hdense)]
      refine ⟨_, _, ?_, hfirst, rfl, .set (hl.slots hL) rest (.i32 key.toBitVec)⟩
      rw [comparisonChain, List.cons_append, runPlain_cons hset]
      exact run_chain hget cs

/-! ## Branches -/

/-- What a branch to a construct takes along: a loop finds it in its locals, a block on the stack. -/
def Label.Carries (vs : List Value) (c : Config) : Label → Prop
  | loop _ ls => Stored c.locals ls vs.reverse
  | block _ => c.stack = vs.map Value.toVal

/-- A construct can be branched to with values of these kinds. -/
def Label.Accepts (L : Locals) (ks : List Kind) : Label → Prop
  | loop _ ls => Spilled L ls ks.reverse
  | block _ => True

theorem run_jump {l : Label} {vs : List Value} (hl : l.Accepts L (vs.map Value.kind)) (d : UInt32)
    (hsize : c.locals.length = L.types.size) (hc : c.stack = vs.map Value.toVal) :
    ∃ c', runPlain (spillCode l.spilled ++ [.br d]) c = some (.br d.toNat, c') ∧ l.Carries vs c' ∧
      Keeps L c c' := by
  cases l with
  | block stop => exact ⟨c, rfl, hc, .refl c c.stack⟩
  | loop start ls =>
    have hlen : ls.length = vs.length := by
      rw [hl.each.length_eq, List.length_reverse, List.length_map]
    obtain ⟨c', hrun, -, hkeeps, hstored, -⟩ := run_spill hl.toHolds hsize hlen
      (hc.trans (List.append_nil _).symm)
    exact ⟨c', runPlain_append hrun, hstored, hkeeps⟩

/-- The values below a flag go into locals, past the flag. -/
theorem run_pastFlag (hL : L.Sound) {flag : UInt32} (hflag : L.IsTemp .i32 0 flag.toNat)
    {ls : List UInt32} {vs : List Value} (hls : Spilled L ls (vs.map Value.kind).reverse) {v : Val}
    (hsize : c.locals.length = L.types.size) (hc : c.stack = v :: vs.map Value.toVal) :
    ∃ c', runPlain ((Plain.localSet flag :: spillCode ls) ++ [Plain.localGet flag]) c =
        some (.next, c') ∧
      c'.stack = [v] ∧ Stored c'.locals ls vs.reverse ∧ Keeps L c c' := by
  have hlt : flag.toNat < c.locals.length := by
    rw [hsize]
    exact Locals.lt_size_of_type (hflag.type hL)
  have hlen : ls.length = vs.length := by
    rw [hls.each.length_eq, List.length_reverse, List.length_map]
  have hset := run_localSet hc hlt
  obtain ⟨c', hrun, hstack, hkeeps, hstored, hothers⟩ := run_spill hls.toHolds
    (c := { c with stack := vs.map Value.toVal, locals := c.locals.set flag.toNat v })
    (by simpa using hsize) hlen (List.append_nil _).symm
  have hget : c'.locals[flag.toNat]? = some v := by
    rw [hothers _ fun l hl he => hls.scratch l hl _ hflag.mem he.symm]
    exact List.getElem?_set_self hlt
  refine ⟨{ c' with stack := [v] }, ?_, rfl, hstored, ?_⟩
  · rw [List.cons_append, runPlain_cons hset, runPlain_append hrun, runPlain_cons (run_localGet hget),
      hstack]
    rfl
  · exact ((Keeps.set (hflag.slots hL) _ v).trans hkeeps).trans (.refl c' [v])

theorem run_brIf {d : UInt32} {v : BitVec 32} (hc : c.stack = .i32 v :: rest) (ps : List Plain) :
    runPlain (.brIf d :: ps) c = if v = 0 then runPlain ps { c with stack := rest }
      else some (.br d.toNat, { c with stack := rest }) := by
  obtain ⟨stack, locals, globals⟩ := c
  obtain rfl := hc
  by_cases hv : v = 0
  · simp only [runPlain, Plain.run?_brIf, hv, if_true]
  · simp only [runPlain, Plain.run?_brIf, hv, if_false]

theorem run_branchIf (hL : L.Sound) {cond : Condition} {d : UInt32} {l : Label} {ps : List Plain}
    (hps : BranchCode L cond d l ps) {vs : List Value} {ks : List Kind}
    (hks : vs.map Value.kind = StackTyping.conditionOperands cond ++ ks) (hl : l.Accepts L ks)
    (hsize : c.locals.length = L.types.size) (hc : c.stack = vs.map Value.toVal)
    {vs' : List Value} (hvs : vs' = vs.drop (StackTyping.conditionOperands cond).length) :
    ∃ c', Keeps L c c' ∧ if cond.test vs then
        runPlain ps c = some (.br d.toNat, c') ∧ l.Carries vs' c'
      else runPlain ps c = some (.next, c') ∧ c'.stack = vs'.map Value.toVal := by
  obtain ⟨v, ⟨c₁, hrun, hstack, hkeeps⟩, hv⟩ := leaves_test (L := L) hks hc
  rw [← hvs] at hstack
  have hks' : vs'.map Value.kind = ks := by
    rw [hvs, List.map_drop, hks, List.drop_left]
  have hsize₁ : c₁.locals.length = L.types.size := hkeeps.length.trans hsize
  unfold BranchCode at hps
  split at hps
  · next hnil =>
    obtain rfl := hps
    have hcarries : l.Carries vs' { c₁ with stack := vs'.map Value.toVal } := by
      cases l with
      | block stop => rfl
      | loop start ls =>
        obtain rfl : ls = [] := hnil
        have hlen := hl.each.length_eq
        rw [List.length_reverse, ← hks', List.length_map] at hlen
        obtain rfl : vs' = [] := List.eq_nil_of_length_eq_zero hlen.symm
        exact .nil
    refine ⟨{ c₁ with stack := vs'.map Value.toVal }, hkeeps.trans (.refl c₁ _), ?_⟩
    rw [runPlain_append hrun, run_brIf hstack]
    cases ht : cond.test vs with
    | true =>
      rw [if_pos rfl, if_neg fun h => Bool.noConfusion ((hv.mp h).symm.trans ht)]
      exact ⟨rfl, hcarries⟩
    | false =>
      rw [if_neg Bool.false_ne_true, if_pos (hv.mpr ht)]
      exact ⟨rfl, rfl⟩
  · next hne =>
    obtain ⟨flag, hflag, rfl⟩ := hps
    cases l with
    | block stop => exact absurd rfl hne
    | loop start ls =>
      rw [← hks'] at hl
      obtain ⟨c₂, hrun₂, hstack₂, hstored, hkeeps₂⟩ := run_pastFlag hL hflag hl hsize₁ hstack
      have hreload := run_reload (c := { c₂ with stack := [] }) hstored
      refine ⟨{ c₂ with stack := if cond.test vs then [] else vs'.map Value.toVal },
        (hkeeps.trans hkeeps₂).trans (.refl c₂ _), ?_⟩
      have hcode (ps qs rs : List Plain) :
          ps ++ Plain.localSet flag :: qs ++ [Plain.localGet flag, Plain.brIf d] ++ rs =
            ps ++ (((Plain.localSet flag :: qs) ++ [Plain.localGet flag]) ++ (Plain.brIf d :: rs)) := by
        simp
      rw [Label.spilled, hcode, runPlain_append hrun, runPlain_append hrun₂, run_brIf hstack₂, hreload]
      cases ht : cond.test vs with
      | true =>
        rw [if_pos rfl, if_neg fun h => Bool.noConfusion ((hv.mp h).symm.trans ht)]
        exact ⟨rfl, hstored⟩
      | false =>
        rw [if_neg Bool.false_ne_true, if_pos (hv.mpr ht)]
        simp

/-! ## Guards -/

theorem test_negate {cond : Condition} {vs : List Value} {ks : List Kind}
    (hks : vs.map Value.kind = StackTyping.conditionOperands cond ++ ks) :
    (negateCondition cond).test vs = !cond.test vs := by
  have hholds (r : Relation) (a b : Int32) : r.negate.holds a b = !r.holds a b := by
    cases r <;> rw [Relation.negate, Relation.holds, Relation.holds, ← decide_not, decide_eq_decide]
    · exact not_not.symm
    · exact Int32.not_lt.symm
    · exact Int32.not_le.symm
    · exact Int32.not_lt.symm
    · exact Int32.not_le.symm
  cases cond with
  | isNull | isNonNull => rfl
  | zero r =>
    obtain ⟨v, vs, rfl, -⟩ := List.map_eq_cons_iff.mp hks
    exact hholds r _ _
  | compare r =>
    obtain ⟨w, vs, rfl, -, hks⟩ := List.map_eq_cons_iff.mp hks
    obtain ⟨v, vs, rfl, -⟩ := List.map_eq_cons_iff.mp hks
    exact hholds r _ _

/-- A guard leaves a flag that is zero where its branch is taken, and everything else in locals. -/
theorem run_guard (hL : L.Sound) {cond : Condition} {ps : List Plain} {vs : List Value}
    {ks : List Kind} (hks : vs.map Value.kind = StackTyping.conditionOperands cond ++ ks)
    {ls : List UInt32} (hls : Spilled L ls ks.reverse) (hps : GuardCode L ks.reverse ls ps)
    (hsize : c.locals.length = L.types.size) (hc : c.stack = vs.map Value.toVal)
    {vs' : List Value} (hvs : vs' = vs.drop (StackTyping.conditionOperands cond).length) :
    ∃ v c', runPlain (condition (negateCondition cond) ++ ps) c = some (.next, c') ∧
      c'.stack = [.i32 v] ∧ (v = 0 ↔ cond.test vs = true) ∧ Stored c'.locals ls vs'.reverse ∧
      Keeps L c c' := by
  have hoperands : StackTyping.conditionOperands (negateCondition cond) =
      StackTyping.conditionOperands cond := by
    cases cond <;> rfl
  obtain ⟨v, ⟨c₁, hrun, hstack, hkeeps⟩, hv⟩ := leaves_test (L := L) (hoperands ▸ hks) hc
  rw [hoperands, ← hvs] at hstack
  rw [test_negate hks, Bool.not_eq_false'] at hv
  have hks' : vs'.map Value.kind = ks := by
    rw [hvs, List.map_drop, hks, List.drop_left]
  unfold GuardCode at hps
  split at hps
  · next hnil =>
    obtain rfl := hps
    obtain rfl : ks = [] := List.reverse_eq_nil_iff.mp hnil
    obtain rfl : vs' = [] := List.map_eq_nil_iff.mp hks'
    obtain rfl : ls = [] := List.eq_nil_of_length_eq_zero hls.each.length_eq
    rw [List.append_nil]
    exact ⟨v, c₁, hrun, hstack, hv, .nil, hkeeps⟩
  · obtain ⟨flag, hflag, rfl⟩ := hps
    rw [← hks'] at hls
    obtain ⟨c₂, hrun₂, hstack₂, hstored, hkeeps₂⟩ :=
      run_pastFlag hL hflag hls (hkeeps.length.trans hsize) hstack
    exact ⟨v, c₂, (runPlain_append hrun).trans hrun₂, hstack₂, hv, hstored, hkeeps.trans hkeeps₂⟩

end ClassWasm.Lowering
