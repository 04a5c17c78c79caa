/-
  The tree of a method body. `Spans a b rs ns` says that the nodes `ns` hold the instructions from
  `a` up to `b`, each once and in order, and that read from the outside in their loops and blocks
  are the regions `rs`. The builder keeps one such forest for each open region and one outside all
  of them (`Filled`), so the tree it ends with spans all instructions under all regions.
-/
import ClassWasm.Proofs.Region.Nesting
import ClassWasm.Region.Tree

namespace ClassWasm

/-- Where the body of a region starts: behind the guard if it has one. -/
def Region.bodyStart (r : Region) : Nat := if r.shape = .conditional then r.start + 1 else r.start

theorem Region.start_le_bodyStart (r : Region) : r.start ≤ r.bodyStart := by
  unfold bodyStart
  split <;> omega

namespace Node

/-- The nodes `ns` hold the instructions from `a` up to `b` under the regions `rs`, outer regions
first. -/
inductive Spans : (a b : Nat) → List Region → List Node → Prop
  | nil (a : Nat) : Spans a a [] []
  | op {a b : Nat} {rs : List Region} {ns : List Node} :
    Spans (a + 1) b rs ns → Spans a b rs (.op a :: ns)
  | region {b : Nat} {r : Region} {rs rs' : List Region} {body ns : List Node} :
    Spans r.bodyStart r.stop rs body → Spans r.stop b rs' ns →
    Spans r.start b (r :: rs ++ rs') (ofRegion r body :: ns)

theorem Spans.le {a b : Nat} {rs : List Region} {ns : List Node} (h : Spans a b rs ns) :
    a ≤ b := by
  induction h with
  | nil => exact Nat.le_refl _
  | op _ ih => omega
  | @region b r _ _ _ _ _ _ ih1 ih2 =>
    have := r.start_le_bodyStart
    omega

theorem Spans.append {a b c : Nat} {rs rs' : List Region} {ns ns' : List Node}
    (h : Spans a b rs ns) (h' : Spans b c rs' ns') : Spans a c (rs ++ rs') (ns ++ ns') := by
  induction h with
  | nil => exact h'
  | op _ ih => exact .op (ih h')
  | region hbody _ _ ih =>
    rw [List.append_assoc]
    exact .region hbody (ih h')

theorem Spans.single {r : Region} {rs : List Region} {body : List Node}
    (h : Spans r.bodyStart r.stop rs body) :
    Spans r.start r.stop (r :: rs) [ofRegion r body] := by
  have := Spans.region h (.nil r.stop)
  rwa [List.append_nil] at this

/-! ## The builder -/

/-- The open regions, innermost first, have been filled up to `p`, each up to where the next one
inside it starts; the regions opened so far are `used`. -/
def Filled (p : Nat) : List Open → List Node → List Region → Prop
  | [], done, used => Spans 0 p used done.reverse
  | o :: os, done, used => ∃ before inside, used = before ++ o.region :: inside ∧
    Spans o.region.bodyStart p inside o.done.reverse ∧ Filled o.region.start os done before

theorem Filled.mem_used {p : Nat} {os : List Open} {done : List Node} {used : List Region}
    (h : Filled p os done used) {o : Open} (ho : o ∈ os) : o.region ∈ used := by
  induction os generalizing p used with
  | nil => cases ho
  | cons o' os ih =>
    obtain ⟨before, inside, rfl, -, hrest⟩ := h
    rcases List.mem_cons.mp ho with rfl | ho
    · simp
    · exact List.mem_append_left _ (ih hrest ho)

/-- Nodes put into the innermost open region. -/
def put (ns : List Node) : List Open → List Node → List Open × List Node
  | [], done => ([], ns ++ done)
  | o :: os, done => ({ o with done := ns ++ o.done } :: os, done)

@[simp] theorem put_nil (os : List Open) (done : List Node) : put [] os done = (os, done) := by
  cases os <;> rfl

theorem Filled.put {p q : Nat} {os : List Open} {done ns : List Node} {used rs : List Region}
    (h : Filled p os done used) (hns : Spans p q rs ns.reverse) :
    Filled q (put ns os done).1 (put ns os done).2 (used ++ rs) := by
  cases os with
  | nil =>
    have := Spans.append h hns
    simpa [Filled, Node.put] using this
  | cons o os =>
    obtain ⟨before, inside, rfl, hin, hrest⟩ := h
    refine ⟨before, inside ++ rs, by simp, ?_, hrest⟩
    have := hin.append hns
    simpa using this

/-- Closing the innermost region puts its node into the region around it. -/
theorem Filled.close {o : Open} {os : List Open} {done : List Node} {used : List Region}
    (h : Filled o.region.stop (o :: os) done used) :
    Filled o.region.stop (Node.put [ofRegion o.region o.done.reverse] os done).1
      (Node.put [ofRegion o.region o.done.reverse] os done).2 used := by
  obtain ⟨before, inside, rfl, hin, hrest⟩ := h
  exact hrest.put hin.single

theorem closeTo_filled {i p : Nat} {os : List Open} {done carry : List Node} {used : List Region}
    (h : Filled p (put carry os done).1 (put carry os done).2 used)
    (hp : ∀ o ∈ os, o.region.stop ≤ i → o.region.stop = p) :
    Filled p (Builder.closeTo i done carry os).opened (Builder.closeTo i done carry os).done used := by
  induction os generalizing done carry with
  | nil => exact h
  | cons o os ih =>
    unfold Builder.closeTo
    dsimp only
    split
    · next hi =>
      have hstop := hp o List.mem_cons_self hi
      refine ih ?_ fun o' ho' => hp o' (List.mem_cons_of_mem _ ho')
      subst hstop
      exact Filled.close (o := { o with done := carry ++ o.done }) h
    · exact h

/-- The regions that stay open are some of the outermost. -/
theorem closeTo_regions (i : Nat) {os : List Open} (done carry : List Node)
    (hos : os.Pairwise fun o o' => o.region.stop ≤ o'.region.stop) :
    let b := Builder.closeTo i done carry os
    b.opened.map Open.region <:+ os.map Open.region ∧ ∀ o ∈ b.opened, i < o.region.stop := by
  induction os generalizing carry with
  | nil => exact ⟨List.suffix_refl _, fun o ho => (List.not_mem_nil ho).elim⟩
  | cons o os ih =>
    rw [List.pairwise_cons] at hos
    unfold Builder.closeTo
    dsimp only
    split
    · have ⟨hsuffix, hopen⟩ := ih [ofRegion o.region (carry ++ o.done).reverse] hos.2
      exact ⟨hsuffix.trans (List.suffix_cons _ _), hopen⟩
    · next hi =>
      refine ⟨List.suffix_refl _, fun o' ho' => ?_⟩
      rcases List.mem_cons.mp ho' with rfl | ho'
      · dsimp only; omega
      · have := hos.1 o' ho'
        omega

/-- Instructions before `p` are in place, and so are the regions `used`, of which those still open
reach to `p` or farther; the regions `rest` start at `p` or later. -/
structure Placed (p : Nat) (b : Builder) (used rest : List Region) : Prop where
  filled : Filled p b.opened b.done used
  reach : ∀ o ∈ b.opened, o.region.start < p ∧ p ≤ o.region.stop
  later : ∀ r ∈ rest, p ≤ r.start
  order : b.opened.Pairwise fun o o' => o.region.stop ≤ o'.region.stop

/-- While the regions that start at `p` are being opened. The instruction at `p` has a place as
soon as one of them is conditional. -/
structure Opening (p : Nat) (b : Builder) (used rest : List Region) : Prop where
  filled : Filled (if b.isGuard p then p + 1 else p) b.opened b.done used
  reach : ∀ o ∈ b.opened, o.region.start ≤ p ∧ p < o.region.stop
  later : ∀ r ∈ rest, p ≤ r.start
  order : b.opened.Pairwise fun o o' => o.region.stop ≤ o'.region.stop
  guard : b.isGuard p = true → ∀ r ∈ rest, r.start ≠ p

theorem isGuard_cons (p : Nat) (o : Open) (os : List Open) (done : List Node) :
    (Builder.mk (o :: os) done).isGuard p =
      (decide (o.region.start = p ∧ o.region.shape = .conditional) ||
        (Builder.mk os done).isGuard p) := List.any_cons

theorem isGuard_eq_false {p : Nat} {b : Builder} (h : ∀ o ∈ b.opened, o.region.start < p) :
    b.isGuard p = false := by
  unfold Builder.isGuard
  rw [List.any_eq_false]
  intro o ho
  have := h o ho
  simp only [decide_eq_true_eq, not_and]
  omega

theorem Placed.close {p : Nat} {b : Builder} {used rest : List Region} (h : Placed p b used rest) :
    Opening p (Builder.closeTo p b.done [] b.opened) used rest := by
  have ⟨hsuffix, hopen⟩ := closeTo_regions p b.done [] h.order
  have hmem : ∀ o ∈ (Builder.closeTo p b.done [] b.opened).opened, o.region.start < p := by
    intro o ho
    obtain ⟨o', ho', he⟩ := List.mem_map.mp (hsuffix.subset (List.mem_map_of_mem ho))
    rw [← he]
    exact (h.reach o' ho').1
  have hno := isGuard_eq_false hmem
  refine ⟨?_, fun o ho => ⟨(hmem o ho).le, hopen o ho⟩, h.later, ?_, fun hg => ?_⟩
  · rw [hno, if_neg Bool.false_ne_true]
    refine closeTo_filled (by rw [put_nil]; exact h.filled) fun o ho hle => ?_
    have := (h.reach o ho).2
    omega
  · have hp : (b.opened.map Open.region).Pairwise fun r r' => r.stop ≤ r'.stop :=
      List.pairwise_map.mpr h.order
    have hp' := hp.sublist hsuffix.sublist
    rwa [List.pairwise_map] at hp'
  · rw [hno] at hg
    cases hg

theorem Opening.add {p : Nat} {b : Builder} {used rest : List Region} {r : Region}
    (h : Opening p b used (r :: rest)) (hr : r.start = p) (hstop : r.start < r.stop)
    (hin : ∀ a ∈ used, a.stop ≤ r.start ∨ r.stop ≤ a.stop)
    (hlast : r.shape = .conditional → ∀ r' ∈ rest, r.start ≠ r'.start) :
    Opening p { b with opened := ⟨r, []⟩ :: b.opened } (used ++ [r]) rest := by
  have hno : b.isGuard p = false := by
    cases hg : b.isGuard p with
    | true => exact absurd hr (h.guard hg r List.mem_cons_self)
    | false => rfl
  have hfilled := h.filled
  rw [hno] at hfilled
  constructor
  case filled =>
    refine ⟨used, [], rfl, ?_, by rw [hr]; exact hfilled⟩
    rw [isGuard_cons, hno]
    unfold Region.bodyStart
    by_cases hc : r.shape = .conditional
    · simp [hc, hr, Spans.nil]
    · simp [hc, hr, Spans.nil]
  case reach =>
    intro o ho
    rcases List.mem_cons.mp ho with rfl | ho
    · exact ⟨hr.le, hr ▸ hstop⟩
    · exact h.reach o ho
  case later => exact fun r' hr' => h.later r' (List.mem_cons_of_mem _ hr')
  case order =>
    refine List.pairwise_cons.mpr ⟨fun o ho => ?_, h.order⟩
    have := h.reach o ho
    have := hin o.region (hfilled.mem_used ho)
    dsimp only
    omega
  case guard =>
    intro hg r' hr' he
    rw [isGuard_cons, hno, Bool.or_false, decide_eq_true_eq] at hg
    exact hlast hg.2 r' hr' (hr.trans he.symm)

theorem Opening.openAt {p : Nat} {b : Builder} {used rest : List Region}
    (h : Opening p b used rest) (hb : ∀ r ∈ rest, r.start < r.stop)
    (hn : Region.Nested (used ++ rest)) :
    ∃ used', used ++ rest = used' ++ (Builder.openAt p b rest).2 ∧
      Opening p (Builder.openAt p b rest).1 used' (Builder.openAt p b rest).2 ∧
      ∀ r ∈ (Builder.openAt p b rest).2, r.start ≠ p := by
  induction rest generalizing b used with
  | nil => exact ⟨used, rfl, h, fun r hr => (List.not_mem_nil hr).elim⟩
  | cons r rest ih =>
    unfold Builder.openAt
    split
    · next hr =>
      have hsorted := List.pairwise_append.mp hn.sorted
      have hinner := List.pairwise_append.mp hn.innermost
      have hadd := h.add hr (hb r List.mem_cons_self)
        (fun a ha => (hsorted.2.2 a ha r List.mem_cons_self).2)
        (fun hc r' hr' => (List.pairwise_cons.mp hinner.2.1).1 r' hr' hc)
      have hassoc : used ++ r :: rest = used ++ [r] ++ rest := by simp
      rw [hassoc] at hn ⊢
      exact ih hadd (fun r' hr' => hb r' (List.mem_cons_of_mem _ hr')) hn
    · next hr =>
      refine ⟨used, rfl, h, fun r' hr' => ?_⟩
      have hsorted := List.pairwise_append.mp hn.sorted
      have hle := h.later r List.mem_cons_self
      rcases List.mem_cons.mp hr' with rfl | hr'
      · exact hr
      · have := ((List.pairwise_cons.mp hsorted.2.1).1 r' hr').1
        omega

theorem Placed.step {p : Nat} {b : Builder} {used rest : List Region} (h : Placed p b used rest)
    (hb : ∀ r ∈ rest, r.start < r.stop) (hn : Region.Nested (used ++ rest)) :
    ∃ used', used ++ rest = used' ++ (Builder.step (b, rest) p).2 ∧
      Placed (p + 1) (Builder.step (b, rest) p).1 used' (Builder.step (b, rest) p).2 := by
  obtain ⟨used', hsplit, hopen, hlater⟩ := h.close.openAt hb hn
  refine ⟨used', hsplit, ?_⟩
  unfold Builder.step
  dsimp only
  generalize Builder.openAt p (Builder.closeTo p b.done [] b.opened) rest = br at *
  obtain ⟨b', rest'⟩ := br
  dsimp only at *
  have hrest : ∀ r ∈ rest', p + 1 ≤ r.start := fun r hr => by
    have := hopen.later r hr
    have := hlater r hr
    omega
  have hfilled := hopen.filled
  split
  · next hg =>
    rw [hg] at hfilled
    refine ⟨hfilled, fun o ho => ?_, hrest, hopen.order⟩
    have := hopen.reach o ho
    omega
  · next hg =>
    rw [if_neg hg] at hfilled
    have hop : Spans p (p + 1) [] [Node.op p].reverse := .op (.nil (p + 1))
    have hput := hfilled.put hop
    rw [List.append_nil] at hput
    unfold Builder.add
    obtain ⟨os, done⟩ := b'
    have hreach := hopen.reach
    have horder := hopen.order
    cases os with
    | nil => exact ⟨hput, fun o ho => (List.not_mem_nil ho).elim, hrest, .nil⟩
    | cons o os =>
      refine ⟨hput, fun o' ho' => ?_, hrest, ?_⟩
      · rcases List.mem_cons.mp ho' with rfl | ho'
        · have := hreach o List.mem_cons_self
          dsimp only
          omega
        · have := hreach o' (List.mem_cons_of_mem _ ho')
          omega
      · exact List.pairwise_cons.mpr (List.pairwise_cons.mp horder)

theorem Placed.run {fs : List Region} (hb : ∀ r ∈ fs, r.start < r.stop) (hn : Region.Nested fs)
    (n : Nat) : ∃ used, fs = used ++ ((List.range n).foldl Builder.step (⟨[], []⟩, fs)).2 ∧
      Placed n ((List.range n).foldl Builder.step (⟨[], []⟩, fs)).1 used
        ((List.range n).foldl Builder.step (⟨[], []⟩, fs)).2 := by
  induction n with
  | zero =>
    exact ⟨[], rfl, .nil 0, fun o ho => (List.not_mem_nil ho).elim, fun r _ => Nat.zero_le _, .nil⟩
  | succ n ih =>
    obtain ⟨used, hsplit, hplaced⟩ := ih
    rw [List.range_succ, List.foldl_concat]
    generalize (List.range n).foldl Builder.step (⟨[], []⟩, fs) = br at *
    obtain ⟨b, rest⟩ := br
    dsimp only at hsplit hplaced
    subst hsplit
    exact hplaced.step (fun r hr => hb r (List.mem_append_right _ hr)) hn

/-- The tree spans all instructions under all regions. -/
theorem build_spans {n : Nat} {fs : List Region}
    (hb : ∀ r ∈ fs, r.start < r.stop ∧ r.stop ≤ n) (hn : Region.Nested fs) :
    Spans 0 n fs (build n fs) := by
  obtain ⟨used, hsplit, hplaced⟩ := Placed.run (fun r hr => (hb r hr).1) hn n
  unfold build
  generalize (List.range n).foldl Builder.step (⟨[], []⟩, fs) = br at *
  obtain ⟨b, rest⟩ := br
  dsimp only at hsplit hplaced ⊢
  have hrest : rest = [] := by
    rw [List.eq_nil_iff_forall_not_mem]
    intro r hr
    have := hb r (hsplit ▸ List.mem_append_right _ hr)
    have := hplaced.later r hr
    omega
  subst hrest
  rw [List.append_nil] at hsplit
  subst hsplit
  have hstop : ∀ o ∈ b.opened, o.region.stop = n := by
    intro o ho
    have := (hplaced.reach o ho).2
    have := (hb o.region (hplaced.filled.mem_used ho)).2
    omega
  have ⟨hsuffix, hopen⟩ := closeTo_regions (n + 1) b.done [] hplaced.order
  have hclosed : Filled n (Builder.closeTo (n + 1) b.done [] b.opened).opened
      (Builder.closeTo (n + 1) b.done [] b.opened).done fs :=
    closeTo_filled (by rw [put_nil]; exact hplaced.filled) fun o ho _ => hstop o ho
  have hnil : (Builder.closeTo (n + 1) b.done [] b.opened).opened = [] := by
    rw [List.eq_nil_iff_forall_not_mem]
    intro o ho
    obtain ⟨o', ho', he⟩ := List.mem_map.mp (hsuffix.subset (List.mem_map_of_mem ho))
    have := hopen o ho
    have := hstop o' ho'
    rw [he] at this
    omega
  rw [hnil] at hclosed
  exact hclosed

/-! ## What a tree spans -/

mutual

/-- The instructions of a node in order, a guard where its block opens. -/
def indices : Node → List Nat
  | op i => [i]
  | loop _ _ body => indicesOf body
  | block start _ kind body => (if kind = .conditional then [start] else []) ++ indicesOf body

def indicesOf : List Node → List Nat
  | [] => []
  | n :: ns => n.indices ++ indicesOf ns

end

def body : Node → List Node
  | op _ => []
  | loop _ _ body | block _ _ _ body => body

/-- A node that occurs among nodes or below one of them. -/
inductive Within (n : Node) : List Node → Prop
  | here {ns : List Node} : n ∈ ns → Within n ns
  | inside {m : Node} {ns : List Node} : m ∈ ns → Within n m.body → Within n ns

theorem not_within_nil {n : Node} : ¬ Within n [] := by
  rintro (h | ⟨h, -⟩) <;> cases h

/-- What occurs among nodes is the first one, or lies below it or behind it. -/
theorem within_cons {n m : Node} {ns : List Node} (h : Within n (m :: ns)) :
    n = m ∨ Within n m.body ∨ Within n ns := by
  cases h with
  | here h =>
    rcases List.mem_cons.mp h with h | h
    · exact .inl h
    · exact .inr (.inr (.here h))
  | inside h hn =>
    rcases List.mem_cons.mp h with rfl | h
    · exact .inr (.inl hn)
    · exact .inr (.inr (.inside h hn))

/-- The start and stop of a loop or block. -/
def extent? : Node → Option (Nat × Nat)
  | op _ => none
  | loop start stop _ | block start stop _ _ => some (start, stop)

theorem extent?_ofRegion (r : Region) (ns : List Node) :
    (ofRegion r ns).extent? = some (r.start, r.stop) := by
  unfold ofRegion
  split <;> rfl

theorem body_ofRegion (r : Region) (ns : List Node) : (ofRegion r ns).body = ns := by
  unfold ofRegion
  split <;> rfl

theorem indices_ofRegion (r : Region) (ns : List Node) :
    (ofRegion r ns).indices =
      (if r.shape = .conditional then [r.start] else []) ++ indicesOf ns := by
  unfold ofRegion
  split <;> simp [indices, *]

theorem range'_join {a b c : Nat} (hab : a ≤ b) (hbc : b ≤ c) :
    List.range' a (b - a) ++ List.range' b (c - b) = List.range' a (c - a) := by
  obtain ⟨m, rfl⟩ := Nat.exists_eq_add_of_le hab
  obtain ⟨n, rfl⟩ := Nat.exists_eq_add_of_le hbc
  rw [Nat.add_sub_cancel_left, Nat.add_sub_cancel_left, Nat.add_assoc, Nat.add_sub_cancel_left,
    List.range'_append_1]

theorem indices_region {r : Region} {body : List Node} (hle : r.bodyStart ≤ r.stop)
    (h : indicesOf body = List.range' r.bodyStart (r.stop - r.bodyStart)) :
    (ofRegion r body).indices = List.range' r.start (r.stop - r.start) := by
  rw [indices_ofRegion, h, ← range'_join r.start_le_bodyStart hle]
  unfold Region.bodyStart
  by_cases hc : r.shape = .conditional <;> simp [hc]

theorem Spans.indicesOf {a b : Nat} {rs : List Region} {ns : List Node} (h : Spans a b rs ns) :
    indicesOf ns = List.range' a (b - a) := by
  induction h with
  | nil a => simp [Node.indicesOf]
  | @op a b rs ns h ih =>
    rw [Node.indicesOf, ih, ← range'_join (Nat.le_succ a) h.le]
    simp [indices]
  | @region b r rs rs' body ns hbody hns ih ih' =>
    have hle := r.start_le_bodyStart.trans hbody.le
    rw [Node.indicesOf, indices_region hbody.le ih, ih', range'_join hle hns.le]

/-- Every loop or block is the node of one of the regions. -/
theorem Spans.within {a b : Nat} {rs : List Region} {ns : List Node} (h : Spans a b rs ns)
    {n : Node} (hn : Within n ns) : (∃ i, n = .op i) ∨ ∃ r ∈ rs, ∃ rs' body,
      n = ofRegion r body ∧ Spans r.bodyStart r.stop rs' body := by
  induction h with
  | nil => exact (not_within_nil hn).elim
  | @op a b rs ns h ih =>
    rcases within_cons hn with rfl | hn | hn
    · exact .inl ⟨a, rfl⟩
    · exact (not_within_nil hn).elim
    · exact ih hn
  | @region b r rs rs' body ns hbody hns ih ih' =>
    rcases within_cons hn with rfl | hn | hn
    · exact .inr ⟨r, List.mem_cons_self, rs, body, rfl, hbody⟩
    · rw [body_ofRegion] at hn
      refine (ih hn).imp_right fun ⟨r', hr', hrest⟩ => ⟨r', ?_, hrest⟩
      exact List.mem_append_left _ (List.mem_cons_of_mem _ hr')
    · exact (ih' hn).imp_right fun ⟨r', hr', hrest⟩ => ⟨r', List.mem_append_right _ hr', hrest⟩

theorem Within.mono {n : Node} {ns ns' : List Node} (h : Within n ns) (hs : ns ⊆ ns') :
    Within n ns' := by
  cases h with
  | here h => exact .here (hs h)
  | inside h hn => exact .inside (hs h) hn

/-- Every region has its node. -/
theorem Spans.of_mem {a b : Nat} {rs : List Region} {ns : List Node} (h : Spans a b rs ns)
    {r : Region} (hr : r ∈ rs) :
    ∃ rs' body, Within (ofRegion r body) ns ∧ Spans r.bodyStart r.stop rs' body := by
  induction h with
  | nil => cases hr
  | op _ ih =>
    obtain ⟨rs', body, hw, hs⟩ := ih hr
    exact ⟨rs', body, hw.mono (List.subset_cons_self _ _), hs⟩
  | @region b r₀ rs rs' body ns hbody hns ih ih' =>
    rcases List.mem_append.mp hr with hr | hr
    · rcases List.mem_cons.mp hr with rfl | hr
      · exact ⟨rs, body, .here List.mem_cons_self, hbody⟩
      · obtain ⟨rs'', body', hw, hs⟩ := ih hr
        refine ⟨rs'', body', .inside List.mem_cons_self ?_, hs⟩
        rwa [body_ofRegion]
    · obtain ⟨rs'', body', hw, hs⟩ := ih' hr
      exact ⟨rs'', body', hw.mono (List.subset_cons_self _ _), hs⟩

/-- Counting nodes counts regions. -/
theorem Spans.counts {a b : Nat} {rs : List Region} {ns : List Node} (h : Spans a b rs ns)
    (c : Counts) :
    (countAllFrom c ns).loops = c.loops + rs.countP (fun r => r.shape.isLoop) ∧
    (countAllFrom c ns).wrappers = c.wrappers + rs.countP (fun r => r.shape.isWrapper) ∧
    (countAllFrom c ns).blocks + (countAllFrom c ns).conditionals =
      c.blocks + c.conditionals + rs.countP (fun r => r.shape.isSingle) := by
  induction h generalizing c with
  | nil => exact ⟨rfl, rfl, rfl⟩
  | op _ ih => exact ih c
  | @region b r rs rs' body ns hbody hns ih ih' =>
    rw [countAllFrom]
    obtain ⟨h1, h2, h3⟩ := ih' ((ofRegion r body).countFrom c)
    rw [h1, h2, h3]
    simp only [List.countP_append, List.countP_cons]
    unfold ofRegion
    split <;> next hs =>
      simp only [countFrom, ih, hs, Counts.countBlock, Region.Shape.isLoop, Region.Shape.isWrapper,
        Region.Shape.isSingle]
      grind

end Node

open Node

/-- The tree of a method body spans its instructions under the regions of its code. -/
theorem structureOf_spans {instrs : Array Instruction} (hasc : Ascending instrs)
    {tree : List Node} (h : structureOf instrs = .ok tree) :
    ∃ rs, Region.Found instrs rs ∧ Spans 0 instrs.size rs tree := by
  obtain ⟨rs, hrs, h⟩ := bind_eq_ok.mp h
  cases h
  obtain ⟨hfound, hnested⟩ := regions_spec hasc hrs
  exact ⟨rs, hfound, build_spans hfound.bounds hnested⟩

/-- A region that reaches over an instruction has it below its node. -/
theorem Node.Spans.holds {instrs : Array Instruction} {rs : List Region} {tree : List Node}
    (h : Spans 0 instrs.size rs tree) {r : Region} (hr : r ∈ rs) {k : Nat} (hstart : r.start ≤ k)
    (hstop : k < r.stop) : ∃ body, Within (ofRegion r body) tree ∧ k ∈ (ofRegion r body).indices := by
  obtain ⟨rs', body, hw, hbody⟩ := h.of_mem hr
  refine ⟨body, hw, ?_⟩
  rw [indices_region hbody.le hbody.indicesOf, List.mem_range'_1]
  omega

/-- What the tree of a method body says of its code. -/
structure Shaped (instrs : Array Instruction) (tree : List Node) : Prop where
  /-- It holds every instruction once and in order. -/
  order : indicesOf tree = List.range instrs.size
  /-- A loop or block holds the instructions from its start up to its stop. -/
  extents : ∀ n s e, Within n tree → n.extent? = some (s, e) →
    s < e ∧ n.indices = List.range' s (e - s)
  wrappers : (countAllFrom {} tree).wrappers = switchTargets instrs
  loops : (countAllFrom {} tree).loops = (loopHeads instrs).ncard
  blocks : (countAllFrom {} tree).blocks + (countAllFrom {} tree).conditionals =
    (forwardJumps instrs).ncard
  /-- A branch goes to an instruction, and stands in a block that stops there or in a loop that
  starts there. -/
  branches : ∀ k i, instrs[k]? = some i → ∀ d ∈ i.op.branches,
    ∃ t, StartsAt instrs t (i.absolute d) ∧
      (k < t → ∃ s kind body, Within (.block s t kind body) tree ∧
        k ∈ (Node.block s t kind body).indices) ∧
      (t ≤ k → ∃ e body, Within (.loop t e body) tree ∧ k ∈ (Node.loop t e body).indices)

theorem structureOf_of_repaired {instrs : Array Instruction} (ms : Array Region) (rs : List Region)
    {tree : List Node} (hrepaired : (Region.collect instrs >>= Region.repair instrs).toOption = some ms)
    (hsorted : (ms.map (Region.demote ms)).toList.mergeSort Region.precedes = rs)
    (hbuild : Node.build instrs.size rs = tree) : structureOf instrs = .ok tree := by
  unfold structureOf
  rw [regions_eq_ok hrepaired, hsorted, ← hbuild]
  rfl

theorem structureOf_shaped {pool : Pool} {code : Bytes} {instrs : Array Instruction}
    {tree : List Node} (hd : decode pool code = .ok instrs) (hs : structureOf instrs = .ok tree) :
    Shaped instrs tree := by
  obtain ⟨rs, hfound, hspans⟩ := structureOf_spans (ascending_of_decode hd) hs
  obtain ⟨hloops, hwrappers, hsingles⟩ := hspans.counts {}
  refine ⟨?_, ?_, ?_, ?_, ?_, ?_⟩
  · rw [hspans.indicesOf, List.range_eq_range', Nat.sub_zero]
  · intro n s e hn he
    rcases hspans.within hn with ⟨i, rfl⟩ | ⟨r, hr, rs', body, rfl, hbody⟩
    · cases he
    · rw [extent?_ofRegion] at he
      cases he
      exact ⟨(hfound.bounds r hr).1, indices_region hbody.le hbody.indicesOf⟩
  · rw [hwrappers, hfound.wrappers, Nat.zero_add]
  · rw [hloops, hfound.loops, Nat.zero_add]
  · rw [hsingles, hfound.singles, Nat.zero_add, Nat.zero_add]
  · intro k i hi d hdel
    have hk := (Array.getElem?_eq_some_iff.mp hi).1
    obtain ⟨t, ht, -⟩ := hfound.lands k hk i hi d hdel
    have hlead : LeadsTo instrs k t := ⟨i, hi, d, hdel, ht⟩
    refine ⟨t, ht, fun hlt => ?_, fun hle => ?_⟩
    · obtain ⟨r, hr, hstart, rfl, hloop⟩ := hfound.forward k t hlead hlt
      obtain ⟨body, hw⟩ := hspans.holds hr hstart hlt
      unfold ofRegion at hw
      split at hw
      · next hl => exact absurd hl hloop
      all_goals exact ⟨_, _, _, hw⟩
    · obtain ⟨r, hr, hloop, rfl, hstop⟩ := hfound.backward k t hlead hle
      obtain ⟨body, hw⟩ := hspans.holds hr hle hstop
      unfold ofRegion at hw
      rw [hloop] at hw
      exact ⟨_, _, hw⟩

/-! ## A loop with a guard, and a switch -/

def sampleCode : Bytes :=
  [0x1a, 0x99, 0, 6, 0xa7, 0xff, 0xfc, 0x1a, 0xaa, 0, 0, 0, 0, 0, 0, 22, 0, 0, 0, 0, 0, 0, 0, 0,
    0, 0, 0, 20, 0x03, 0xac, 0x04, 0xac]

def sampleInstrs : Array Instruction :=
  #[⟨0, 1, 0x1a, false, .load .int 0⟩, ⟨1, 3, 0x99, false, .branch (.zero .eq) 6⟩,
    ⟨4, 3, 0xa7, false, .goto (-4)⟩, ⟨7, 1, 0x1a, false, .load .int 0⟩,
    ⟨8, 20, 0xaa, false, .tableSwitch 22 0 [20]⟩, ⟨28, 1, 0x03, false, .const (.int 0)⟩,
    ⟨29, 1, 0xac, false, .ret .int⟩, ⟨30, 1, 0x04, false, .const (.int 1)⟩,
    ⟨31, 1, 0xac, false, .ret .int⟩]

def sampleTree : List Node :=
  [.loop 0 3 [.op 0, .block 1 3 .conditional [.op 2]], .op 3,
    .block 4 7 .wrapper [.block 4 5 .wrapper [.op 4], .op 5, .op 6], .op 7, .op 8]

theorem decode_sampleCode : decode ⟨#[]⟩ sampleCode = .ok sampleInstrs :=
  ok_of_toOption (by decide +kernel)

theorem structureOf_sampleInstrs : structureOf sampleInstrs = .ok sampleTree :=
  structureOf_of_repaired
    #[⟨1, 3, .conditional⟩, ⟨4, 7, .wrapper 0⟩, ⟨4, 5, .wrapper 0⟩, ⟨0, 3, .loop⟩]
    [⟨0, 3, .loop⟩, ⟨1, 3, .conditional⟩, ⟨4, 7, .wrapper 0⟩, ⟨4, 5, .wrapper 0⟩]
    (by decide +kernel) (by simp [List.mergeSort, Region.precedes, Region.demote]) rfl

theorem structureOf_shaped_sample :
    decode ⟨#[]⟩ sampleCode = .ok sampleInstrs ∧ structureOf sampleInstrs = .ok sampleTree ∧
      Shaped sampleInstrs sampleTree :=
  ⟨decode_sampleCode, structureOf_sampleInstrs,
    structureOf_shaped decode_sampleCode structureOf_sampleInstrs⟩

end ClassWasm
