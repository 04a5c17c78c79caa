/-
  Lists as tables. Items belong to owners of distinct names, or are looked up by a key; an item that
  is there once, in its own list or under its key, is where it is looked for. A table that leaves
  out what says nothing still tells what it left out.
-/
import Mathlib.Tactic

namespace ClassWasm

/-! ## Items that are there once -/

/-- Of the items that have a property there is only one. -/
theorem index_unique {α : Type} {p : α → Bool} {as : List α} (h : as.countP p = 1) {j k : Nat}
    {a b : α} (ha : as[j]? = some a) (hb : as[k]? = some b) (hpa : p a = true) (hpb : p b = true) :
    j = k := by
  induction as generalizing j k with
  | nil => cases ha
  | cons c as ih =>
    have hnone (hpc : p c = true) : ∀ a ∈ as, ¬ p a = true := by
      rw [List.countP_cons_of_pos hpc] at h
      exact List.countP_eq_zero.mp (Nat.succ.inj h)
    cases j with
    | zero =>
      cases k with
      | zero => rfl
      | succ k =>
        cases ha
        exact absurd hpb (hnone hpa b (List.mem_of_getElem? hb))
    | succ j =>
      cases k with
      | zero =>
        cases hb
        exact absurd hpa (hnone hpb a (List.mem_of_getElem? ha))
      | succ k =>
        by_cases hpc : p c = true
        · exact absurd hpa (hnone hpc a (List.mem_of_getElem? ha))
        · rw [List.countP_cons_of_neg hpc] at h
          exact congrArg Nat.succ (ih h ha hb)

theorem eq_of_countP {α : Type} {p : α → Bool} {as : List α} (h : as.countP p = 1) {a b : α}
    (ha : a ∈ as) (hb : b ∈ as) (hpa : p a = true) (hpb : p b = true) : a = b := by
  obtain ⟨j, hj⟩ := List.mem_iff_getElem?.mp ha
  obtain ⟨k, hk⟩ := List.mem_iff_getElem?.mp hb
  obtain rfl := index_unique h hj hk hpa hpb
  exact Option.some.inj (hj.symm.trans hk)

/-! ## Items of owners -/

/-- Items of lists that belong to different owners. -/
theorem nodup_flatMap_of_owner {α β γ : Type} {f : α → List β} {name : α → γ} (owner : β → γ)
    {as : List α} (hnames : (as.map name).Nodup) (hnodup : ∀ a ∈ as, (f a).Nodup)
    (howner : ∀ a ∈ as, ∀ b ∈ f a, owner b = name a) : (as.flatMap f).Nodup := by
  refine List.nodup_flatMap.mpr ⟨hnodup, ?_⟩
  have hpairwise := List.pairwise_map.mp hnames
  refine hpairwise.imp_of_mem fun {a b} ha hb hne x hx hx' => hne ?_
  exact (howner a ha x hx).symm.trans (howner b hb x hx')

/-- Items of one owner, where the names of owners are distinct. -/
theorem countP_flatMap_of_owner {α β γ : Type} {f : α → List β} {name : α → γ} {p : β → Bool}
    {as : List α} {a : α} (hnames : (as.map name).Nodup) (ha : a ∈ as)
    (howner : ∀ a' ∈ as, ∀ b ∈ f a', p b = true → name a' = name a) :
    (as.flatMap f).countP p = (f a).countP p := by
  obtain ⟨before, after, rfl⟩ := List.append_of_mem ha
  rw [List.map_append, List.map_cons] at hnames
  obtain ⟨-, hafter, hapart⟩ := List.nodup_append.mp hnames
  have hzero (others : List α)
      (hothers : ∀ a' ∈ others, a' ∈ before ++ a :: after ∧ name a' ≠ name a) :
      (others.flatMap f).countP p = 0 := by
    refine List.countP_eq_zero.mpr fun b hb hp => ?_
    obtain ⟨a', ha', hb⟩ := List.mem_flatMap.mp hb
    exact (hothers a' ha').2 (howner a' (hothers a' ha').1 b hb hp)
  rw [List.flatMap_append, List.flatMap_cons, List.countP_append, List.countP_append,
    hzero before, hzero after]
  · omega
  · refine fun a' ha' => ⟨List.mem_append_right _ (List.mem_cons_of_mem _ ha'), fun hname => ?_⟩
    exact (List.nodup_cons.mp hafter).1 (hname ▸ List.mem_map_of_mem ha')
  · refine fun a' ha' => ⟨List.mem_append_left _ ha', fun hname => ?_⟩
    exact hapart _ (List.mem_map_of_mem ha') _ List.mem_cons_self hname

/-! ## Entries -/

theorem mem_of_lookup {α β : Type} [BEq α] [LawfulBEq α] {entries : List (α × β)} {key : α} {b : β}
    (h : entries.lookup key = some b) : (key, b) ∈ entries := by
  obtain ⟨before, after, rfl, -⟩ := List.lookup_eq_some_iff.mp h
  exact List.mem_append_right _ List.mem_cons_self

theorem lookup_of_unique {α β : Type} [BEq α] [LawfulBEq α] {entries : List (α × β)} {key : α}
    {b : β} (hmem : (key, b) ∈ entries) (hunique : ∀ b', (key, b') ∈ entries → b' = b) :
    entries.lookup key = some b := by
  obtain ⟨b', hb'⟩ := Option.isSome_iff_exists.mp
    (List.lookup_isSome_iff.mpr ⟨(key, b), hmem, beq_self_eq_true key⟩)
  rw [hb', hunique b' (mem_of_lookup hb')]

/-- Where no key comes twice, an entry is found from both ends. -/
theorem lookup_reverse_of_mem {α β : Type} [BEq α] [LawfulBEq α] {entries : List (α × β)}
    (h : (entries.map Prod.fst).Nodup) {key : α} {b : β} (hmem : (key, b) ∈ entries) :
    entries.reverse.lookup key = some b := by
  refine lookup_of_unique (List.mem_reverse.mpr hmem) fun b' hb' => ?_
  cases List.inj_on_of_nodup_map h hmem (List.mem_reverse.mp hb') rfl
  rfl

/-- Items are numbered from `base` on, the last of them first. One whose key comes once is found
under the number of its place. -/
theorem lookup_numbered {α β : Type} [DecidableEq β] (key : α → β) (base : Nat) {as : List α}
    {k : Nat} {a : α} (hk : as[k]? = some a)
    (honce : as.countP (fun a' => key a' = key a) = 1) :
    (as.mapIdx fun j a' => (key a', base + j)).reverse.lookup (key a) = some (base + k) := by
  obtain ⟨hlt, hget⟩ := List.getElem?_eq_some_iff.mp hk
  refine lookup_of_unique ?_ fun i hi => ?_
  · exact List.mem_reverse.mpr (List.mem_mapIdx.mpr ⟨k, hlt, by rw [hget]⟩)
  · obtain ⟨j, hj, heq⟩ := List.mem_mapIdx.mp (List.mem_reverse.mp hi)
    obtain ⟨hkey, rfl⟩ := Prod.mk.inj heq
    rw [index_unique honce (List.getElem?_eq_getElem hj) hk (decide_eq_true hkey)
      (decide_eq_true rfl)]

/-! ## Entries that may be missing -/

section

variable {α β : Type} {es : List (α × Option β)}

/-- The entries that are there. -/
def present (es : List (α × Option β)) : List (α × β) := es.filterMap fun (k, b?) => b?.map (k, ·)

theorem present_cons (k : α) (b? : Option β) (es : List (α × Option β)) :
    present ((k, b?) :: es) = (b?.map (k, ·)).toList ++ present es := by
  cases b? <;> rfl

theorem mem_present {e : α × β} : e ∈ present es ↔ (e.1, some e.2) ∈ es := by
  unfold present
  rw [List.mem_filterMap]
  constructor
  · rintro ⟨⟨k, b?⟩, hmem, hsome⟩
    obtain ⟨b, rfl, rfl⟩ := Option.map_eq_some_iff.mp hsome
    exact hmem
  · exact fun hmem => ⟨(e.1, some e.2), hmem, rfl⟩

theorem flatMap_present {γ : Type} (f : α × β → List γ) :
    (present es).flatMap f = es.flatMap fun e => e.2.elim [] fun b => f (e.1, b) := by
  induction es with
  | nil => rfl
  | cons e es ih =>
    obtain ⟨k, b?⟩ := e
    rw [present_cons, List.flatMap_append, ih, List.flatMap_cons]
    cases b? <;> simp

theorem keys_present (es : List (α × Option β)) :
    ((present es).map Prod.fst).Sublist (es.map Prod.fst) := by
  induction es with
  | nil => exact .slnil
  | cons e es ih =>
    obtain ⟨k, b?⟩ := e
    rw [present_cons]
    cases b? with
    | none => exact ih.cons k
    | some b => exact ih.cons_cons k

variable [BEq α] [LawfulBEq α]

/-- Where no key comes twice, what stands under a key is found, or found to be missing. -/
theorem lookup_present (hes : (es.map Prod.fst).Nodup) {k : α} {b? : Option β}
    (h : (k, b?) ∈ es) : (present es).lookup k = b? := by
  have hkey {b?' : Option β} (h' : (k, b?') ∈ es) : b?' = b? :=
    congrArg Prod.snd (List.inj_on_of_nodup_map hes h' h rfl)
  cases b? with
  | some b =>
    refine lookup_of_unique (mem_present.mpr h) fun b' hb' => ?_
    exact Option.some.inj (hkey (mem_present.mp hb'))
  | none =>
    refine List.lookup_eq_none_iff.mpr fun e he => ?_
    have hne : k ≠ e.1 := by
      rintro rfl
      exact nomatch hkey (mem_present.mp he)
    simpa using hne

end

end ClassWasm
