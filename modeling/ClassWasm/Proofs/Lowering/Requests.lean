/-
  Requests for locals, in any sequence. Each request is made for some role: values of a kind in a
  variable, scratch values of a type with a number, or something of its own. The place that a
  request gets holds its role from then on (`Locals.Holds`), which one step shows and a run keeps,
  and a place holds one role only. Parameters hold theirs from the start. What is handed out is the
  place as a word, which tells apart the first 2^32 places. Main result: two requests get the same
  local if they are made for the same role, and only then while there are no more locals than words
  (`locals_apart`).
-/
import ClassWasm.Proofs.Descriptor
import ClassWasm.Proofs.Lowering.Locals

namespace ClassWasm

namespace Lowering

open Wasm (ValType LocalRun)

/-- What a local is wanted for: values of a kind in a variable, scratch values of a type with a
number, or something that shares it with nothing. -/
inductive Request where
  | slot (s : Nat) (k : Kind)
  | temp (t : ValType) (n : Nat)
  | fresh (t : ValType)

/-- What a local is for. One that is shared with nothing goes by the place of its request. -/
inductive Role where
  | slot (s : Nat) (k : Kind)
  | temp (t : ValType) (n : Nat)
  | fresh (place : Nat)

namespace Request

def answer : Request → Locals → UInt32 × Locals
  | slot s k => Locals.slot s k
  | temp t n => Locals.temp t n
  | fresh t => Locals.fresh t

def type : Request → ValType
  | slot _ k => .ofKind k
  | temp t _ => t
  | fresh t => t

def role (place : Nat) : Request → Role
  | slot s k => .slot s k
  | temp t n => .temp t n
  | fresh _ => .fresh place

theorem fresh_of_role {r : Request} {place place' : Nat} (h : r.role place = .fresh place') :
    place = place' ∧ ∃ t, r = .fresh t := by
  cases r with
  | fresh t =>
    cases h
    exact ⟨rfl, t, rfl⟩
  | _ => cases h

end Request

/-- Answers requests one after the other. -/
def answers : List Request → Locals → List UInt32 × Locals
  | [], l => ([], l)
  | r :: rs, l =>
    let (i, l) := r.answer l
    let (is, l) := answers rs l
    (i :: is, l)

namespace Locals

/-! ## Roles -/

/-- The local at a place has a role. -/
def Holds (l : Locals) (i : Nat) : Role → Prop
  | .slot s k => l.slots.lookup (s, k) = some i
  | .temp t n => l.IsTemp t n i
  | .fresh _ => l.Owned i

variable {l l' : Locals} {i j : Nat} {role role' : Role}

theorem Holds.grows (h : l.Holds i role) (hg : Grows l l') : l'.Holds i role := by
  cases role with
  | slot s k => exact hg.slots _ _ h
  | temp t n => exact IsTemp.grows h hg
  | fresh place => exact Owned.grows h hg

/-- A place holds one role, or is shared with nothing. -/
theorem Holds.role_eq (hl : l.Sound) (h : l.Holds i role) (h' : l.Holds i role') :
    role = role' ∨ ∃ place place', role = .fresh place ∧ role' = .fresh place' := by
  cases role with
  | slot s k =>
    cases role' with
    | slot s' k' =>
      cases hl.slots_apart _ _ i h h'
      exact .inl rfl
    | temp t n => exact absurd rfl (hl.slots_scratch _ i h _ h'.mem)
    | fresh place => exact absurd h (h'.slots _)
  | temp t n =>
    cases role' with
    | slot s k => exact absurd rfl (hl.slots_scratch _ i h' _ h.mem)
    | temp t' n' =>
      obtain rfl : t = t' := Option.some.inj ((h.type hl).symm.trans (h'.type hl))
      rw [h.number_eq hl h']
      exact .inl rfl
    | fresh place => exact absurd rfl (h'.scratch _ h.mem)
  | fresh place =>
    cases role' with
    | slot s k => exact absurd h' (h.slots _)
    | temp t n => exact absurd rfl (h.scratch _ h'.mem)
    | fresh place' => exact .inr ⟨place, place', rfl, rfl⟩

theorem Holds.local_eq (h : l.Holds i role) (h' : l.Holds j role)
    (hrole : ∀ place, role ≠ .fresh place) : i = j := by
  cases role with
  | slot s k => exact Option.some.inj (h.symm.trans h')
  | temp t n => exact Option.some.inj (h.symm.trans h')
  | fresh place => exact absurd rfl (hrole place)

theorem Holds.slot_eq {s : Nat} {k : Kind} (h : l.Holds i (.slot s k)) :
    l.slot s k = (.ofNat i, l) := by
  unfold slot
  rw [show l.slots.lookup (s, k) = some i from h]

/-! ## Requests -/

/-- The local at place `i` answers a request that turns the locals `l` into `l'`. -/
structure Serves (place : Nat) (r : Request) (i : Nat) (l l' : Locals) : Prop where
  sound : l'.Sound
  grows : Grows l l'
  holds : l'.Holds i (r.role place)
  type : l'.types[i]? = some r.type
  fresh_new : ∀ t, r = .fresh t → l.types.size ≤ i ∧ i < l'.types.size

theorem answer_spec (hl : l.Sound) (r : Request) (place : Nat) :
    ∃ i, (r.answer l).1 = .ofNat i ∧ Serves place r i l (r.answer l).2 := by
  cases r with
  | slot s k =>
    obtain ⟨hs, hg, ⟨i, hlookup, hi⟩, -⟩ := slot_spec hl s k
    exact ⟨i, hi, hs, hg, hlookup, hs.slots _ _ hlookup, nofun⟩
  | temp t n =>
    obtain ⟨hs, hg, ⟨i, htemp, hi⟩, -⟩ := temp_spec hl t n
    exact ⟨i, hi, hs, hg, htemp, htemp.type hs, nofun⟩
  | fresh t =>
    have howned := fresh_owned hl t
    exact ⟨l.types.size, rfl, fresh_sound hl t, fresh_grows t l, howned, fresh_type t l,
      fun _ _ => ⟨Nat.le_refl _, howned.lt⟩⟩

/-- Requests from `place` on that took the locals from `l` to `l'`, with the places they got. -/
structure Answered (place : Nat) (rs : List Request) (is : List Nat) (l l' : Locals) : Prop where
  sound : l'.Sound
  grows : Grows l l'
  length : is.length = rs.length
  holds : ∀ {k i : Nat} {r : Request}, rs[k]? = some r → is[k]? = some i →
    l'.Holds i (r.role (place + k))
  types : ∀ {k i : Nat} {r : Request}, rs[k]? = some r → is[k]? = some i →
    l'.types[i]? = some r.type
  fresh_new : ∀ {k i : Nat} {t : ValType}, rs[k]? = some (.fresh t) → is[k]? = some i →
    l.types.size ≤ i
  fresh_lt : ∀ {k k' i i' : Nat} {t t' : ValType}, k < k' → rs[k]? = some (.fresh t) →
    rs[k']? = some (.fresh t') → is[k]? = some i → is[k']? = some i' → i < i'

/-- One request before others. -/
theorem Answered.cons {place : Nat} {r : Request} {rs : List Request} {is : List Nat}
    {l₁ : Locals} (hfirst : Serves place r i l l₁) (hrest : Answered (place + 1) rs is l₁ l') :
    Answered place (r :: rs) (i :: is) l l' := by
  refine ⟨hrest.sound, hfirst.grows.trans hrest.grows, congrArg (· + 1) hrest.length, ?_, ?_, ?_,
    ?_⟩
  · intro k i r' hr hi
    cases k with
    | zero =>
      cases hr
      cases hi
      exact hfirst.holds.grows hrest.grows
    | succ k =>
      have hplace : place + (k + 1) = place + 1 + k := by omega
      rw [hplace]
      exact hrest.holds hr hi
  · intro k i r' hr hi
    cases k with
    | zero =>
      cases hr
      cases hi
      exact hrest.grows.types _ _ hfirst.type
    | succ k => exact hrest.types hr hi
  · intro k i t hr hi
    cases k with
    | zero =>
      cases hr
      cases hi
      exact (hfirst.fresh_new t rfl).1
    | succ k => exact hfirst.grows.size.trans (hrest.fresh_new hr hi)
  · intro k k' i i' t t' hlt hr hr' hi hi'
    obtain _ | k' := k'
    · cases hlt
    cases k with
    | zero =>
      cases hr
      cases hi
      -- What is fresh later lies behind all the locals there are now.
      exact (hfirst.fresh_new t rfl).2.trans_le (hrest.fresh_new hr' hi')
    | succ k => exact hrest.fresh_lt (Nat.lt_of_succ_lt_succ hlt) hr hr' hi hi'

/-- What requests get are places as words. -/
theorem answered (rs : List Request) (place : Nat) (hl : l.Sound) :
    ∃ is, (answers rs l).1 = is.map .ofNat ∧ Answered place rs is l (answers rs l).2 := by
  induction rs generalizing l place with
  | nil => exact ⟨[], rfl, hl, .refl l, rfl, nofun, nofun, nofun, fun _ h => nomatch h⟩
  | cons r rs ih =>
    obtain ⟨i, hword, hfirst⟩ := answer_spec hl r place
    obtain ⟨is, hwords, hrest⟩ := ih (place + 1) hfirst.sound
    refine ⟨i :: is, ?_, .cons hfirst hrest⟩
    rw [List.map_cons, ← hword, ← hwords]
    rfl

section

variable {place : Nat} {rs : List Request} {is : List Nat} (h : Answered place rs is l l')

include h

theorem Answered.exists_local {k : Nat} {r : Request} (hr : rs[k]? = some r) :
    ∃ i, is[k]? = some i ∧ i < l'.types.size := by
  have hk : k < rs.length := (List.getElem?_eq_some_iff.mp hr).1
  have hi := List.getElem?_eq_getElem (h.length ▸ hk)
  exact ⟨_, hi, lt_size_of_type (h.types hr hi)⟩

/-- While there are no more locals than words, the word that a request gets tells its place. -/
theorem Answered.word_eq_iff (hfew : l'.types.size ≤ 2 ^ 32) {k : Nat} {r : Request}
    (hr : rs[k]? = some r) (hi : i < l'.types.size) :
    (is.map UInt32.ofNat)[k]? = some (.ofNat i) ↔ is[k]? = some i := by
  obtain ⟨j, hj, hlt⟩ := h.exists_local hr
  rw [List.getElem?_map, hj, Option.map_some, Option.some.injEq, Option.some.injEq]
  constructor
  · intro hword
    rw [← toNat_index hfew hlt, hword, toNat_index hfew hi]
  · exact congrArg _

/-- Two requests get the same place if and only if they are made for the same role. -/
theorem Answered.same_iff {k k' : Nat} {r r' : Request} (hr : rs[k]? = some r)
    (hr' : rs[k']? = some r') :
    is[k]? = is[k']? ↔ r.role (place + k) = r'.role (place + k') := by
  obtain ⟨i, hi, -⟩ := h.exists_local hr
  obtain ⟨i', hi', -⟩ := h.exists_local hr'
  have hholds := h.holds hr hi
  have hholds' := h.holds hr' hi'
  rw [hi, hi', Option.some.injEq]
  constructor
  · rintro rfl
    rcases hholds.role_eq h.sound hholds' with heq | ⟨_, _, hrole, hrole'⟩
    · exact heq
    · obtain ⟨-, t, rfl⟩ := Request.fresh_of_role hrole
      obtain ⟨-, t', rfl⟩ := Request.fresh_of_role hrole'
      rcases Nat.lt_trichotomy k k' with hlt | rfl | hlt
      · exact absurd (h.fresh_lt hlt hr hr' hi hi') (Nat.lt_irrefl i)
      · rfl
      · exact absurd (h.fresh_lt hlt hr' hr hi' hi) (Nat.lt_irrefl i)
  · intro hrole
    by_cases hfresh : ∃ p, r.role (place + k) = .fresh p
    · obtain ⟨p, hp⟩ := hfresh
      obtain ⟨rfl, -⟩ := Request.fresh_of_role hp
      obtain ⟨hplace, -⟩ := Request.fresh_of_role (hrole ▸ hp)
      obtain rfl : k' = k := by omega
      exact Option.some.inj (hi.symm.trans hi')
    · exact hholds.local_eq (hrole ▸ hholds') (not_exists.mp hfresh)

/-- Requests get a place that held a role before if and only if they are made for that role. -/
theorem Answered.same_held_iff {role : Role} (hheld : l.Holds i role)
    (hrole : ∀ place, role ≠ .fresh place) {k : Nat} {r : Request} (hr : rs[k]? = some r) :
    is[k]? = some i ↔ r.role (place + k) = role := by
  have hheld' := hheld.grows h.grows
  obtain ⟨i', hi', -⟩ := h.exists_local hr
  have hholds := h.holds hr hi'
  rw [hi', Option.some.injEq]
  constructor
  · rintro rfl
    rcases hholds.role_eq h.sound hheld' with heq | ⟨_, p, -, hp⟩
    · exact heq
    · exact absurd hp (hrole p)
  · intro heq
    exact Holds.local_eq (heq ▸ hholds) hheld' hrole

end

/-! ## Parameters -/

theorem getElem?_paramSlots {ts : List FieldType} {i : Nat} {t : FieldType} (h : ts[i]? = some t)
    (s : Nat) : (paramSlots s (ts.map FieldType.kind))[i]? =
      some (s + ((ts.take i).map FieldType.slots).foldr (· + ·) 0, t.kind) := by
  induction ts generalizing s i with
  | nil => cases h
  | cons u ts ih =>
    cases i with
    | zero =>
      cases h
      rfl
    | succ i =>
      refine (ih h (s + u.slots)).trans ?_
      rw [List.take_succ_cons, List.map_cons, List.foldr_cons, Nat.add_assoc]

theorem slots_take_lt {ts : List FieldType} {i : Nat} {t : FieldType} (h : ts[i]? = some t) :
    ((ts.take i).map FieldType.slots).foldr (· + ·) 0 <
      (ts.map FieldType.slots).foldr (· + ·) 0 := by
  induction ts generalizing i with
  | nil => cases h
  | cons u ts ih =>
    cases i with
    | zero =>
      have hpos : 0 < u.slots := by
        unfold FieldType.slots
        split <;> decide
      exact Nat.add_pos_left hpos _
    | succ i =>
      have := ih h
      simp only [List.take_succ_cons, List.map_cons, List.foldr_cons]
      omega

/-! ## Declarations -/

/-- Runs that declare types one by one, as few as there can be. Their counts are words, whatever
number of locals a run has. -/
inductive Declares : List LocalRun → List ValType → Prop
  | nil : Declares [] []
  | run {n : Nat} {r : LocalRun} {rs : List LocalRun} {ts : List ValType} : 0 < n →
      r.count = .ofNat n → (∀ r' ∈ rs.head?, r.type ≠ r'.type) → Declares rs ts →
      Declares (r :: rs) (.replicate n r.type ++ ts)

theorem declares_runs (ts : List ValType) : Declares (runs ts) ts := by
  induction ts with
  | nil => exact .nil
  | cons t ts ih =>
    unfold runs
    split
    · next r rs hr =>
      rw [hr] at ih
      split
      · next ht =>
        subst ht
        cases ih with
        | run hn hcount hhead htail =>
          rw [← List.cons_append, ← List.replicate_succ]
          refine .run (Nat.succ_pos _) ?_ hhead htail
          dsimp only
          rw [hcount, UInt32.ofNat_add]
          rfl
      · next ht =>
        refine .run (n := 1) Nat.one_pos rfl (fun r' hr' => ?_) ih
        cases hr'
        exact Ne.symm ht
    · next hr =>
      rw [hr] at ih
      cases ih
      exact .run (n := 1) Nat.one_pos rfl nofun .nil

theorem Declares.isChain {rs : List LocalRun} {ts : List ValType} (h : Declares rs ts) :
    rs.IsChain fun r r' => r.type ≠ r'.type := by
  induction h with
  | nil => exact .nil
  | run _ _ hhead _ ih => exact List.isChain_cons.mpr ⟨hhead, ih⟩

end Locals

/-- The variable that a parameter arrives in lies behind what the parameters before it take. -/
def paramVariable (m : MethodType) (i : Nat) : Nat :=
  ((m.params.take i).map FieldType.slots).foldr (· + ·) 0

/-- Locals `is` that requests got of those of a method, which are then `L`. Locals are numbered by
words, so only as many as there are words are told apart by their numbers (`apart`, `apart_param`);
that a request for the same role gets the same local does not depend on that (`same`, `same_param`).
Runs count in words too, so only locals that a word can count are all had back from the counts
(`expands`). What each run stands for does not depend on that (`declares`). -/
structure KeepsApart (m : MethodType) (rs : List Request) (is : List UInt32) (L : Locals) :
    Prop where
  length : is.length = rs.length
  param_type : ∀ {i : Nat} {t : FieldType}, m.params[i]? = some t →
    L.types[i]? = some (.ofKind t.kind)
  param_slot : ∀ {i : Nat} {t : FieldType}, m.params[i]? = some t →
    paramVariable m i < 255 ∧ L.slot (paramVariable m i) t.kind = (.ofNat i, L)
  type : L.types.size ≤ 2 ^ 32 → ∀ {k : Nat} {i : UInt32} {r : Request}, rs[k]? = some r →
    is[k]? = some i → L.types[i.toNat]? = some r.type
  same : ∀ {k k' : Nat} {r r' : Request}, rs[k]? = some r → rs[k']? = some r' →
    r.role k = r'.role k' → is[k]? = is[k']?
  apart : L.types.size ≤ 2 ^ 32 → ∀ {k k' : Nat} {r r' : Request}, rs[k]? = some r →
    rs[k']? = some r' → is[k]? = is[k']? → r.role k = r'.role k'
  same_param : ∀ {k i : Nat} {r : Request} {t : FieldType}, rs[k]? = some r →
    m.params[i]? = some t → r.role k = .slot (paramVariable m i) t.kind → is[k]? = some (.ofNat i)
  apart_param : L.types.size ≤ 2 ^ 32 → ∀ {k i : Nat} {r : Request} {t : FieldType},
    rs[k]? = some r → m.params[i]? = some t → is[k]? = some (.ofNat i) →
      r.role k = .slot (paramVariable m i) t.kind
  declares : Locals.Declares L.declarations (L.types.toList.drop m.params.length)
  expands : L.types.size < 2 ^ 32 →
    Locals.expand L.declarations = L.types.toList.drop m.params.length
  runs_apart : L.declarations.IsChain fun r r' => r.type ≠ r'.type

theorem paramVariable_lt {m : MethodType} (hm : m.Valid) {i : Nat} {t : FieldType}
    (h : m.params[i]? = some t) : paramVariable m i < 255 :=
  (Locals.slots_take_lt h).trans_le hm.slots

/-- The locals of a method before any request. -/
def paramLocals (m : MethodType) : Locals := .ofParams (m.params.map FieldType.kind)

theorem holds_param {m : MethodType} {i : Nat} {t : FieldType} (h : m.params[i]? = some t) :
    (paramLocals m).Holds i (.slot (paramVariable m i) t.kind) := by
  obtain ⟨-, -, -, -, hslots⟩ := Locals.ofParams_spec (m.params.map FieldType.kind)
  refine (hslots _ i).mpr ?_
  rw [Locals.getElem?_paramSlots h, Nat.zero_add]
  rfl

/-- Any sequence of requests, after the parameters that a descriptor has. Requests get the same
local if they are made for the same role, and a parameter if they are made for the variable and kind
of that; while there are no more locals than words, they do so only then. Locals have the types that
they are wanted with, and runs declare those that are no parameters. -/
theorem locals_apart {text : Text} {m : MethodType} (hm : Descriptor.parseMethod text = .ok m)
    (rs : List Request) :
    KeepsApart m rs (answers rs (paramLocals m)).1 (answers rs (paramLocals m)).2 := by
  obtain ⟨hsound, hcount, -⟩ := Locals.ofParams_spec (m.params.map FieldType.kind)
  obtain ⟨is, hwords, h⟩ := Locals.answered rs 0 (l := paramLocals m) hsound
  rw [hwords]
  have hparams : (answers rs (paramLocals m)).2.params = m.params.length :=
    h.grows.params.trans (hcount.trans (List.length_map _))
  have hheld {i : Nat} {t : FieldType} (ht : m.params[i]? = some t) :
      (answers rs (paramLocals m)).2.Holds i (.slot (paramVariable m i) t.kind) :=
    (holds_param ht).grows h.grows
  have htype {i : Nat} {t : FieldType} (ht : m.params[i]? = some t) := h.sound.slots _ _ (hheld ht)
  have hsame {k k' : Nat} {r r' : Request} (hr : rs[k]? = some r) (hr' : rs[k']? = some r') :
      is[k]? = is[k']? ↔ r.role k = r'.role k' := by
    simpa only [Nat.zero_add] using h.same_iff hr hr'
  have hparam {k i : Nat} {r : Request} {t : FieldType} (hr : rs[k]? = some r)
      (ht : m.params[i]? = some t) :
      is[k]? = some i ↔ r.role k = .slot (paramVariable m i) t.kind := by
    simpa only [Nat.zero_add] using h.same_held_iff (holds_param ht) nofun hr
  have hdeclares : Locals.Declares (answers rs (paramLocals m)).2.declarations
      ((answers rs (paramLocals m)).2.types.toList.drop m.params.length) :=
    hparams ▸ Locals.declares_runs _
  refine ⟨(List.length_map _).trans h.length, htype,
    fun ht => ⟨paramVariable_lt (Descriptor.parseMethod_eq_ok.mp hm).1 ht, (hheld ht).slot_eq⟩,
    fun hfew k w r hr hw => ?type, fun hr hr' hrole => ?same, fun hfew k k' r r' hr hr' hw => ?apart,
    fun hr ht hrole => ?same_param, fun hfew k i r t hr ht hw => ?apart_param, hdeclares,
    fun hsize => ?expands, hdeclares.isChain⟩
  case type =>
    obtain ⟨i, hi, hlt⟩ := h.exists_local hr
    obtain rfl := Option.some.inj (hw.symm.trans ((h.word_eq_iff hfew hr hlt).mpr hi))
    rw [Locals.toNat_index hfew hlt]
    exact h.types hr hi
  case same => rw [List.getElem?_map, List.getElem?_map, (hsame hr hr').mpr hrole]
  case apart =>
    obtain ⟨i, hi, hlt⟩ := h.exists_local hr'
    rw [(h.word_eq_iff hfew hr' hlt).mpr hi, h.word_eq_iff hfew hr hlt, ← hi] at hw
    exact (hsame hr hr').mp hw
  case same_param => rw [List.getElem?_map, (hparam hr ht).mpr hrole, Option.map_some]
  case apart_param =>
    exact (hparam hr ht).mp ((h.word_eq_iff hfew hr (Locals.lt_size_of_type (htype ht))).mp hw)
  case expands => rw [Locals.expand_declarations hsize, hparams]

/-- An `int`, a `long` and a `float`. -/
def wideMethod : MethodType :=
  ⟨[⟨0, .primitive .int⟩, ⟨0, .primitive .long⟩, ⟨0, .primitive .float⟩], none⟩

def mixedRequests : List Request :=
  [.slot 3 .float, .slot 3 .int, .temp .i32 1, .slot 1 .long, .fresh .i32, .temp .i32 0,
    .slot 3 .int, .temp .i64 0, .fresh .i32, .temp .i32 1]

/-- The `float` arrives behind two words of the `long`; an `int` in the same variable has another
local, and the second scratch local brings the first with it. -/
theorem locals_apart_mixed : Descriptor.parseMethod "(IJF)V" = .ok wideMethod ∧
    (answers mixedRequests (paramLocals wideMethod)).1 = [2, 3, 5, 1, 6, 4, 3, 7, 8, 5] ∧
    KeepsApart wideMethod mixedRequests [2, 3, 5, 1, 6, 4, 3, 7, 8, 5]
      (answers mixedRequests (paramLocals wideMethod)).2 := by
  have hm : Descriptor.parseMethod "(IJF)V" = .ok wideMethod := by cbv
  exact ⟨hm, rfl, locals_apart hm mixedRequests⟩

end Lowering

end ClassWasm
