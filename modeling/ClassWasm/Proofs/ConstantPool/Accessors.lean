/-
  What has been checked once, when a pool was read, need not be checked again: a look-up that goes
  from entry to entry can fail at its first step only. `Exact` says so of one kind of look-up. An
  entry that the first step accepts has its requirements met (`Resolves`), which is what the
  look-up of the kind below needs; so the kinds are treated one after the other, from texts to
  members. Main result: `lookups_exact`.
-/
import ClassWasm.Proofs.ClassFile.Building

namespace ClassWasm

namespace Pool

/-! ## What stands in a pool -/

/-- The entry stands in the slot. -/
def Holds (p : Pool) (i : PoolIndex) (e : Entry) : Prop := p.slots.toList[i.toNat]? = some (some e)

/-- No entry can stand there: at zero, past the last slot, and behind an entry that takes two. -/
def Vacant (p : Pool) (i : PoolIndex) : Prop :=
  i = 0 ∨ p.size ≤ i.toNat ∨ ∃ j e, p.Holds j e ∧ e.isWide ∧ i.toNat = j.toNat + 1

def TextAt (p : Pool) (i : PoolIndex) (text : Text) : Prop := p.Holds i (.utf8 text)

def ClassAt (p : Pool) (i : PoolIndex) (name : Text) : Prop :=
  ∃ n, p.Holds i (.classRef n) ∧ p.TextAt n name

def NameAndTypeAt (p : Pool) (i : PoolIndex) (text : Text × Text) : Prop :=
  ∃ n d, p.Holds i (.nameAndType n d) ∧ p.TextAt n text.1 ∧ p.TextAt d text.2

/-- The indices of a member lead to its owner, its name and its descriptor. -/
def MemberAt (p : Pool) (owner nameAndType : PoolIndex) (ref : MemberRef) : Prop :=
  p.ClassAt owner ref.owner ∧ p.NameAndTypeAt nameAndType (ref.name, ref.descriptor)

def FieldAt (p : Pool) (i : PoolIndex) (ref : MemberRef) : Prop :=
  ∃ owner nameAndType, p.Holds i (.fieldRef owner nameAndType) ∧ p.MemberAt owner nameAndType ref

def MethodAt (p : Pool) (i : PoolIndex) (ref : MemberRef) : Prop :=
  ∃ owner nameAndType, (p.Holds i (.methodRef owner nameAndType) ∨
    p.Holds i (.interfaceMethodRef owner nameAndType)) ∧ p.MemberAt owner nameAndType ref

/-- The error speaks of the index itself and of the tags that were wanted there. -/
def Error.IsSymbol (i : PoolIndex) (tags : List Tag) (x : Error) : Prop :=
  (∃ reason, x = .unavailable i tags reason) ∨ ∃ found, x = .wrongTag i found tags

/-- The look-up finds what entries with one of the tags lead to, wherever there is such an entry.
Elsewhere it fails at once, and the error tells whether there is an entry at all. -/
structure Exact {α : Type} (p : Pool) (tags : List Tag) (At : PoolIndex → α → Prop)
    (find : PoolIndex → Except Error α) : Prop where
  found (i : PoolIndex) : (∃ a, find i = .ok a) ↔ ∃ e, p.Holds i e ∧ e.tag ∈ tags
  value (i : PoolIndex) (a : α) : find i = .ok a ↔ At i a
  failure (i : PoolIndex) (x : Error) : find i = .error x →
    x.IsSymbol i tags ∧ .invalidReference ∈ x.causes ∧ (.invalidIndex ∈ x.causes ↔ p.Vacant i)

/-! ## Slots of a pool that was read -/

/-- The only empty slots are those behind entries that take two. -/
theorem flatMap_slots_eq_none {es : List Entry} {k : Nat} :
    (es.flatMap Entry.slots)[k]? = some none ↔
      ∃ j e, k = j + 1 ∧ (es.flatMap Entry.slots)[j]? = some (some e) ∧ e.isWide := by
  induction es generalizing k with
  | nil => simp
  | cons e es ih =>
    rw [List.flatMap_cons, Entry.slots]
    rcases hwide : e.isWide with _ | _
    · -- The first slot is taken, and what is behind it is behind a slot of `es`.
      rcases k with _ | k
      · simp
      · rw [if_neg (by simp), List.singleton_append, List.getElem?_cons_succ, ih]
        constructor
        · rintro ⟨j, e', rfl, he', hwide'⟩
          exact ⟨j + 1, e', rfl, he', hwide'⟩
        · rintro ⟨_ | j, e', hk, he', hwide'⟩
          · cases he'
            rw [hwide] at hwide'
            cases hwide'
          · exact ⟨j, e', by omega, he', hwide'⟩
    · rcases k with _ | _ | k
      · simp
      · exact iff_of_true rfl ⟨0, e, rfl, rfl, hwide⟩
      · change (es.flatMap Entry.slots)[k]? = _ ↔ _
        rw [ih]
        constructor
        · rintro ⟨j, e', rfl, he', hwide'⟩
          exact ⟨j + 2, e', rfl, he', hwide'⟩
        · rintro ⟨_ | _ | j, e', hk, he', hwide'⟩
          · omega
          · cases he'
          · exact ⟨j, e', by omega, he', hwide'⟩

section

variable {es : List Entry} {i : PoolIndex}

theorem get_ofEntries {e : Entry} : (ofEntries es).get i = .ok e ↔ (ofEntries es).Holds i e := by
  refine get_eq_ok.trans (and_iff_right_of_imp fun h hzero => ?_)
  rw [hzero] at h
  cases h

theorem holds_unique {p : Pool} {e e' : Entry} (h : p.Holds i e) (h' : p.Holds i e') : e = e' :=
  Option.some.inj (Option.some.inj (h.symm.trans h'))

/-- Either an entry stands there, or none can. -/
theorem holds_or_vacant (es : List Entry) (i : PoolIndex) :
    (∃ e, (ofEntries es).Holds i e) ∨ (ofEntries es).Vacant i := by
  by_cases hzero : i = 0
  · exact .inr (.inl hzero)
  by_cases hsize : (ofEntries es).size ≤ i.toNat
  · exact .inr (.inr (.inl hsize))
  obtain ⟨k, hk⟩ : ∃ k, i.toNat = k + 1 :=
    Nat.exists_eq_add_one_of_ne_zero fun h => hzero (UInt16.toNat_inj.mp h)
  have hslot : (ofEntries es).slots.toList[i.toNat]? = (es.flatMap Entry.slots)[k]? := by
    rw [hk]
    rfl
  rcases hfound : (ofEntries es).slots.toList[i.toNat]? with _ | _ | e
  · exact absurd (List.getElem?_eq_none_iff.mp hfound) hsize
  · obtain ⟨j, e, rfl, he, hwide⟩ := flatMap_slots_eq_none.mp (hslot.symm.trans hfound)
    have hj : (UInt16.ofNat (j + 1)).toNat = j + 1 := by
      have := i.toNat_lt
      rw [UInt16.toNat_ofNat', Nat.mod_eq_of_lt (by omega)]
    refine .inr (.inr (.inr ⟨UInt16.ofNat (j + 1), e, ?_, hwide, by rw [hk, hj]⟩))
    unfold Holds
    rw [hj]
    exact he
  · exact .inl ⟨e, hfound⟩

theorem Vacant.not_holds (h : (ofEntries es).Vacant i) {e : Entry} :
    ¬ (ofEntries es).Holds i e := by
  intro he
  rcases h with rfl | hsize | ⟨j, e', he', hwide, hi⟩
  · cases he
  · exact absurd (List.getElem?_eq_some_iff.mp he).1 (Nat.not_lt.mpr hsize)
  · have hne : j ≠ 0 := by
      rintro rfl
      cases he'
    obtain ⟨k, hk⟩ : ∃ k, j.toNat = k + 1 :=
      Nat.exists_eq_add_one_of_ne_zero fun h => hne (UInt16.toNat_inj.mp h)
    unfold Holds at he he'
    rw [hi, hk] at he
    rw [hk] at he'
    have hnone := flatMap_slots_eq_none.mpr ⟨k, e', rfl, he', hwide⟩
    cases hnone.symm.trans he

theorem get_eq_error {p : Pool} (h : ∀ e, p.get i ≠ .ok e) :
    p.get i = .error (.noEntry i p.size) := by
  cases hget : p.get i with
  | ok e => exact absurd hget (h e)
  | error reason =>
    unfold get at hget
    split at hget
    · exact hget.symm
    · split at hget
      · cases hget
      · exact hget.symm

end

/-! ## Kinds of look-ups -/

section

variable {α : Type} {es : List Entry} {tags : List Tag} {At : PoolIndex → α → Prop}
  {find : PoolIndex → Except Error α}

/-- What the first step of a look-up comes to. -/
theorem expect_cases (es : List Entry) (i : PoolIndex) (tags : List Tag) :
    (∃ e, (ofEntries es).Holds i e ∧ e.tag ∈ tags ∧ (ofEntries es).expect i tags = .ok e) ∨
    (∃ e, (ofEntries es).Holds i e ∧ e.tag ∉ tags ∧
      (ofEntries es).expect i tags = .error (.wrongTag i e.tag tags)) ∨
    ((ofEntries es).Vacant i ∧ (ofEntries es).expect i tags =
      .error (.unavailable i tags (.noEntry i (ofEntries es).size))) := by
  rcases holds_or_vacant es i with ⟨e, he⟩ | hvacant
  · have hget := get_ofEntries.mpr he
    by_cases htag : e.tag ∈ tags
    · exact .inl ⟨e, he, htag, expect_of_get hget htag⟩
    · refine .inr (.inl ⟨e, he, htag, ?_⟩)
      unfold expect
      rw [hget]
      exact if_neg htag
  · refine .inr (.inr ⟨hvacant, ?_⟩)
    unfold expect
    rw [get_eq_error fun e he => hvacant.not_holds (get_ofEntries.mp he)]

/-- A look-up is exact whose first step is all that can fail. -/
theorem Exact.of_expect {f : PoolIndex → Entry → Except Error α}
    (hfind : ∀ i, find i = (ofEntries es).expect i tags >>= f i)
    (hrest : ∀ i e, (ofEntries es).Holds i e → e.tag ∈ tags → ∃ a, f i e = .ok a ∧ At i a)
    (hat : ∀ i a, At i a → find i = .ok a) : (ofEntries es).Exact tags At find := by
  have hstep (i : PoolIndex) :
      (∃ e a, (ofEntries es).Holds i e ∧ e.tag ∈ tags ∧ find i = .ok a ∧ At i a) ∨
      (∃ e, (ofEntries es).Holds i e ∧ e.tag ∉ tags ∧ find i = .error (.wrongTag i e.tag tags)) ∨
      ((ofEntries es).Vacant i ∧
        find i = .error (.unavailable i tags (.noEntry i (ofEntries es).size))) := by
    rw [hfind]
    rcases expect_cases es i tags with ⟨e, he, htag, h⟩ | ⟨e, he, htag, h⟩ | ⟨hvacant, h⟩
    · obtain ⟨a, ha, hat⟩ := hrest i e he htag
      exact .inl ⟨e, a, he, htag, by rw [h]; exact ha, hat⟩
    · exact .inr (.inl ⟨e, he, htag, by rw [h]; rfl⟩)
    · exact .inr (.inr ⟨hvacant, by rw [h]; rfl⟩)
  refine ⟨fun i => ?_, fun i a => ⟨fun ha => ?_, hat i a⟩, fun i x hx => ?_⟩
  · rcases hstep i with ⟨e, a, he, htag, ha, -⟩ | ⟨e, he, htag, hx⟩ | ⟨hvacant, hx⟩
    · exact iff_of_true ⟨a, ha⟩ ⟨e, he, htag⟩
    · refine iff_of_false (fun ⟨a, ha⟩ => ?_) fun ⟨e', he', htag'⟩ => ?_
      · cases hx.symm.trans ha
      · exact htag (holds_unique he he' ▸ htag')
    · refine iff_of_false (fun ⟨a, ha⟩ => ?_) fun ⟨e', he', _⟩ => hvacant.not_holds he'
      cases hx.symm.trans ha
  · rcases hstep i with ⟨_, a', -, -, ha', hat'⟩ | ⟨_, -, -, hx⟩ | ⟨-, hx⟩
    · cases ha.symm.trans ha'
      exact hat'
    · cases hx.symm.trans ha
    · cases hx.symm.trans ha
  · rcases hstep i with ⟨_, a, -, -, ha, -⟩ | ⟨e, he, -, hx'⟩ | ⟨hvacant, hx'⟩
    · cases ha.symm.trans hx
    · cases hx'.symm.trans hx
      refine ⟨.inr ⟨_, rfl⟩, List.mem_singleton.mpr rfl, iff_of_false ?_ ?_⟩
      · simp [Error.causes]
      · exact fun hvacant => hvacant.not_holds he
    · cases hx'.symm.trans hx
      refine ⟨.inl ⟨_, rfl⟩, List.mem_cons_self, iff_of_true ?_ hvacant⟩
      simp [Error.causes]

theorem Exact.of_meets {p : Pool} (h : p.Exact tags At find) {i : PoolIndex}
    (hmeets : p.Meets ⟨i, tags⟩) : ∃ a, find i = .ok a := by
  obtain ⟨e, he, htag⟩ := hmeets
  exact (h.found i).mpr ⟨e, (get_eq_ok.mp he).2, htag⟩

end

theorem utf8_exact {es : List Entry} :
    (ofEntries es).Exact [.utf8] (ofEntries es).TextAt (ofEntries es).utf8 := by
  refine .of_expect (fun _ => rfl) (fun i e he htag => ?_) fun i text h =>
    utf8_of_get (get_ofEntries.mpr h)
  cases e with
  | utf8 text => exact ⟨text, rfl, he⟩
  | _ =>
    dsimp only [Entry.tag] at htag
    exact absurd htag (by decide)

section

variable {es : List Entry} (hes : ∀ e ∈ es, (ofEntries es).Resolves e)

include hes

theorem requirements_met {i : PoolIndex} {e : Entry} (he : (ofEntries es).Holds i e)
    {rs : List Entry.Requirement} (hrs : e.requirements? = some rs) :
    ∀ r ∈ rs, (ofEntries es).Meets r := by
  obtain ⟨rs', hrs', hmeets⟩ := hes e (mem_ofEntries.mp (List.mem_of_getElem? he))
  cases hrs.symm.trans hrs'
  exact hmeets

theorem className_exact :
    (ofEntries es).Exact [.classRef] (ofEntries es).ClassAt (ofEntries es).className := by
  refine .of_expect (fun _ => rfl) (fun i e he htag => ?_) fun i name ⟨n, h, hn⟩ =>
    className_of_get (get_ofEntries.mpr h) ((utf8_exact.value n name).mpr hn)
  cases e with
  | classRef n =>
    have hmeets := requirements_met hes he rfl
    obtain ⟨name, hname⟩ := utf8_exact.of_meets (hmeets ⟨n, [.utf8]⟩ List.mem_cons_self)
    exact ⟨name, hname, n, he, (utf8_exact.value n name).mp hname⟩
  | _ =>
    dsimp only [Entry.tag] at htag
    exact absurd htag (by decide)

theorem nameAndType_exact : (ofEntries es).Exact [.nameAndType] (ofEntries es).NameAndTypeAt
    (ofEntries es).nameAndType := by
  have hutf8 (i : PoolIndex) (text : Text) :
      (ofEntries es).utf8 i = .ok text ↔ (ofEntries es).TextAt i text := utf8_exact.value i text
  refine .of_expect (fun _ => rfl) (fun i e he htag => ?_) fun i text ⟨n, d, h, hn, hd⟩ =>
    nameAndType_of_get (get_ofEntries.mpr h) ((hutf8 n _).mpr hn) ((hutf8 d _).mpr hd)
  cases e with
  | nameAndType n d =>
    have hmeets := requirements_met hes he rfl
    obtain ⟨name, hname⟩ := utf8_exact.of_meets (hmeets ⟨n, [.utf8]⟩ (by simp))
    obtain ⟨descriptor, hdescriptor⟩ := utf8_exact.of_meets (hmeets ⟨d, [.utf8]⟩ (by simp))
    refine ⟨(name, descriptor), ?_, n, d, he, (hutf8 n _).mp hname, (hutf8 d _).mp hdescriptor⟩
    dsimp only
    rw [hname, hdescriptor]
    rfl
  | _ =>
    dsimp only [Entry.tag] at htag
    exact absurd htag (by decide)

theorem member_eq_ok {owner nameAndType : PoolIndex} {ref : MemberRef} :
    (ofEntries es).member owner nameAndType = .ok ref ↔
      (ofEntries es).MemberAt owner nameAndType ref := by
  constructor
  · intro h
    obtain ⟨name, hname, h⟩ := bind_eq_ok.mp h
    obtain ⟨⟨n, d⟩, hnt, h⟩ := bind_eq_ok.mp h
    cases h
    exact ⟨((className_exact hes).value _ _).mp (mapError_eq_ok hname),
      ((nameAndType_exact hes).value _ _).mp (mapError_eq_ok hnt)⟩
  · rintro ⟨howner, hnt⟩
    exact member_of (((className_exact hes).value _ _).mpr howner)
      (((nameAndType_exact hes).value _ _).mpr hnt)

/-- Whatever refers to a member leads to one. -/
theorem exists_member {i owner nameAndType : PoolIndex} {e : Entry}
    (he : (ofEntries es).Holds i e)
    (hrs : e.requirements? = some (Entry.memberRequirements owner nameAndType)) :
    ∃ ref, (ofEntries es).member owner nameAndType = .ok ref := by
  have hmeets := requirements_met hes he hrs
  obtain ⟨name, hname⟩ := (className_exact hes).of_meets (hmeets _ List.mem_cons_self)
  obtain ⟨⟨n, d⟩, hnt⟩ := (nameAndType_exact hes).of_meets
    (hmeets _ (List.mem_cons_of_mem _ List.mem_cons_self))
  exact ⟨⟨name, n, d⟩, member_of hname hnt⟩

theorem fieldRef_exact :
    (ofEntries es).Exact [.fieldRef] (ofEntries es).FieldAt (ofEntries es).fieldRef := by
  refine .of_expect (fun _ => rfl) (fun i e he htag => ?_) fun i ref ⟨o, n, h, href⟩ => ?_
  · cases e with
    | fieldRef o n =>
      obtain ⟨ref, href⟩ := exists_member hes he rfl
      exact ⟨ref, href, o, n, he, (member_eq_ok hes).mp href⟩
    | _ =>
      dsimp only [Entry.tag] at htag
      exact absurd htag (by decide)
  · exact bind_eq_ok.mpr ⟨_, expect_of_get (get_ofEntries.mpr h) (List.mem_singleton.mpr rfl),
      (member_eq_ok hes).mpr href⟩

theorem methodRef_exact : (ofEntries es).Exact [.methodRef, .interfaceMethodRef]
    (ofEntries es).MethodAt (ofEntries es).methodRef := by
  refine .of_expect (fun _ => rfl) (fun i e he htag => ?_) fun i ref ⟨o, n, h, href⟩ => ?_
  · cases e with
    | methodRef o n =>
      obtain ⟨ref, href⟩ := exists_member hes he rfl
      exact ⟨ref, href, o, n, .inl he, (member_eq_ok hes).mp href⟩
    | interfaceMethodRef o n =>
      obtain ⟨ref, href⟩ := exists_member hes he rfl
      exact ⟨ref, href, o, n, .inr he, (member_eq_ok hes).mp href⟩
    | _ =>
      dsimp only [Entry.tag] at htag
      exact absurd htag (by decide)
  · have href := (member_eq_ok hes).mpr href
    rcases h with h | h
    · exact bind_eq_ok.mpr ⟨_, expect_of_get (get_ofEntries.mpr h) List.mem_cons_self, href⟩
    · exact bind_eq_ok.mpr ⟨_, expect_of_get (get_ofEntries.mpr h)
        (List.mem_cons_of_mem _ List.mem_cons_self), href⟩

end

/-- In a pool that was read, no look-up fails below its first step: whether it finds something
depends on the entry at the index alone, and what it finds is what the indices lead to. -/
theorem lookups_exact {c c' : Cursor} {p : Pool} (h : read c = .ok (p, c')) :
    p.Exact [.utf8] p.TextAt p.utf8 ∧
    p.Exact [.classRef] p.ClassAt p.className ∧
    p.Exact [.nameAndType] p.NameAndTypeAt p.nameAndType ∧
    p.Exact [.fieldRef] p.FieldAt p.fieldRef ∧
    p.Exact [.methodRef, .interfaceMethodRef] p.MethodAt p.methodRef := by
  obtain ⟨_, _, es, -, -, -, rfl, -, hes⟩ := inPasses_of_read h
  exact ⟨utf8_exact, className_exact hes, nameAndType_exact hes, fieldRef_exact hes,
    methodRef_exact hes⟩

/-- The method `A.f`, in front of all that it refers to, with a number in between. -/
def methodPool : Pool :=
  ⟨#[none, some (.methodRef 2 3), some (.classRef 4), some (.nameAndType 5 8), some (.utf8 "A"),
    some (.utf8 "f"), some (.long 7), none, some (.utf8 "()V")]⟩

def methodPoolBytes : Bytes :=
  [0, 9, 10, 0, 2, 0, 3, 7, 0, 4, 12, 0, 5, 0, 8, 1, 0, 1, 65, 1, 0, 1, 102,
    5, 0, 0, 0, 0, 0, 0, 0, 7, 1, 0, 3, 40, 41, 86]

theorem lookups_exact_methodPool :
    read ⟨methodPoolBytes, 0⟩ = .ok (methodPool, ⟨[], 38⟩) ∧
    methodPool.Exact [.utf8] methodPool.TextAt methodPool.utf8 ∧
    methodPool.Exact [.classRef] methodPool.ClassAt methodPool.className ∧
    methodPool.Exact [.nameAndType] methodPool.NameAndTypeAt methodPool.nameAndType ∧
    methodPool.Exact [.fieldRef] methodPool.FieldAt methodPool.fieldRef ∧
    methodPool.Exact [.methodRef, .interfaceMethodRef] methodPool.MethodAt
      methodPool.methodRef := by
  have hread : read ⟨methodPoolBytes, 0⟩ = .ok (methodPool, ⟨[], 38⟩) := by cbv
  exact ⟨hread, lookups_exact hread⟩

end Pool

end ClassWasm
