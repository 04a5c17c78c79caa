/-
  Computations that can fail, one behind the other, with a state and over lists, and lists whose
  items correspond one by one.
-/
import Mathlib.Tactic

namespace ClassWasm

/-! ## Sequences -/

/-- A sequence of two steps succeeds when both do. -/
theorem bind_eq_ok {ε α β : Type} {x : Except ε α} {f : α → Except ε β} {b : β} :
    (x >>= f) = .ok b ↔ ∃ a, x = .ok a ∧ f a = .ok b := by
  cases x with
  | error e =>
    refine ⟨fun h => ?_, fun ⟨_, h, _⟩ => ?_⟩ <;> cases h
  | ok a =>
    refine ⟨fun h => ⟨a, rfl, h⟩, fun ⟨_, h, hf⟩ => ?_⟩
    cases h
    exact hf

theorem ok_of_toOption {ε α : Type} {x : Except ε α} {a : α} (h : x.toOption = some a) :
    x = .ok a := by
  cases x with
  | error e => cases h
  | ok b =>
    cases h
    rfl

theorem exists_error_iff {ε α : Type} {x : Except ε α} :
    (∃ e, x = .error e) ↔ ¬ ∃ a, x = .ok a := by
  cases x <;> simp

theorem mapError_eq_ok {ε ε' α : Type} {f : ε → ε'} {x : Except ε α} {a : α}
    (h : x.mapError f = .ok a) : x = .ok a := by
  cases x with
  | error e => cases h
  | ok b =>
    cases h
    rfl

theorem map_eq_ok {ε α β : Type} {x : Except ε α} {f : α → β} {b : β} (h : x.map f = .ok b) :
    ∃ a, x = .ok a ∧ f a = b := by
  cases x with
  | error e => cases h
  | ok a =>
    cases h
    exact ⟨a, rfl, rfl⟩

/-! ## States -/

section

variable {ε σ α β : Type} {R : σ → σ → Prop}

/-- The states before and after are related, however the computation ends. -/
def Moves (R : σ → σ → Prop) (x : EStateM ε σ α) : Prop :=
  ∀ s, match x s with
    | .ok _ s' => R s s'
    | .error _ s' => R s s'

theorem moves_modifyGet {f : σ → α × σ} (h : ∀ s, R s (f s).2) :
    Moves R (modifyGet f : EStateM ε σ α) := h

theorem moves_modify {f : σ → σ} (h : ∀ s, R s (f s)) : Moves R (modify f : EStateM ε σ Unit) := h

variable [Std.Refl R]

theorem moves_pure (a : α) : Moves R (pure a : EStateM ε σ α) := fun s => Std.Refl.refl s

theorem moves_throw (e : ε) : Moves R (throw e : EStateM ε σ α) := fun s => Std.Refl.refl s

theorem moves_get : Moves R (get : EStateM ε σ σ) := fun s => Std.Refl.refl s

variable [IsTrans σ R]

omit [Std.Refl R] in
theorem Moves.bind {x : EStateM ε σ α} {f : α → EStateM ε σ β} (hx : Moves R x)
    (hf : ∀ a, Moves R (f a)) : Moves R (x >>= f) := by
  intro s
  have hx := hx s
  change match EStateM.bind x f s with
    | .ok _ s' => R s s'
    | .error _ s' => R s s'
  unfold EStateM.bind
  cases hrun : x s with
  | error e s' =>
    rw [hrun] at hx
    exact hx
  | ok a s' =>
    rw [hrun] at hx
    have hf := hf a s'
    dsimp only
    cases hrest : f a s' <;> rw [hrest] at hf <;> exact IsTrans.trans _ _ _ hx hf

theorem moves_forM {f : α → EStateM ε σ Unit} {as : List α} (hf : ∀ a ∈ as, Moves R (f a)) :
    Moves R (as.forM f) := by
  induction as with
  | nil => exact moves_pure ()
  | cons a as ih =>
    exact (hf a List.mem_cons_self).bind fun _ => ih fun b hb => hf b (List.mem_cons_of_mem _ hb)

theorem moves_mapM {f : α → EStateM ε σ β} (hf : ∀ a, Moves R (f a)) (as : List α) :
    Moves R (as.mapM f) := by
  induction as with
  | nil => exact moves_pure []
  | cons a as ih =>
    rw [List.mapM_cons]
    exact (hf a).bind fun _ => ih.bind fun _ => moves_pure _

end

/-- What holds of a state holds of the next. -/
def Keeping {σ : Type} (P : σ → Prop) (s s' : σ) : Prop := P s → P s'

instance {σ : Type} {P : σ → Prop} : Std.Refl (Keeping P) := ⟨fun _ h => h⟩

instance {σ : Type} {P : σ → Prop} : IsTrans σ (Keeping P) := ⟨fun _ _ _ h h' hs => h' (h hs)⟩

/-- A view of the state is the same before and after. -/
def Same {σ β : Type} (view : σ → β) (s s' : σ) : Prop := view s' = view s

instance {σ β : Type} {view : σ → β} : Std.Refl (Same view) := ⟨fun _ => rfl⟩

instance {σ β : Type} {view : σ → β} : IsTrans σ (Same view) := ⟨fun _ _ _ h h' => h'.trans h⟩

theorem Moves.of_ok {ε σ α : Type} {R : σ → σ → Prop} {x : EStateM ε σ α} (h : Moves R x) {s s' : σ}
    {a : α} (hx : x s = .ok a s') : R s s' := by
  have hs := h s
  rw [hx] at hs
  exact hs

theorem Moves.of_error {ε σ α : Type} {R : σ → σ → Prop} {x : EStateM ε σ α} (h : Moves R x)
    {s s' : σ} {e : ε} (hx : x s = .error e s') : R s s' := by
  have hs := h s
  rw [hx] at hs
  exact hs

theorem run_bind_eq_ok {ε σ α β : Type} {x : EStateM ε σ α} {f : α → EStateM ε σ β} {s s' : σ}
    {b : β} : (x >>= f) s = .ok b s' ↔ ∃ a s₁, x s = .ok a s₁ ∧ f a s₁ = .ok b s' := by
  change EStateM.bind x f s = _ ↔ _
  unfold EStateM.bind
  cases x s with
  | error e s₁ => exact ⟨nofun, nofun⟩
  | ok a s₁ =>
    refine ⟨fun h => ⟨a, s₁, rfl, h⟩, ?_⟩
    rintro ⟨_, _, hx, h⟩
    cases hx
    exact h

theorem run_get_bind {ε σ β : Type} {f : σ → EStateM ε σ β} {s : σ} :
    ((get : EStateM ε σ σ) >>= f) s = f s s := rfl

/-- What one call adds to what holds, calls for a whole list add one behind the other. -/
theorem forM_run {ε σ α : Type} {f : α → EStateM ε σ Unit} {P : List α → σ → Prop}
    (hf : ∀ done a s s', P done s → f a s = .ok () s' → P (done ++ [a]) s') {as done : List α}
    {s s' : σ} (hs : P done s) (h : as.forM f s = .ok () s') : P (done ++ as) s' := by
  induction as generalizing done s with
  | nil =>
    cases h
    rw [List.append_nil]
    exact hs
  | cons a as ih =>
    obtain ⟨_, s₁, ha, hrest⟩ := run_bind_eq_ok.mp h
    rw [← List.singleton_append, ← List.append_assoc]
    exact ih (hf done a s s₁ hs ha) hrest

theorem run_bind_eq_error {ε σ α β : Type} {x : EStateM ε σ α} {f : α → EStateM ε σ β} {s s' : σ}
    {e : ε} : (x >>= f) s = .error e s' ↔
      x s = .error e s' ∨ ∃ a s₁, x s = .ok a s₁ ∧ f a s₁ = .error e s' := by
  change EStateM.bind x f s = _ ↔ _
  unfold EStateM.bind
  cases x s with
  | error e₁ s₁ =>
    refine ⟨fun h => .inl ?_, ?_⟩
    · cases h
      rfl
    · rintro (h | ⟨_, _, hx, -⟩)
      · cases h
        rfl
      · cases hx
  | ok a s₁ =>
    refine ⟨fun h => .inr ⟨a, s₁, rfl, h⟩, ?_⟩
    rintro (h | ⟨_, _, hx, h⟩)
    · cases h
    · cases hx
      exact h

/-- A call that fails among calls for a list, in a state that the calls before it lead to. -/
theorem forM_error {ε σ α : Type} {R : σ → σ → Prop} [Std.Refl R] [IsTrans σ R]
    {f : α → EStateM ε σ Unit} {as : List α} (hf : ∀ a ∈ as, Moves R (f a)) {s s' : σ} {e : ε}
    (h : as.forM f s = .error e s') : ∃ a ∈ as, ∃ s₁, R s s₁ ∧ f a s₁ = .error e s' := by
  induction as generalizing s with
  | nil => cases h
  | cons a as ih =>
    rcases run_bind_eq_error.mp h with h | ⟨_, s₁, ha, h⟩
    · exact ⟨a, List.mem_cons_self, s, Std.Refl.refl s, h⟩
    · obtain ⟨b, hb, s₂, hs₂, h⟩ := ih (fun b hb => hf b (List.mem_cons_of_mem _ hb)) h
      have hs₁ := (hf a List.mem_cons_self).of_ok ha
      exact ⟨b, List.mem_cons_of_mem _ hb, s₂, IsTrans.trans _ _ _ hs₁ hs₂, h⟩

/-- All errors of the computation have the property `Q`. -/
def Throws {ε σ α : Type} (Q : ε → Prop) (x : EStateM ε σ α) : Prop :=
  ∀ s e s', x s = .error e s' → Q e

section

variable {ε σ α β : Type} {Q : ε → Prop}

theorem throws_pure (a : α) : Throws Q (pure a : EStateM ε σ α) := nofun

theorem throws_get : Throws Q (get : EStateM ε σ σ) := nofun

theorem throws_modify (f : σ → σ) : Throws Q (modify f : EStateM ε σ Unit) := nofun

theorem throws_modifyGet (f : σ → α × σ) : Throws Q (modifyGet f : EStateM ε σ α) := nofun

theorem throws_throw {e : ε} (h : Q e) : Throws Q (throw e : EStateM ε σ α) := by
  intro s e' s' hrun
  cases hrun
  exact h

theorem Throws.bind {x : EStateM ε σ α} {f : α → EStateM ε σ β} (hx : Throws Q x)
    (hf : ∀ a, Throws Q (f a)) : Throws Q (x >>= f) := by
  intro s e s' hrun
  rcases run_bind_eq_error.mp hrun with h | ⟨a, s₁, -, h⟩
  · exact hx s e s' h
  · exact hf a s₁ e s' h

theorem throws_forM {f : α → EStateM ε σ Unit} {as : List α} (hf : ∀ a ∈ as, Throws Q (f a)) :
    Throws Q (as.forM f) := by
  induction as with
  | nil => exact throws_pure ()
  | cons a as ih =>
    exact (hf a List.mem_cons_self).bind fun _ => ih fun b hb => hf b (List.mem_cons_of_mem _ hb)

/-- A sequence that fails keeps what its first step keeps and the rest keeps where it fails. -/
theorem Moves.bind_error {P : σ → Prop} {x : EStateM ε σ α} {f : α → EStateM ε σ β} {s s' : σ}
    {e : ε} (hx : Moves (Keeping P) x) (hs : P s) (hrun : (x >>= f) s = .error e s')
    (hf : ∀ a s₁, P s₁ → f a s₁ = .error e s' → P s') : P s' := by
  rcases run_bind_eq_error.mp hrun with h | ⟨a, s₁, ha, h⟩
  · exact hx.of_error h hs
  · exact hf a s₁ (hx.of_ok ha hs) h

end

/-! ## Lists -/

theorem forall₂_of_mapM {ε α β : Type} {f : α → Except ε β} {as : List α} {bs : List β}
    (h : as.mapM f = .ok bs) : List.Forall₂ (fun a b => f a = .ok b) as bs := by
  induction as generalizing bs with
  | nil => cases h; exact .nil
  | cons a as ih =>
    rw [List.mapM_cons] at h
    obtain ⟨b, hb, h⟩ := bind_eq_ok.mp h
    obtain ⟨bs', hbs, h⟩ := bind_eq_ok.mp h
    cases h
    exact .cons hb (ih hbs)

/-- A list can be mapped where all its items can. -/
theorem exists_mapM {ε α β : Type} {f : α → Except ε β} {as : List α} :
    (∃ bs, as.mapM f = .ok bs) ↔ ∀ a ∈ as, ∃ b, f a = .ok b := by
  induction as with
  | nil => exact ⟨fun _ => nofun, fun _ => ⟨[], rfl⟩⟩
  | cons a as ih =>
    rw [List.forall_mem_cons, ← ih, List.mapM_cons]
    constructor
    · rintro ⟨_, h⟩
      obtain ⟨b, hb, h⟩ := bind_eq_ok.mp h
      obtain ⟨bs, hbs, -⟩ := bind_eq_ok.mp h
      exact ⟨⟨b, hb⟩, bs, hbs⟩
    · rintro ⟨⟨b, hb⟩, bs, hbs⟩
      exact ⟨b :: bs, bind_eq_ok.mpr ⟨b, hb, bind_eq_ok.mpr ⟨bs, hbs, rfl⟩⟩⟩

theorem mapM_congr {m : Type → Type} [Monad m] [LawfulMonad m] {α β : Type} {f g : α → m β}
    {as : List α} (h : ∀ a ∈ as, f a = g a) : as.mapM f = as.mapM g := by
  induction as with
  | nil => rfl
  | cons a as ih =>
    rw [List.mapM_cons, List.mapM_cons, h a List.mem_cons_self,
      ih fun b hb => h b (List.mem_cons_of_mem a hb)]

theorem mapM_eq_ok_map {ε α β : Type} {f : α → Except ε β} {g : α → β} {as : List α}
    (h : ∀ a ∈ as, f a = .ok (g a)) : as.mapM f = .ok (as.map g) :=
  (mapM_congr h).trans List.mapM_pure

/-- What every step keeps and does, a whole fold keeps and does. -/
theorem foldlM_rel {ε α β : Type} {f : β → α → Except ε β} {P : β → Prop} {R : β → β → Prop}
    (hrefl : ∀ x, R x x) (htrans : ∀ x y z, R x y → R y z → R x z)
    (hf : ∀ x a y, P x → f x a = .ok y → P y ∧ R x y) {l : List α} {x y : β} (hx : P x)
    (h : l.foldlM f x = .ok y) : P y ∧ R x y := by
  induction l generalizing x with
  | nil =>
    cases h
    exact ⟨hx, hrefl _⟩
  | cons a l ih =>
    obtain ⟨z, hz, h⟩ := bind_eq_ok.mp h
    obtain ⟨hpz, hxz⟩ := hf x a z hx hz
    obtain ⟨hpy, hzy⟩ := ih hpz h
    exact ⟨hpy, htrans x z y hxz hzy⟩

/-- A fold whose result says that nothing has moved has not moved at any step. -/
theorem foldlM_still {ε α β : Type} {f : β → α → Except ε β} {still : β → Prop}
    (hf : ∀ x a y, f x a = .ok y → still y → y = x) {l : List α} {x y : β}
    (h : l.foldlM f x = .ok y) (hy : still y) : y = x ∧ ∀ a ∈ l, f x a = .ok x := by
  induction l generalizing x with
  | nil =>
    cases h
    exact ⟨rfl, fun a ha => (List.not_mem_nil ha).elim⟩
  | cons a l ih =>
    obtain ⟨z, hz, h⟩ := bind_eq_ok.mp h
    obtain ⟨rfl, hl⟩ := ih h
    have hyx := hf x a y hz hy
    subst hyx
    refine ⟨rfl, fun b hb => ?_⟩
    rcases List.mem_cons.mp hb with rfl | hb
    · exact hz
    · exact hl b hb

/-- A fold that fails does so at one item, behind others that it went through. -/
theorem foldlM_eq_error {ε α β : Type} {f : β → α → Except ε β} {l : List α} {x : β} {e : ε}
    (h : l.foldlM f x = .error e) :
    ∃ done a y, done ++ [a] <+: l ∧ done.foldlM f x = .ok y ∧ f y a = .error e := by
  induction l generalizing x with
  | nil => cases h
  | cons a l ih =>
    rw [List.foldlM_cons] at h
    cases ha : f x a with
    | error e' =>
      rw [ha] at h
      cases h
      exact ⟨[], a, x, by simp, rfl, ha⟩
    | ok z =>
      rw [ha] at h
      obtain ⟨done, b, y, hl, hy, hb⟩ := ih h
      refine ⟨a :: done, b, y, by simpa using hl, ?_, hb⟩
      rw [List.foldlM_cons, ha]
      exact hy

theorem getElem?_of_prefix {α : Type} {as bs : List α} (h : as <+: bs) {i : Nat} {a : α}
    (hi : as[i]? = some a) : bs[i]? = some a := by
  obtain ⟨hlt, -⟩ := List.getElem?_eq_some_iff.mp hi
  obtain ⟨added, rfl⟩ := h
  rw [List.getElem?_append_left hlt]
  exact hi

/-- What stands at the front of a sequence stands at the front of its first part, or is that part
and something at the front of the second. -/
theorem prefix_append_cases {α : Type} {done before behind : List α}
    (h : done <+: before ++ behind) :
    done <+: before ∨ ∃ more, done = before ++ more ∧ more <+: behind := by
  rcases List.prefix_or_prefix_of_prefix h (List.prefix_append before behind) with h' | ⟨more, rfl⟩
  · exact .inl h'
  · exact .inr ⟨more, rfl, (List.prefix_append_right_inj before).mp h⟩

theorem prefix_concat_cases {α : Type} {done before behind : List α} {a : α}
    (h : done ++ [a] <+: before ++ behind) :
    done ++ [a] <+: before ∨ ∃ more, done = before ++ more ∧ more ++ [a] <+: behind := by
  rcases prefix_append_cases h with h | ⟨more, hmore, hprefix⟩
  · exact .inl h
  · rcases List.eq_nil_or_concat more with rfl | ⟨most, b, rfl⟩
    · rw [List.append_nil] at hmore
      exact .inl (hmore ▸ List.prefix_rfl)
    · rw [List.concat_eq_append, ← List.append_assoc] at hmore
      obtain ⟨rfl, hab⟩ := List.append_inj' hmore rfl
      cases hab
      exact .inr ⟨most, rfl, List.concat_eq_append ▸ hprefix⟩

theorem prefix_single {α : Type} {done : List α} {a : α} (h : done <+: [a]) :
    done = [] ∨ done = [a] := by
  rcases List.prefix_cons_iff.mp h with rfl | ⟨more, rfl, hmore⟩
  · exact .inl rfl
  · exact .inr (by rw [List.prefix_nil.mp hmore])

theorem prefix_concat_single {α : Type} {done : List α} {a b : α} (h : done ++ [b] <+: [a]) :
    done = [] ∧ b = a := by
  rcases prefix_single h with h | h
  · exact absurd h (by simp)
  · exact List.append_eq_singleton_iff.mp h |>.elim
      (fun h => ⟨h.1, List.singleton_inj.mp h.2⟩) (fun h => absurd h.2 (by simp))

theorem length_le_flatMap {α β : Type} {f : α → List β} {as : List α} {a : α} (h : a ∈ as) :
    (f a).length ≤ (as.flatMap f).length := by
  rw [List.flatMap_def]
  exact (List.sublist_flatten_of_mem (List.mem_map_of_mem h)).length_le

/-! ## Items that correspond -/

theorem mem_left_of_forall₂ {α β : Type} {R : α → β → Prop} {as : List α} {bs : List β}
    (h : List.Forall₂ R as bs) {b : β} (hb : b ∈ bs) : ∃ a ∈ as, R a b := by
  induction h with
  | nil => cases hb
  | cons hab _ ih =>
    rcases List.mem_cons.mp hb with rfl | hb
    · exact ⟨_, List.mem_cons_self, hab⟩
    · obtain ⟨a, ha, hr⟩ := ih hb
      exact ⟨a, List.mem_cons_of_mem _ ha, hr⟩

theorem mem_right_of_forall₂ {α β : Type} {R : α → β → Prop} {as : List α} {bs : List β}
    (h : List.Forall₂ R as bs) {a : α} (ha : a ∈ as) : ∃ b ∈ bs, R a b := by
  obtain ⟨b, hb, hr⟩ := mem_left_of_forall₂ (R := fun b a => R a b) h.flip ha
  exact ⟨b, hb, hr⟩

theorem exists_forall₂_iff {α β : Type} {R : α → β → Prop} {as : List α} :
    (∃ bs, List.Forall₂ R as bs) ↔ ∀ a ∈ as, ∃ b, R a b := by
  induction as with
  | nil => exact ⟨fun _ => nofun, fun _ => ⟨[], .nil⟩⟩
  | cons a as ih =>
    rw [List.forall_mem_cons, ← ih]
    constructor
    · rintro ⟨_, h⟩
      cases h with
      | cons hb hbs => exact ⟨⟨_, hb⟩, _, hbs⟩
    · rintro ⟨⟨b, hb⟩, bs, hbs⟩
      exact ⟨b :: bs, .cons hb hbs⟩

/-- Every item has one that corresponds to it at the same position. -/
theorem getElem?_of_forall₂ {α β : Type} {R : α → β → Prop} {as : List α} {bs : List β}
    (h : List.Forall₂ R as bs) {k : Nat} {a : α} (ha : as[k]? = some a) :
    ∃ b, bs[k]? = some b ∧ R a b := by
  obtain ⟨hk, rfl⟩ := List.getElem?_eq_some_iff.mp ha
  have hk' : k < bs.length := h.length_eq ▸ hk
  exact ⟨bs[k], List.getElem?_eq_getElem hk', h.get hk hk'⟩

theorem map_eq_of_forall₂ {α β γ : Type} {f : α → γ} {g : β → γ} {as : List α} {bs : List β}
    (h : List.Forall₂ (fun a b => g b = f a) as bs) : bs.map g = as.map f := by
  induction h with
  | nil => rfl
  | cons hab _ ih => rw [List.map_cons, List.map_cons, hab, ih]

end ClassWasm
