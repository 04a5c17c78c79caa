/-
  What lowering emits. `Emits n x P` says of a part `x` of lowering that it only adds to what has
  been emitted and to locals and types, at most `n` locals among them, and that `P` holds of the
  code it adds, whatever the locals and types of the whole function turn out to be.
-/
import ClassWasm.Lowering
import ClassWasm.Proofs.Lowering.Locals
import ClassWasm.Proofs.Results

namespace ClassWasm.Lowering

open Wasm (Plain Instr BlockType FuncType ValType)

/-- Locals `L` and types `T` of a whole function, of which `s` has come about on the way. Indices
have 32 bits. -/
structure Final (s : State) (L : Locals) (T : Array FuncType) : Prop where
  sound : L.Sound
  locals : s.locals.Grows L
  types : ∀ (i : Nat) f, s.types[i]? = some f → T[i]? = some f
  few_locals : L.types.size ≤ 2 ^ 32
  few_types : T.size ≤ 2 ^ 32

/-- `s'` has come about from `s` with at most `n` new locals. -/
structure Extends (n : Nat) (s s' : State) : Prop where
  sound : s'.locals.Sound
  locals : s.locals.Grows s'.locals
  types : ∀ (i : Nat) f, s.types[i]? = some f → s'.types[i]? = some f
  size : s'.locals.types.size ≤ s.locals.types.size + n

theorem Extends.refl {s : State} (h : s.locals.Sound) : Extends 0 s s :=
  ⟨h, .refl _, fun _ _ h => h, Nat.le_refl _⟩

theorem Extends.trans {m n : Nat} {a b c : State} (hab : Extends m a b) (hbc : Extends n b c) :
    Extends (m + n) a c :=
  ⟨hbc.sound, hab.locals.trans hbc.locals, fun i f h => hbc.types i f (hab.types i f h), by
    have := hab.size
    have := hbc.size
    omega⟩

theorem Final.of_extends {n : Nat} {s s' : State} {L : Locals} {T : Array FuncType}
    (h : Extends n s s') (hf : Final s' L T) : Final s L T :=
  ⟨hf.sound, h.locals.trans hf.locals, fun i f hi => hf.types i f (h.types i f hi), hf.few_locals,
    hf.few_types⟩

/-- What code a part of lowering emits, as a property of it, of the result, and of the locals and
types of the whole function. -/
abbrev Emission (α : Type) := Locals → Array FuncType → α → List Instr → Prop

def Emits {α : Type} (n : Nat) (x : M α) (P : Emission α) : Prop :=
  ∀ s a s', x s = .ok a s' → s.locals.Sound → Extends n s s' ∧
    ∃ code, s'.done = code.reverse ++ s.done ∧ ∀ L T, Final s' L T → P L T a code

variable {α β : Type} {m n : Nat}

theorem Emits.mono {x : M α} {P Q : Emission α} (h : Emits m x P) (hmn : m ≤ n)
    (hPQ : ∀ L T a code, P L T a code → Q L T a code) : Emits n x Q := by
  intro s a s' hx hs
  obtain ⟨he, code, hdone, hP⟩ := h s a s' hx hs
  have hsize := he.size
  exact ⟨⟨he.sound, he.locals, he.types, by omega⟩, code, hdone,
    fun L T hf => hPQ L T a code (hP L T hf)⟩

theorem bind_run_eq_ok {x : M α} {f : α → M β} {s s' : State} {b : β}
    (h : (x >>= f) s = .ok b s') : ∃ a s₁, x s = .ok a s₁ ∧ f a s₁ = .ok b s' :=
  run_bind_eq_ok.mp h

/-- Code of one part and then of the next. -/
theorem Emits.bind {x : M α} {f : α → M β} {P : Emission α} {Q : α → Emission β} {R : Emission β}
    (hx : Emits m x P) (hf : ∀ a, Emits n (f a) (Q a))
    (hR : ∀ L T a b c c', P L T a c → Q a L T b c' → R L T b (c ++ c')) :
    Emits (m + n) (x >>= f) R := by
  intro s b s' h hs
  obtain ⟨a, s₁, h₁, h₂⟩ := bind_run_eq_ok h
  obtain ⟨he₁, c, hdone₁, hP⟩ := hx s a s₁ h₁ hs
  obtain ⟨he₂, c', hdone₂, hQ⟩ := hf a s₁ b s' h₂ he₁.sound
  refine ⟨he₁.trans he₂, c ++ c', ?_, fun L T hfin => hR L T a b c c' (hP L T ?_) (hQ L T hfin)⟩
  · rw [hdone₂, hdone₁, List.reverse_append, List.append_assoc]
  · exact hfin.of_extends he₂

/-- A part that emits nothing, with what it finds. -/
theorem Emits.bindNone {x : M α} {f : α → M β} {P : Locals → Array FuncType → α → Prop}
    {Q : α → Emission β} {R : Emission β} (hx : Emits m x fun L T a c => c = [] ∧ P L T a)
    (hf : ∀ a, Emits n (f a) (Q a))
    (hR : ∀ L T a b c, P L T a → Q a L T b c → R L T b c) : Emits (m + n) (x >>= f) R := by
  refine hx.bind hf fun L T a b c c' hP hQ => ?_
  rw [hP.1]
  exact hR L T a b c' hP.2 hQ

theorem emits_pure (a : α) : Emits 0 (pure a : M α) fun _ _ b c => c = [] ∧ b = a := by
  intro s b s' h hs
  cases h
  exact ⟨.refl hs, [], rfl, fun _ _ _ => ⟨rfl, rfl⟩⟩

theorem emits_throw (e : Error) (P : Emission α) : Emits 0 (throw e : M α) P := by
  intro s a s' h
  cases h

/-- A change of the state that leaves locals and types alone. -/
theorem emits_modify {f : State → State} (hl : ∀ s, (f s).locals = s.locals)
    (ht : ∀ s, (f s).types = s.types) {code : List Instr}
    (hd : ∀ s, (f s).done = code.reverse ++ s.done) :
    Emits 0 (modify f : M Unit) fun _ _ _ c => c = code := by
  intro s a s' h hs
  cases h
  refine ⟨⟨?_, ?_, ?_, ?_⟩, code, hd s, fun _ _ _ => rfl⟩
  · rw [hl]; exact hs
  · rw [hl]; exact .refl _
  · rw [ht]; exact fun _ _ h => h
  · rw [hl]; exact Nat.le_refl _

theorem emits_emit (i : Instr) : Emits 0 (emit i) fun _ _ _ c => c = [i] :=
  emits_modify (f := fun s => { s with done := i :: s.done }) (fun _ => rfl) (fun _ => rfl)
    fun _ => rfl

theorem emits_emitAll (ps : List Plain) :
    Emits 0 (emitAll ps) fun _ _ _ c => c = ps.map .plain := by
  refine emits_modify (f := fun s =>
    { s with done := ps.foldl (fun done p => .plain p :: done) s.done }) (fun _ => rfl)
    (fun _ => rfl) fun s => ?_
  dsimp only
  generalize s.done = done
  induction ps generalizing done with
  | nil => rfl
  | cons p ps ih => rw [List.foldl_cons, ih, List.map_cons, List.reverse_cons, List.append_assoc]; rfl

theorem emits_setDead (dead : Bool) : Emits 0 (setDead dead) fun _ _ _ c => c = [] :=
  emits_modify (f := fun s => { s with dead }) (fun _ => rfl) (fun _ => rfl) fun _ => rfl

theorem emits_unreachable :
    Emits 0 unreachable fun _ _ _ c => c = [] ∨ c = [.plain .unreachable] := by
  intro s a s' h hs
  obtain ⟨s₁, s₂, h₁, h₂⟩ := bind_run_eq_ok h
  cases h₁
  split at h₂
  · have hemit := (emits_emit (.plain .unreachable)).bind (fun _ => emits_setDead true)
      (R := fun _ _ _ c => c = [] ∨ c = [.plain .unreachable]) fun L T a b c c' hc hc' => by
        rw [hc, hc']
        exact .inr rfl
    exact hemit s a s' h₂ hs
  · cases h₂
    exact ⟨.refl hs, [], rfl, fun _ _ _ => .inl rfl⟩

/-! ## Locals and types -/

theorem emits_withLocals {f : Locals → α × Locals} {P : Locals → α → Prop}
    (hs : ∀ l, l.Sound → (f l).2.Sound ∧ l.Grows (f l).2 ∧ (f l).2.types.size ≤ l.types.size + n)
    (hP : ∀ l L, l.Sound → (f l).2.Grows L → L.Sound → L.types.size ≤ 2 ^ 32 → P L (f l).1) :
    Emits n (withLocals f) fun L _ a c => c = [] ∧ P L a := by
  intro s a s' h hsound
  cases h
  obtain ⟨h₁, h₂, h₃⟩ := hs s.locals hsound
  exact ⟨⟨h₁, h₂, fun _ _ h => h, h₃⟩, [], rfl, fun L T hf =>
    ⟨rfl, hP s.locals L hsound hf.locals hf.sound hf.few_locals⟩⟩

theorem emits_slot (s : UInt16) (k : Kind) : Emits 1 (slot s k) fun L _ i c =>
    c = [] ∧ L.slots.lookup (s.toNat, k) = some i.toNat := by
  refine emits_withLocals (fun l hl => ?_) fun l L hl hg hL hfew => ?_
  · obtain ⟨h₁, h₂, -, h₃⟩ := Locals.slot_spec hl s.toNat k
    exact ⟨h₁, h₂, h₃⟩
  · obtain ⟨-, -, ⟨i, hlook, hi⟩, -⟩ := Locals.slot_spec hl s.toNat k
    have hlook := hg.slots _ _ hlook
    rw [hi, Locals.toNat_index hfew (Locals.lt_size_of_type (hL.slots _ _ hlook))]
    exact hlook

theorem emits_temp (t : ValType) (k : Nat) : Emits (k + 1) (temp t k) fun L _ i c =>
    c = [] ∧ L.IsTemp t k i.toNat := by
  refine emits_withLocals (fun l hl => ?_) fun l L hl hg hL hfew => ?_
  · obtain ⟨h₁, h₂, -, h₃⟩ := Locals.temp_spec hl t k
    exact ⟨h₁, h₂, h₃⟩
  · obtain ⟨-, -, ⟨i, htemp, hi⟩, -⟩ := Locals.temp_spec hl t k
    have htemp := htemp.grows hg
    rw [hi, Locals.toNat_index hfew (Locals.lt_size_of_type (htemp.type hL))]
    exact htemp

/-- Locals `ls` hold values of the kinds `ks`, one each, and none of them holds a variable. -/
structure Holds (L : Locals) (ls : List UInt32) (ks : List Kind) : Prop where
  nodup : ls.Nodup
  each : List.Forall₂ (fun l k => L.types[l.toNat]? = some (.ofKind k)) ls ks
  slots : ∀ l ∈ ls, ∀ key, L.slots.lookup key ≠ some l.toNat

/-- Locals of a construct, which are no scratch locals either. -/
structure Spilled (L : Locals) (ls : List UInt32) (ks : List Kind) : Prop
    extends Holds L ls ks where
  scratch : ∀ l ∈ ls, ∀ p ∈ L.scratch, p.2 ≠ l.toNat

/-- New locals lie at places `is` behind all there were. -/
theorem freshAll_run {ks : List Kind} {s s' : State} {ls : List UInt32}
    (h : freshAll ks s = .ok ls s') (hs : s.locals.Sound) :
    Extends ks.length s s' ∧ s'.done = s.done ∧ ∃ is : List Nat, ls = is.map .ofNat ∧ is.Nodup ∧
      List.Forall₂ (fun i k => s'.locals.types[i]? = some (.ofKind k)) is ks ∧
      ∀ i ∈ is, s.locals.types.size ≤ i ∧ s'.locals.Owned i := by
  induction ks generalizing s ls with
  | nil =>
    cases h
    exact ⟨.refl hs, rfl, [], rfl, .nil, .nil, nofun⟩
  | cons k ks ih =>
    obtain ⟨l, s₁, h₁, hrest⟩ := bind_run_eq_ok h
    obtain ⟨ls', s₂, h₂, hpure⟩ := bind_run_eq_ok hrest
    cases h₁
    cases hpure
    have hgrows := Locals.fresh_grows (.ofKind k) s.locals
    have hfirst : Extends 1 s { s with locals := (s.locals.fresh (.ofKind k)).2 } :=
      ⟨Locals.fresh_sound hs _, hgrows, fun _ _ h => h, by simp [Locals.fresh]⟩
    obtain ⟨he, hdone, is, rfl, hnodup, htypes, howned⟩ := ih h₂ hfirst.sound
    have hbehind {i : Nat} (hi : i ∈ is) : s.locals.types.size < i := by
      have := (howned i hi).1
      simp only [Array.size_push] at this
      omega
    refine ⟨?_, hdone, s.locals.types.size :: is, rfl,
      List.nodup_cons.mpr ⟨fun hmem => Nat.lt_irrefl _ (hbehind hmem), hnodup⟩, .cons ?_ htypes,
      fun i hi => ?_⟩
    · rw [List.length_cons, Nat.add_comm]
      exact hfirst.trans he
    · exact he.locals.types _ _ (Locals.fresh_type _ _)
    · rcases List.mem_cons.mp hi with rfl | hi
      · exact ⟨Nat.le_refl _, (Locals.fresh_owned hs _).grows he.locals⟩
      · exact ⟨(hbehind hi).le, (howned i hi).2⟩

theorem emits_freshAll (ks : List Kind) :
    Emits ks.length (freshAll ks) fun L _ ls c => c = [] ∧ Spilled L ls ks := by
  intro s ls s' h hs
  obtain ⟨he, hdone, is, rfl, hnodup, htypes, howned⟩ := freshAll_run h hs
  refine ⟨he, [], hdone, fun L T hf => ⟨rfl, ?_⟩⟩
  have hown {i : Nat} (hi : i ∈ is) : L.Owned i := (howned i hi).2.grows hf.locals
  have hword {i : Nat} (hi : i ∈ is) : (UInt32.ofNat i).toNat = i :=
    Locals.toNat_index hf.few_locals (hown hi).lt
  refine ⟨⟨?_, ?_, ?_⟩, ?_⟩
  · refine hnodup.map_on fun i hi j hj heq => ?_
    rw [← hword hi, heq, hword hj]
  · have hboth := (List.forall₂_and_left _ _).mpr ⟨fun i hi => hword (i := i) hi, htypes⟩
    refine List.forall₂_map_left_iff.mpr (hboth.imp fun i k hi => ?_)
    rw [hi.1]
    exact hf.locals.types i _ hi.2
  · rintro l hl
    obtain ⟨i, hi, rfl⟩ := List.mem_map.mp hl
    rw [hword hi]
    exact (hown hi).slots
  · rintro l hl
    obtain ⟨i, hi, rfl⟩ := List.mem_map.mp hl
    rw [hword hi]
    exact (hown hi).scratch

/-- What a block type says of the results of a construct without parameters. -/
def Gives (T : Array FuncType) (t : BlockType) (results : List ValType) : Prop :=
  match t with
  | .empty => results = []
  | .value v => results = [v]
  | .func i => T[i.toNat]? = some ⟨[], results⟩

theorem internType_spec (types : Array FuncType) (f : FuncType) :
    (Wasm.internType types f).2[(Wasm.internType types f).1]? = some f ∧
      ∀ (i : Nat) g, types[i]? = some g → (Wasm.internType types f).2[i]? = some g := by
  unfold Wasm.internType
  split
  · next i hi =>
    refine ⟨?_, fun _ _ h => h⟩
    obtain ⟨hlt, hf, -⟩ := Array.findIdx?_eq_some_iff_getElem.mp hi
    rw [Array.getElem?_eq_getElem hlt]
    simpa using hf
  · exact ⟨by simp, fun i g h => Locals.getElem?_push_of_some h⟩

theorem emits_blockType (ks : List Kind) : Emits 0 (blockType ks) fun _ T t c =>
    c = [] ∧ Gives T t (ks.map .ofKind) := by
  intro s t s' h hs
  unfold blockType at h
  split at h
  · cases h
    exact ⟨.refl hs, [], rfl, fun _ _ _ => ⟨rfl, rfl⟩⟩
  · cases h
    exact ⟨.refl hs, [], rfl, fun _ _ _ => ⟨rfl, rfl⟩⟩
  · cases h
    obtain ⟨hindex, hkeeps⟩ := internType_spec s.types ⟨[], ks.map .ofKind⟩
    refine ⟨⟨hs, .refl _, hkeeps, Nat.le_refl _⟩, [], rfl, fun L T hf => ⟨rfl, ?_⟩⟩
    have hT := hf.types _ _ hindex
    have hlt := (Array.getElem?_eq_some_iff.mp hT).1
    have htoNat : (UInt32.ofNat (Wasm.internType s.types ⟨[], ks.map .ofKind⟩).1).toNat =
        (Wasm.internType s.types ⟨[], ks.map .ofKind⟩).1 :=
      UInt32.toNat_ofNat_of_lt' (hlt.trans_le hf.few_types)
    change T[(UInt32.ofNat (Wasm.internType s.types ⟨[], ks.map .ofKind⟩).1).toNat]? = _
    rw [htoNat]
    exact hT

/-! ## Constructs -/

/-- The code of a part of a construct, which is emitted nowhere yet. -/
theorem Emits.nested {inner : M Unit} {P : Locals → Array FuncType → List Instr → Prop}
    (h : Emits n inner fun L T _ c => P L T c) :
    Emits n (nested inner) fun L T body c => c = [] ∧ P L T body := by
  intro s body s' hn hs
  obtain ⟨s₁, s₁', h₁, hn⟩ := bind_run_eq_ok hn
  cases h₁
  obtain ⟨u, s₂, h₂, hn⟩ := bind_run_eq_ok hn
  cases h₂
  obtain ⟨u', s₃, h₃, hn⟩ := bind_run_eq_ok hn
  obtain ⟨s₄, s₄', h₄, hn⟩ := bind_run_eq_ok hn
  cases h₄
  obtain ⟨u'', s₅, h₅, hn⟩ := bind_run_eq_ok hn
  cases h₅
  cases hn
  obtain ⟨he, code, hdone, hP⟩ := h _ _ _ h₃ hs
  refine ⟨⟨he.sound, he.locals, he.types, he.size⟩, [], rfl, fun L T hf => ⟨rfl, ?_⟩⟩
  rw [hdone, List.append_nil, List.reverse_reverse]
  exact hP L T ⟨hf.sound, hf.locals, hf.types, hf.few_locals, hf.few_types⟩

/-- Behind a construct that nothing reaches the end of. -/
def afterwards (ctx : Context) (stop : Nat) : List Instr :=
  if (ctx.stack? stop).isNone then [.plain .unreachable] else []

theorem emits_close (ctx : Context) (stop : Nat) (i : Instr) :
    Emits 0 (close ctx stop i) fun _ _ _ c => c = i :: afterwards ctx stop := by
  intro s a s' h hs
  obtain ⟨u, s₁, h₁, h⟩ := bind_run_eq_ok h
  cases h₁
  obtain ⟨u', s₂, h₂, h⟩ := bind_run_eq_ok h
  cases h₂
  unfold afterwards Context.stack?
  split at h
  · next hn =>
    obtain ⟨s₃, s₄, h₃, h⟩ := bind_run_eq_ok h
    cases h₃
    obtain ⟨u'', s₅, h₅, h⟩ := bind_run_eq_ok h
    cases h₅
    cases h
    rw [if_pos hn]
    exact ⟨⟨hs, .refl _, fun _ _ h => h, Nat.le_refl _⟩, [i, .plain .unreachable], rfl,
      fun _ _ _ => rfl⟩
  · next hn =>
    cases h
    rw [if_neg hn]
    exact ⟨⟨hs, .refl _, fun _ _ h => h, Nat.le_refl _⟩, [i], rfl, fun _ _ _ => rfl⟩

end ClassWasm.Lowering
