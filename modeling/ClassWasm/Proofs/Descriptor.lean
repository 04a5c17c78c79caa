/-
  Descriptors are read exactly where the grammar has them. The grammar speaks of bytes alone
  (`FieldText`, `MethodText`); types that it can spell are `Valid`. Each reader is described by one
  equivalence: it gives a type and a rest if and only if the type is valid and the bytes are what
  spells it, followed by the rest. So nothing is read twice or passed over, and the main result
  follows for whole texts (`parse_exact`).
-/
import Mathlib
import ClassWasm.Descriptor
import ClassWasm.Proofs.Results

namespace ClassWasm

/-! ## The grammar -/

/-- The letter of a primitive type, or a class name between `L` and a semicolon. -/
inductive ElementText : Bytes → Prop
  | primitive {b : UInt8} : b ∈ ("BCDFIJSZ" : Text).bytes → ElementText [b]
  | object {name : Bytes} : name ≠ [] → 0x3B ∉ name → ElementText (0x4C :: name ++ [0x3B])

/-- An element type behind at most 255 brackets. -/
inductive FieldText : Bytes → Prop
  | mk {n : Nat} {bs : Bytes} : n ≤ 255 → ElementText bs → FieldText (List.replicate n 0x5B ++ bs)

/-- How many slots a parameter takes that is spelled like this. -/
def textSlots (bs : Bytes) : Nat := if bs = [0x4A] ∨ bs = [0x44] then 2 else 1

/-- Parameters between parentheses, and then a result or `V`. -/
inductive MethodText : Bytes → Prop
  | mk {ps : List Bytes} {r : Bytes} : (∀ p ∈ ps, FieldText p) → FieldText r ∨ r = [0x56] →
    (ps.map textSlots).foldr (· + ·) 0 ≤ 255 → MethodText (0x28 :: ps.flatten ++ 0x29 :: r)

/-! ## Types that can be spelled -/

/-- A class name that has an end. -/
def Element.Valid : Element → Prop
  | .primitive _ => True
  | .object name => name.bytes ≠ [] ∧ 0x3B ∉ name.bytes

structure FieldType.Valid (t : FieldType) : Prop where
  dims : t.dims ≤ 255
  element : t.element.Valid

structure MethodType.Valid (m : MethodType) : Prop where
  params : ∀ t ∈ m.params, t.Valid
  result : ∀ t ∈ m.result, t.Valid
  slots : m.argSlots ≤ 255

namespace Primitive

theorem ofLetter?_letter (p : Primitive) : ofLetter? p.letter = some p := by
  cases p <;> rfl

theorem ofLetter?_eq_some {b : UInt8} {p : Primitive} : ofLetter? b = some p ↔ b = p.letter := by
  refine ⟨fun h => ?_, fun h => h ▸ p.ofLetter?_letter⟩
  have := List.find?_some h
  exact (beq_iff_eq.mp this).symm

theorem mem_letters {b : UInt8} :
    b ∈ ("BCDFIJSZ" : Text).bytes ↔ ∃ p : Primitive, p.letter = b := by
  have hletters : ("BCDFIJSZ" : Text).bytes = all.map letter := by cbv
  have hall (p : Primitive) : p ∈ all := by cases p <;> decide
  rw [hletters, List.mem_map]
  exact ⟨fun ⟨p, _, h⟩ => ⟨p, h⟩, fun ⟨p, h⟩ => ⟨p, hall p, h⟩⟩

end Primitive

theorem elementText_iff {bs : Bytes} :
    ElementText bs ↔ ∃ e : Element, e.Valid ∧ FieldType.elementText e = bs := by
  constructor
  · rintro (h | ⟨hne, hmem⟩)
    · obtain ⟨p, rfl⟩ := Primitive.mem_letters.mp h
      exact ⟨.primitive p, trivial, rfl⟩
    · exact ⟨.object ⟨_⟩, ⟨hne, hmem⟩, rfl⟩
  · rintro ⟨_ | name, h, rfl⟩
    · exact .primitive (Primitive.mem_letters.mpr ⟨_, rfl⟩)
    · exact .object h.1 h.2

theorem fieldText_iff {bs : Bytes} :
    FieldText bs ↔ ∃ t : FieldType, t.Valid ∧ t.text.bytes = bs := by
  constructor
  · rintro ⟨hdims, helement⟩
    obtain ⟨e, he, rfl⟩ := elementText_iff.mp helement
    exact ⟨⟨_, e⟩, ⟨hdims, he⟩, rfl⟩
  · rintro ⟨t, ht, rfl⟩
    exact .mk ht.dims (elementText_iff.mpr ⟨_, ht.element, rfl⟩)

/-! ## How types are spelled -/

theorem elementText_head (e : Element) : ∃ b bs, FieldType.elementText e = b :: bs ∧
    b ≠ 0x5B ∧ b ≠ 0x29 ∧ b ≠ 0x56 := by
  cases e with
  | primitive p => exact ⟨_, _, rfl, by cases p <;> decide⟩
  | object name => exact ⟨_, _, rfl, by decide⟩

/-- No field type begins with a closing parenthesis or like `void`. -/
theorem FieldType.text_head (t : FieldType) :
    ∃ b bs, t.text.bytes = b :: bs ∧ b ≠ 0x29 ∧ b ≠ 0x56 := by
  obtain ⟨dims, e⟩ := t
  cases dims with
  | zero =>
    obtain ⟨b, bs, h, -, hclose, hvoid⟩ := elementText_head e
    exact ⟨b, bs, h, hclose, hvoid⟩
  | succ n => exact ⟨_, _, rfl, by decide⟩

theorem FieldType.slots_eq (t : FieldType) : t.slots = textSlots t.text.bytes := by
  have hone {b : UInt8} (bs : Bytes) (hlong : b ≠ 0x4A) (hdouble : b ≠ 0x44) :
      textSlots (b :: bs) = 1 := by simp [textSlots, hlong, hdouble]
  obtain ⟨dims, e⟩ := t
  cases dims with
  | zero =>
    cases e with
    | primitive p => cases p <;> rfl
    | object name => exact (hone _ (by decide) (by decide)).symm
  | succ n => exact (hone _ (by decide) (by decide)).symm

theorem MethodType.argSlots_eq (ts : List FieldType) (r : Option FieldType) :
    (⟨ts, r⟩ : MethodType).argSlots = ((ts.map (·.text.bytes)).map textSlots).foldr (· + ·) 0 := by
  rw [argSlots, List.map_map]
  exact congrArg (List.foldr _ _) (List.map_congr_left fun t _ => t.slots_eq)

theorem Text.eq_iff_bytes {s t : Text} : s = t ↔ s.bytes = t.bytes := by
  cases s
  cases t
  exact Text.mk.injEq _ _ ▸ Iff.rfl

theorem Text.bytes_join_empty (ts : List Text) :
    (join empty ts).bytes = (ts.map Text.bytes).flatten := by
  change List.intercalate [] (ts.map Text.bytes) = _
  generalize ts.map Text.bytes = bss
  induction bss with
  | nil => rfl
  | cons bs bss ih =>
    cases bss with
    | nil => simp [List.intercalate]
    | cons bs' bss =>
      rw [List.flatten_cons, ← ih]
      simp [List.intercalate]

/-- The bytes of a result. -/
theorem MethodType.resultText_bytes (m : MethodType) :
    m.resultText.bytes = (m.result.map (·.text.bytes)).getD [0x56] := by
  unfold resultText
  cases m.result with
  | none => cbv
  | some t => rfl

theorem MethodType.text_bytes (m : MethodType) : m.text.bytes =
    0x28 :: ((m.params.map (·.text.bytes)).flatten ++ 0x29 :: m.resultText.bytes) := by
  have hopen : ("(" : Text).bytes = [0x28] := by cbv
  have hclose : (")" : Text).bytes = [0x29] := by cbv
  rw [text, Text.bytes_append, Text.bytes_append, Text.bytes_append, Text.bytes_join_empty, hopen,
    hclose, List.map_map]
  simp [Function.comp_def]

/-- Texts of field types are texts of valid types, one by one. -/
theorem exists_valid_of_fieldTexts {ps : List Bytes} (hps : ∀ p ∈ ps, FieldText p) :
    ∃ ts : List FieldType, (∀ t ∈ ts, t.Valid) ∧ ts.map (·.text.bytes) = ps := by
  induction ps with
  | nil => exact ⟨[], nofun, rfl⟩
  | cons p ps ih =>
    obtain ⟨hp, htail⟩ := List.forall_mem_cons.mp hps
    obtain ⟨t, ht, rfl⟩ := fieldText_iff.mp hp
    obtain ⟨ts, hts, rfl⟩ := ih htail
    exact ⟨t :: ts, List.forall_mem_cons.mpr ⟨ht, hts⟩, rfl⟩

theorem methodText_iff {bs : Bytes} :
    MethodText bs ↔ ∃ m : MethodType, m.Valid ∧ m.text.bytes = bs := by
  constructor
  · rintro @⟨ps, r, hps, hr, hslots⟩
    obtain ⟨ts, hts, rfl⟩ := exists_valid_of_fieldTexts hps
    obtain ⟨res, hres, rfl⟩ : ∃ res : Option FieldType, (∀ t ∈ res, t.Valid) ∧
        (res.map (·.text.bytes)).getD [0x56] = r := by
      rcases hr with hr | rfl
      · obtain ⟨t, ht, rfl⟩ := fieldText_iff.mp hr
        exact ⟨some t, by simpa using ht, rfl⟩
      · exact ⟨none, nofun, rfl⟩
    refine ⟨⟨ts, res⟩, ⟨hts, hres, ?_⟩, ?_⟩
    · rwa [MethodType.argSlots_eq]
    · rw [MethodType.text_bytes, MethodType.resultText_bytes]
      rfl
  · rintro ⟨m, hm, rfl⟩
    rw [MethodType.text_bytes, MethodType.resultText_bytes]
    refine @MethodText.mk (m.params.map (·.text.bytes)) _ (fun p hp => ?_) ?_ ?_
    · obtain ⟨t, ht, rfl⟩ := List.mem_map.mp hp
      exact fieldText_iff.mpr ⟨t, hm.params t ht, rfl⟩
    · cases hr : m.result with
      | none => exact .inr rfl
      | some t => exact .inl (fieldText_iff.mpr ⟨t, hm.result t (by simp [hr]), rfl⟩)
    · rw [← MethodType.argSlots_eq m.params m.result]
      exact hm.slots

/-! ## Readers -/

/-- A list is cut behind its first items with a property. -/
theorem takeWhile_cut {α : Type} (p : α → Bool) (as : List α) :
    ∃ rest, as.drop (as.takeWhile p).length = rest ∧ as = as.takeWhile p ++ rest ∧
      ∀ a rest', rest = a :: rest' → p a = false := by
  refine ⟨_, rfl, ?_⟩
  induction as with
  | nil => exact ⟨rfl, nofun⟩
  | cons a as ih =>
    cases h : p a with
    | true =>
      rw [List.takeWhile_cons_of_pos h, List.length_cons, List.drop_succ_cons, List.cons_append]
      exact ⟨congrArg _ ih.1, ih.2⟩
    | false =>
      rw [List.takeWhile_cons_of_neg (by simp [h])]
      refine ⟨rfl, fun a' rest' heq => ?_⟩
      cases heq
      exact h

theorem takeWhile_stop {α : Type} {p : α → Bool} {as : List α} (has : ∀ a ∈ as, p a = true) {b : α}
    (hb : p b = false) (bs : List α) : (as ++ b :: bs).takeWhile p = as := by
  rw [List.takeWhile_append_of_pos has, List.takeWhile_cons_of_neg (by simp [hb]), List.append_nil]

namespace Descriptor

theorem className_eq_ok {bs rest : Bytes} {name : Text} : className bs = .ok (name, rest) ↔
    (Element.object name).Valid ∧ bs = name.bytes ++ 0x3B :: rest := by
  constructor
  · intro h
    obtain ⟨after, hdrop, hbs, hstop⟩ := takeWhile_cut (· != 0x3B) bs
    have hname : 0x3B ∉ bs.takeWhile (· != 0x3B) := fun hmem => by
      simpa using List.mem_takeWhile_imp hmem
    unfold className at h
    dsimp only at h
    rw [hdrop] at h
    split at h
    · next _ _ b bs' semicolon rest' htake =>
      cases h
      obtain rfl : semicolon = 0x3B := by simpa using hstop _ _ rfl
      exact ⟨⟨by simp [htake], hname⟩, hbs⟩
    · cases h
  · rintro ⟨⟨hne, hmem⟩, rfl⟩
    have htake : (name.bytes ++ 0x3B :: rest).takeWhile (· != 0x3B) = name.bytes := by
      refine takeWhile_stop (fun b hb => ?_) (by decide) rest
      rw [bne_iff_ne]
      exact fun h => hmem (h ▸ hb)
    obtain ⟨b, bs, hname⟩ := List.exists_cons_of_ne_nil hne
    unfold className
    dsimp only
    rw [htake, List.drop_left, hname]
    dsimp only
    rw [← hname]

theorem element_eq_ok {bs rest : Bytes} {e : Element} : element bs = .ok (e, rest) ↔
    e.Valid ∧ bs = FieldType.elementText e ++ rest := by
  cases bs with
  | nil =>
    obtain ⟨b, bs, he, -⟩ := elementText_head e
    simp [element, he]
  | cons b bs =>
    rw [element]
    split
    · next hb =>
      subst hb
      constructor
      · intro h
        obtain ⟨⟨name, rest'⟩, hname, heq⟩ := map_eq_ok h
        cases heq
        obtain ⟨hvalid, rfl⟩ := className_eq_ok.mp hname
        exact ⟨hvalid, by simp [FieldType.elementText]⟩
      · rintro ⟨hvalid, heq⟩
        cases e with
        | primitive p => cases p <;> cases heq
        | object name =>
          have hbs : bs = name.bytes ++ 0x3B :: rest := by simpa [FieldType.elementText] using heq
          rw [className_eq_ok.mpr ⟨hvalid, hbs⟩]
          rfl
    · next hb =>
      have hprimitive {p : Primitive} : Primitive.ofLetter? b = some p ↔ b = p.letter :=
        Primitive.ofLetter?_eq_some
      constructor
      · intro h
        cases hp : Primitive.ofLetter? b with
        | none => simp [hp] at h
        | some p =>
          rw [hp] at h
          cases h
          exact ⟨trivial, by rw [hprimitive.mp hp]; rfl⟩
      · rintro ⟨-, heq⟩
        cases e with
        | primitive p =>
          cases heq
          rw [hprimitive.mpr rfl]
          rfl
        | object name => exact absurd (List.head_eq_of_cons_eq heq) hb

theorem fieldType_eq_ok {bs rest : Bytes} {t : FieldType} : fieldType bs = .ok (t, rest) ↔
    t.Valid ∧ bs = t.text.bytes ++ rest := by
  constructor
  · intro h
    obtain ⟨after, hdrop, hbs, -⟩ := takeWhile_cut isOpenBracket bs
    have hbrackets : bs.takeWhile isOpenBracket =
        List.replicate (bs.takeWhile isOpenBracket).length 0x5B :=
      List.eq_replicate_of_mem fun b hb => by
        have hbracket : isOpenBracket b = true := List.mem_takeWhile_imp hb
        simpa [isOpenBracket] using hbracket
    unfold fieldType at h
    dsimp only at h
    rw [hdrop] at h
    split at h
    · cases h
    · next hdims =>
      obtain ⟨⟨e, rest'⟩, he, heq⟩ := map_eq_ok h
      cases heq
      obtain ⟨hvalid, rfl⟩ := element_eq_ok.mp he
      refine ⟨⟨by simpa using hdims, hvalid⟩, ?_⟩
      rw [FieldType.text, List.append_assoc, ← hbrackets]
      exact hbs
  · rintro ⟨ht, rfl⟩
    obtain ⟨dims, e⟩ := t
    obtain ⟨b, bs, hhead, hb, -⟩ := elementText_head e
    -- No element begins with a bracket, so the reader counts those of the type and no more.
    have htake : ((FieldType.text ⟨dims, e⟩).bytes ++ rest).takeWhile isOpenBracket =
        List.replicate dims 0x5B := by
      rw [FieldType.text, List.append_assoc, hhead]
      refine takeWhile_stop (fun a ha => ?_) (by simpa [isOpenBracket] using hb) _
      rw [List.eq_of_mem_replicate ha]
      rfl
    have hdrop : ((FieldType.text ⟨dims, e⟩).bytes ++ rest).drop dims =
        FieldType.elementText e ++ rest := by
      rw [FieldType.text, List.append_assoc]
      exact List.drop_left' List.length_replicate
    unfold fieldType
    dsimp only
    rw [htake, List.length_replicate, hdrop, element_eq_ok.mpr ⟨ht.element, rfl⟩,
      if_neg (Nat.not_lt.mpr ht.dims)]
    rfl

/-! ## Whole texts -/

theorem params_close (rest : Bytes) : params (0x29 :: rest) = .ok (some ([], rest)) := by
  rw [params]
  rfl

theorem params_of_fieldType {bs rest : Bytes} {t : FieldType} (h : fieldType bs = .ok (t, rest)) :
    params bs = (params rest).map (Option.map fun (ts, rest) => (t :: ts, rest)) := by
  obtain ⟨ht, rfl⟩ := fieldType_eq_ok.mp h
  obtain ⟨b, bs, hhead, hb, -⟩ := t.text_head
  rw [hhead, List.cons_append] at h ⊢
  rw [params, if_neg hb]
  split
  · next heq => rw [h] at heq; cases heq
  · next heq =>
    rw [h] at heq
    cases heq
    rfl

theorem params_eq_ok {bs rest : Bytes} {ts : List FieldType} :
    params bs = .ok (some (ts, rest)) ↔
      (∀ t ∈ ts, t.Valid) ∧ bs = (ts.map (·.text.bytes)).flatten ++ 0x29 :: rest := by
  constructor
  · intro h
    induction bs using params.induct generalizing ts rest with
    | case1 => simp [params] at h
    | case2 bs =>
      rw [params_close] at h
      cases h
      exact ⟨nofun, rfl⟩
    | case3 b bs hb fault hfault =>
      rw [params, if_neg hb] at h
      split at h
      · cases h
      · next heq => rw [hfault] at heq; cases heq
    | case4 b bs hb t after ht ih =>
      rw [params_of_fieldType ht] at h
      obtain ⟨o, ho, hmap⟩ := map_eq_ok h
      obtain ⟨⟨ts', rest'⟩, rfl, heq⟩ := Option.map_eq_some_iff.mp hmap
      cases heq
      obtain ⟨hts, rfl⟩ := ih ho
      obtain ⟨hvalid, hbs⟩ := fieldType_eq_ok.mp ht
      exact ⟨List.forall_mem_cons.mpr ⟨hvalid, hts⟩, by simp [hbs]⟩
  · -- What was spelled is read type by type; no type begins like the end of the list.
    rintro ⟨hts, rfl⟩
    induction ts with
    | nil => exact params_close rest
    | cons t ts ih =>
      obtain ⟨ht, hts⟩ := List.forall_mem_cons.mp hts
      rw [List.map_cons, List.flatten_cons, List.append_assoc,
        params_of_fieldType (fieldType_eq_ok.mpr ⟨ht, rfl⟩), ih hts]
      rfl

theorem result_eq_ok {bs rest : Bytes} {r : Option FieldType} : result bs = .ok (r, rest) ↔
    (∀ t ∈ r, t.Valid) ∧ bs = (r.map (·.text.bytes)).getD [0x56] ++ rest := by
  unfold result
  split
  · constructor
    · intro h
      cases h
      exact ⟨nofun, rfl⟩
    · rintro ⟨-, heq⟩
      cases r with
      | none =>
        cases heq
        rfl
      | some t =>
        obtain ⟨b, bs, hhead, -, hb⟩ := t.text_head
        rw [Option.map_some, Option.getD_some, hhead] at heq
        exact absurd (List.head_eq_of_cons_eq heq).symm hb
  · next hvoid =>
    constructor
    · intro h
      obtain ⟨⟨t, rest'⟩, ht, heq⟩ := map_eq_ok h
      cases heq
      obtain ⟨hvalid, rfl⟩ := fieldType_eq_ok.mp ht
      exact ⟨by simpa using hvalid, rfl⟩
    · rintro ⟨hvalid, rfl⟩
      cases r with
      | none => exact absurd rfl (hvoid rest)
      | some t =>
        rw [Option.map_some, Option.getD_some, fieldType_eq_ok.mpr ⟨hvalid t rfl, rfl⟩]
        rfl

theorem parseField_eq_ok {s : Text} {t : FieldType} :
    parseField s = .ok t ↔ t.Valid ∧ t.text = s := by
  have hread : parseField s = .ok t ↔ fieldType s.bytes = .ok (t, []) := by
    unfold parseField
    split <;> simp_all
  rw [hread, fieldType_eq_ok, List.append_nil, Text.eq_iff_bytes, eq_comm]

theorem parseMethod_eq_ok {s : Text} {m : MethodType} :
    parseMethod s = .ok m ↔ m.Valid ∧ m.text = s := by
  rw [Text.eq_iff_bytes, MethodType.text_bytes, MethodType.resultText_bytes]
  constructor
  · intro h
    unfold parseMethod at h
    split at h
    · next bs hbs =>
      split at h
      · cases h
      · cases h
      · next ps rest hps =>
        obtain ⟨hparams, rfl⟩ := params_eq_ok.mp hps
        split at h
        · cases h
        · cases h
        · next r hr =>
          obtain ⟨hresult, rfl⟩ := result_eq_ok.mp hr
          dsimp only at h
          split at h
          · cases h
          · next hslots =>
            cases h
            exact ⟨⟨hparams, hresult, Nat.not_lt.mp hslots⟩, by simp [hbs]⟩
    · cases h
  · rintro ⟨hm, hs⟩
    have hr := result_eq_ok.mpr ⟨hm.result, (List.append_nil _).symm⟩
    unfold parseMethod
    split
    · next bs hbs =>
      obtain rfl := List.tail_eq_of_cons_eq (hs.trans hbs)
      rw [params_eq_ok.mpr ⟨hm.params, rfl⟩]
      dsimp only
      rw [hr]
      exact if_neg (Nat.not_lt.mpr hm.slots)
    · next hopen => exact absurd hs.symm (hopen _)

/-- The readers of descriptors take the texts of the grammar and no others, and a type is read from
its own text and from no other. -/
theorem parse_exact :
    (∀ s : Text, (∃ m, parseMethod s = .ok m) ↔ MethodText s.bytes) ∧
    (∀ (s : Text) (m : MethodType), parseMethod s = .ok m ↔ m.Valid ∧ m.text = s) ∧
    (∀ s : Text, (∃ t, parseField s = .ok t) ↔ FieldText s.bytes) ∧
    ∀ (s : Text) (t : FieldType), parseField s = .ok t ↔ t.Valid ∧ t.text = s := by
  refine ⟨fun s => ?_, fun _ _ => parseMethod_eq_ok, fun s => ?_, fun _ _ => parseField_eq_ok⟩
  · simp only [parseMethod_eq_ok, methodText_iff, Text.eq_iff_bytes]
  · simp only [parseField_eq_ok, fieldText_iff, Text.eq_iff_bytes]

end Descriptor

end ClassWasm
