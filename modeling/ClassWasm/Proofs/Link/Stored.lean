/-
  Link maps as they are stored. They are values of one shape, so what holds of a library that keeps
  the rules of canonical writing and of reading holds of them: reading gives a link map back unless
  some text in it is not UTF-8, and no two of them are stored in the same bytes.
-/
import ClassWasm.Link.LinkMap
import ClassWasm.Proofs.Cbor.Library

namespace ClassWasm.Link

open Cbor (Shape)

/-! ## Symbols -/

namespace Symbol

def texts (s : Symbol) : List Text := [s.kind, s.owner, s.name, s.descriptor, s.exportName]

theorem regular_shape : shape.Regular :=
  ⟨⟨by decide, by decide⟩, trivial, trivial, trivial, trivial, trivial, trivial, trivial, trivial⟩

theorem texts_toVal (s : Symbol) : shape.texts s.toVal = s.texts := rfl

theorem ofVal_toVal (s : Symbol) : ofVal s.toVal = s := rfl

theorem fits_toVal {limit : Nat} (hlimit : 7 ≤ limit) {s : Symbol}
    (hs : ∀ t ∈ s.texts, t.bytes.length < 2 ^ 64) : shape.Fits limit s.toVal := by
  simp only [texts, List.forall_mem_cons] at hs
  obtain ⟨hkind, howner, hname, hdescriptor, hexport, -⟩ := hs
  exact ⟨hlimit, fun _ => trivial, fun _ => hkind, fun _ => howner, fun _ => hname,
    fun _ => hdescriptor, fun _ => hexport, fun _ => trivial, trivial⟩

end Symbol

/-! ## Link maps -/

namespace LinkMap

def symbols (m : LinkMap) : List Symbol := m.globals ++ m.functions ++ m.imports

def texts (m : LinkMap) : List Text := m.symbols.flatMap Symbol.texts

/-- Texts whose lengths 64 bits can say, and lists of symbols that are no longer than `limit`. -/
structure Sized (limit : Nat) (m : LinkMap) : Prop where
  texts : ∀ t ∈ m.texts, t.bytes.length < 2 ^ 64
  globals : m.globals.length ≤ limit
  functions : m.functions.length ≤ limit
  imports : m.imports.length ≤ limit

theorem regular_shape : shape.Regular :=
  ⟨⟨by decide, by decide⟩, Symbol.regular_shape, Symbol.regular_shape, Symbol.regular_shape,
    ⟨rfl, trivial⟩, trivial⟩

theorem depth_shape : shape.depth = 3 := rfl

theorem texts_toVal (m : LinkMap) : shape.texts m.toVal = m.texts := by
  have hsymbols (ss : List Symbol) :
      (Shape.list Symbol.shape).texts (ss.map Symbol.toVal) = ss.flatMap Symbol.texts :=
    List.flatMap_map _ _ _
  have hstart : (Shape.pointer .u32).texts m.start = [] := by
    cases m.start <;> rfl
  change (Shape.list Symbol.shape).texts _ ++ ((Shape.list Symbol.shape).texts _ ++
    ((Shape.list Symbol.shape).texts _ ++ ((Shape.pointer .u32).texts m.start ++ []))) = _
  rw [hsymbols, hsymbols, hsymbols, hstart]
  simp [texts, symbols]

theorem ofVal_toVal (m : LinkMap) : ofVal m.toVal = m := by
  have hsymbols (ss : List Symbol) : (ss.map Symbol.toVal).map Symbol.ofVal = ss := by
    rw [List.map_map]
    exact List.map_id ss
  change LinkMap.mk _ _ _ _ = m
  rw [hsymbols, hsymbols, hsymbols]

theorem Sized.fits {limit : Nat} (hlimit : 7 ≤ limit) {m : LinkMap} (hm : m.Sized limit) :
    shape.Fits limit m.toVal := by
  have hsymbols {ss : List Symbol} (hss : ∀ s ∈ ss, s ∈ m.symbols) (hlen : ss.length ≤ limit) :
      (true && (Shape.list Symbol.shape).isEmpty (ss.map Symbol.toVal)) = false →
        (Shape.list Symbol.shape).Fits limit (ss.map Symbol.toVal) := by
    intro hpresent
    refine ⟨List.isEmpty_eq_false_iff.mp hpresent, (List.length_map _).le.trans hlen, ?_⟩
    intro v hv
    obtain ⟨s, hs, rfl⟩ := List.mem_map.mp hv
    exact Symbol.fits_toVal hlimit fun t ht =>
      hm.texts t (List.mem_flatMap.mpr ⟨s, hss s hs, ht⟩)
  refine ⟨le_trans (by decide) hlimit, hsymbols ?_ hm.globals, hsymbols ?_ hm.functions,
    hsymbols ?_ hm.imports, fun _ _ _ => trivial, trivial⟩ <;>
  simp +contextual [symbols]

theorem unmarshal_eq_ok {ε : Type} {lib : Cbor.Library ε} {bs : Bytes} {m : LinkMap} :
    unmarshal lib bs = .ok m ↔ ∃ v, (lib.unmarshal shape bs).toOption = some v ∧ ofVal v = m := by
  unfold unmarshal
  cases lib.unmarshal shape bs with
  | error e => simp [Except.toOption]
  | ok v => simp [Except.toOption]

/-- A library that writes canonically stores a link map without a look at its texts. If it reads by
its defaults it gives the link map back exactly where all of them are UTF-8. Whatever their sizes, no
two link maps are stored in the same bytes. -/
theorem stored_round_trip {ε : Type} {lib : Cbor.Library ε} (hwrites : lib.Canonical)
    (hreads : lib.Default) (m : LinkMap) (hm : m.Sized (2 ^ 64 - 1)) :
    (∃ bs, m.marshal lib = .ok bs ∧ (m.Sized Cbor.maxItems → ∀ m', unmarshal lib bs = .ok m' ↔
      (∀ t ∈ m.texts, ∃ s : String, t = Text.ofString s) ∧ m' = m)) ∧
    ∀ m' : LinkMap, m'.Sized (2 ^ 64 - 1) → m.marshal lib = m'.marshal lib → m = m' := by
  have hfits {m : LinkMap} (hm : m.Sized (2 ^ 64 - 1)) : shape.Fits (2 ^ 64 - 1) m.toVal :=
    hm.fits (by decide)
  constructor
  · obtain ⟨bs, hbs, hread⟩ := Cbor.Library.read_marshal regular_shape hwrites hreads
      (depth_shape.trans_le (by decide)) (hfits hm)
    refine ⟨bs, hbs, fun hlimit m' => ?_⟩
    have hutf8 : m.texts.all Text.isUtf8 = true ↔
        ∀ t ∈ m.texts, ∃ s : String, t = Text.ofString s := by
      simp only [List.all_eq_true, Text.isUtf8_iff]
    rw [unmarshal_eq_ok, hread (hlimit.fits (by decide)), texts_toVal, ← hutf8]
    constructor
    · rintro ⟨v, hv, rfl⟩
      obtain ⟨htexts, hval⟩ := Option.ite_none_right_eq_some.mp hv
      obtain rfl := Option.some.inj hval
      exact ⟨htexts, ofVal_toVal m⟩
    · rintro ⟨htexts, rfl⟩
      exact ⟨_, if_pos htexts, ofVal_toVal m'⟩
  · intro m' hm' h
    rw [← ofVal_toVal m, ← ofVal_toVal m',
      Cbor.Library.marshal_inj regular_shape hwrites (hfits hm) (hfits hm') h]

/-- A function that the module does not export, at the start of it. -/
def starting : LinkMap where
  functions := [{ index := 0, kind := "func", owner := "A", name := "é", descriptor := "()V" }]
  start := some 0

/-- The same with half of a surrogate pair for a name. -/
def lone : LinkMap where
  functions := [{ index := 0, kind := "func", owner := "A", name := ⟨[0xED, 0xA0, 0x80]⟩ }]
  start := some 0

theorem sized_starting {limit : Nat} (h : 1 ≤ limit) : starting.Sized limit :=
  ⟨by decide, Nat.zero_le _, h, Nat.zero_le _⟩

theorem sized_lone {limit : Nat} (h : 1 ≤ limit) : lone.Sized limit :=
  ⟨by decide, Nat.zero_le _, h, Nat.zero_le _⟩

theorem not_isUtf8_lone : Text.isUtf8 ⟨[0xED, 0xA0, 0x80]⟩ = false := by
  have hnext : Text.Utf8.next? [0xED, 0xA0, 0x80] = none := by decide
  unfold Text.isUtf8 Text.Utf8.isValid Text.Utf8.glyphs Text.Utf8.step
  rw [hnext]
  simp

theorem stored_round_trip_starting :
    Cbor.Library.reference.Canonical ∧ Cbor.Library.reference.Default ∧
      (∃ bs, starting.marshal .reference = .ok bs ∧ unmarshal .reference bs = .ok starting) ∧
      (∃ bs, lone.marshal .reference = .ok bs ∧ ∀ m, unmarshal .reference bs ≠ .ok m) ∧
      starting.marshal .reference ≠ lone.marshal .reference := by
  have hwrites := Cbor.reference_canonical
  have hreads := Cbor.reference_default
  obtain ⟨⟨bs, hbs, hread⟩, hinj⟩ :=
    stored_round_trip hwrites hreads starting (sized_starting (by decide))
  obtain ⟨⟨bs', hbs', hread'⟩, -⟩ := stored_round_trip hwrites hreads lone (sized_lone (by decide))
  refine ⟨hwrites, hreads, ⟨bs, hbs, ?_⟩, ⟨bs', hbs', fun m hm => ?_⟩, fun h => ?_⟩
  · refine (hread (sized_starting (by decide)) starting).mpr ⟨?_, rfl⟩
    have htexts : starting.texts = ["func", "A", "é", "()V", ""].map Text.ofString := by decide
    rw [htexts]
    simp only [List.forall_mem_map]
    exact fun s _ => ⟨s, rfl⟩
  · have hutf8 := ((hread' (sized_lone (by decide)) m).mp hm).1
    have hname := (Text.isUtf8_iff _).mpr (hutf8 ⟨[0xED, 0xA0, 0x80]⟩ (by decide))
    exact absurd hname (Bool.eq_false_iff.mp not_isUtf8_lone)
  · exact absurd (hinj lone (sized_lone (by decide)) h) (by decide)

end LinkMap

end ClassWasm.Link
