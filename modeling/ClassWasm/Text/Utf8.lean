/-
  UTF-8 over bytes that need not be UTF-8: text falls into glyphs, each a scalar value spelled in
  its one valid form or a single byte that starts no such form.
-/
import ClassWasm.Text

namespace ClassWasm.Text

/-- A scalar value in valid UTF-8, or a byte that no valid form starts at. -/
inductive Glyph where
  | scalar (c : Char)
  | stray (b : UInt8)
deriving DecidableEq

namespace Utf8

def isTail (b : UInt8) : Bool := b &&& 0xC0 == 0x80

/-- The low six bits of a continuation byte. -/
def tail (b : UInt8) : Nat := b.toNat % 64

/-- The scalar value `n`, if `n` is one and needs a form as long as one for `least`. -/
def scalar? (least n : Nat) : Option Char :=
  if h : n.isValidChar then if least ≤ n then some (Char.ofNatAux n h) else none else none

/-- The scalar value whose form starts the bytes, and the bytes after it. -/
def next? : List UInt8 → Option (Char × List UInt8)
  | [] => none
  | a :: rest =>
    if a < 0x80 then (scalar? 0 a.toNat).map (·, rest)
    else if a &&& 0xE0 = 0xC0 then
      match rest with
      | b :: rest =>
        if isTail b then (scalar? 0x80 (a.toNat % 32 * 64 + tail b)).map (·, rest) else none
      | _ => none
    else if a &&& 0xF0 = 0xE0 then
      match rest with
      | b :: c :: rest =>
        if isTail b && isTail c then
          (scalar? 0x800 (a.toNat % 16 * 4096 + tail b * 64 + tail c)).map (·, rest)
        else none
      | _ => none
    else if a &&& 0xF8 = 0xF0 then
      match rest with
      | b :: c :: d :: rest =>
        if isTail b && isTail c && isTail d then
          (scalar? 0x10000
            (a.toNat % 8 * 262144 + tail b * 4096 + tail c * 64 + tail d)).map (·, rest)
        else none
      | _ => none
    else none

theorem eq_of_map_pair {o : Option Char} {c : Char} {r rest : List UInt8}
    (h : o.map (·, r) = some (c, rest)) : rest = r := by
  cases o <;> simp_all

theorem length_of_next? {bs : List UInt8} {c : Char} {rest : List UInt8}
    (h : next? bs = some (c, rest)) : rest.length < bs.length := by
  unfold next? at h
  repeat' split at h
  all_goals first
    | contradiction
    | rw [eq_of_map_pair h]; simp only [List.length_cons]; omega

/-- The first glyph and the bytes after it. -/
def step (b : UInt8) (bs : List UInt8) : Glyph × List UInt8 :=
  match next? (b :: bs) with
  | some (c, rest) => (.scalar c, rest)
  | none => (.stray b, bs)

theorem length_step (b : UInt8) (bs : List UInt8) : (step b bs).2.length < (b :: bs).length := by
  unfold step
  split
  · exact length_of_next? ‹_›
  · simp

/-- The bytes cut into glyphs. -/
def glyphs : List UInt8 → List Glyph
  | [] => []
  | b :: bs => (step b bs).1 :: glyphs (step b bs).2
termination_by bs => bs.length
decreasing_by exact length_step b bs

def isValid (bs : List UInt8) : Bool :=
  (glyphs bs).all fun
    | .scalar _ => true
    | .stray _ => false

end Utf8

def glyphs (t : Text) : List Glyph := Utf8.glyphs t.bytes

def isUtf8 (t : Text) : Bool := Utf8.isValid t.bytes

def ofChar (c : Char) : Text := ⟨String.utf8EncodeChar c⟩

end ClassWasm.Text
