/-
  The encoding of text inside class files. Text is cut into UTF-16 units, each unit takes one to
  three bytes, and the zero unit takes two so that no byte is zero. A surrogate that has lost its
  partner keeps its three-byte form in text, so that it is written back as the same bytes.
-/
import ClassWasm.Bytes
import ClassWasm.Text.Utf8

namespace ClassWasm.ModifiedUtf8

open Text.Utf8 (isTail tail)

/-- The UTF-16 units that the bytes spell, or the offset of the first byte at which no unit starts.
Overlong forms are accepted. `pos` is the offset of the first byte. -/
def units (pos : Nat) : Bytes → Except Nat (List UInt16)
  | [] => .ok []
  | a :: rest =>
    if a < 0x80 then (units (pos + 1) rest).map (a.toUInt16 :: ·)
    else if a &&& 0xE0 = 0xC0 then
      match rest with
      | b :: rest =>
        if isTail b then
          (units (pos + 2) rest).map (UInt16.ofNat (a.toNat % 32 * 64 + tail b) :: ·)
        else .error pos
      | [] => .error pos
    else if a &&& 0xF0 = 0xE0 then
      match rest with
      | b :: c :: rest =>
        if isTail b && isTail c then
          (units (pos + 3) rest).map
            (UInt16.ofNat (a.toNat % 16 * 4096 + tail b * 64 + tail c) :: ·)
        else .error pos
      | _ => .error pos
    else .error pos

def isHigh (u : UInt16) : Bool := 0xD800 ≤ u && u < 0xDC00

def isLow (u : UInt16) : Bool := 0xDC00 ≤ u && u < 0xE000

/-- The scalar value of a surrogate pair. -/
def pair (hi lo : UInt16) : Char :=
  Char.ofNat (0x10000 + (hi.toNat - 0xD800) * 0x400 + (lo.toNat - 0xDC00))

/-- Three bytes for a unit from 0x800 on. -/
def threeBytes (u : UInt16) : Bytes :=
  [(0xE0 : UInt8) ||| (u >>> 12).toUInt8, (0x80 : UInt8) ||| ((u >>> 6) &&& 0x3F).toUInt8, (0x80 : UInt8) ||| (u &&& 0x3F).toUInt8]

/-- Text from units: pairs become one scalar value, lone surrogates keep three bytes. -/
def textOfUnits : List UInt16 → Bytes
  | [] => []
  | [u] => if isHigh u || isLow u then threeBytes u else String.utf8EncodeChar (Char.ofNat u.toNat)
  | u :: v :: rest =>
    if isHigh u && isLow v then String.utf8EncodeChar (pair u v) ++ textOfUnits rest
    else if isHigh u || isLow u then threeBytes u ++ textOfUnits (v :: rest)
    else String.utf8EncodeChar (Char.ofNat u.toNat) ++ textOfUnits (v :: rest)

/-- The text of the units that bytes spell. -/
def decodeUnits (bs : Bytes) : Except Nat Text :=
  (units 0 bs).map fun us => ⟨textOfUnits us⟩

/-- Whether every byte is a unit by itself. -/
def isPlain (bs : Bytes) : Bool := bs.all fun b => b != 0 && b < 0x80

/-- The text of encoded bytes, or the offset of the first byte at which no unit starts. Plain bytes
are text as they are. -/
def decode (bs : Bytes) : Except Nat Text :=
  if isPlain bs then .ok ⟨bs⟩ else decodeUnits bs

/-- One unit in its shortest form, zero excepted. -/
def encodeUnit (u : UInt16) : Bytes :=
  if u ≠ 0 ∧ u < 0x80 then [u.toUInt8]
  else if u < 0x800 then [(0xC0 : UInt8) ||| (u >>> 6).toUInt8, (0x80 : UInt8) ||| (u &&& 0x3F).toUInt8]
  else threeBytes u

/-- One or two units of a scalar value. -/
def encodeScalar (c : Char) : Bytes :=
  let n := c.toNat
  if n < 0x10000 then encodeUnit (UInt16.ofNat n)
  else
    encodeUnit (UInt16.ofNat (0xD800 + (n - 0x10000) / 0x400))
      ++ encodeUnit (UInt16.ofNat (0xDC00 + (n - 0x10000) % 0x400))

/-- The three-byte form of a surrogate at the start of the text, and the text after it. -/
def loneSurrogate? : Bytes → Option (Bytes × Bytes)
  | a :: b :: c :: rest =>
    if a = 0xED ∧ 0xA0 ≤ b ∧ b ≤ 0xBF ∧ isTail c then some ([a, b, c], rest) else none
  | _ => none

theorem length_of_loneSurrogate? {bs form rest : Bytes}
    (h : loneSurrogate? bs = some (form, rest)) : rest.length < bs.length := by
  unfold loneSurrogate? at h
  repeat' split at h
  · simp only [Option.some.injEq, Prod.mk.injEq] at h
    obtain ⟨-, rfl⟩ := h
    simp only [List.length_cons]; omega
  all_goals contradiction

/-- Encodes text. Bytes that are neither UTF-8 nor a kept surrogate become U+FFFD one by one. -/
def encodeBytes : Bytes → Bytes
  | [] => []
  | a :: bs =>
    match _h : loneSurrogate? (a :: bs) with
    | some (form, rest) => form ++ encodeBytes rest
    | none =>
      let c := match (Text.Utf8.step a bs).1 with
        | .scalar c => c
        | .stray _ => '\uFFFD'
      encodeScalar c ++ encodeBytes (Text.Utf8.step a bs).2
termination_by bs => bs.length
decreasing_by
  · exact length_of_loneSurrogate? _h
  · exact Text.Utf8.length_step a bs

def encode (t : Text) : Bytes := encodeBytes t.bytes

end ClassWasm.ModifiedUtf8
