/-
  Numbers as people write them: integers with a prefix for their base, and floating point numbers
  in decimal or hexadecimal. Underscores may set digits apart, between digits or after a prefix.
-/
import ClassWasm.Ieee
import ClassWasm.Text.Quoted

namespace ClassWasm

namespace Numeral

inductive Fault where
  | malformed
  | range
deriving DecidableEq

inductive Form where
  | integer
  | float
deriving DecidableEq

/-- A text that is no number of the wanted form. -/
structure Error where
  form : Form
  text : Text
  fault : Fault
deriving DecidableEq

def Error.message (e : Error) : Text :=
  let name : Text := match e.form with
    | .integer => "strconv.ParseInt"
    | .float => "strconv.ParseFloat"
  let fault : Text := match e.fault with
    | .malformed => "invalid syntax"
    | .range => "value out of range"
  name ++ ": parsing " ++ e.text.quoted ++ ": " ++ fault

def underscore : UInt8 := 0x5F

/-- A letter in lower case. -/
def lower (b : UInt8) : UInt8 := b ||| 0x20

def isDigit (b : UInt8) : Bool := 0x30 ≤ b && b ≤ 0x39

/-- The value of a digit or letter as a digit of some base. -/
def digit? (b : UInt8) : Option Nat :=
  if isDigit b then some (b.toNat - 0x30)
  else if 0x61 ≤ lower b && lower b ≤ 0x7A then some ((lower b).toNat - 0x61 + 10)
  else none

def hexDigit? (b : UInt8) : Option Nat := (digit? b).filter (· < 16)

/-- Whether a number is negative, and what follows its sign. -/
def sign : List UInt8 → Bool × List UInt8
  | 0x2D :: bs => (true, bs)
  | 0x2B :: bs => (false, bs)
  | bs => (false, bs)

/-- What stood before a place of a number. -/
inductive Before where
  | start
  | digit
  | underscore
  | other
deriving DecidableEq

/-- Whether every underscore follows a digit and is followed by one. -/
def spacedFrom (isHex : Bool) : Before → List UInt8 → Bool
  | before, [] => before ≠ .underscore
  | before, b :: bs =>
    if isDigit b || (isHex && (hexDigit? b).isSome) then spacedFrom isHex .digit bs
    else if b = underscore then before = .digit && spacedFrom isHex .underscore bs
    else before ≠ .underscore && spacedFrom isHex .other bs

/-- Whether the underscores of a number are in places where they may be. A prefix counts as a
digit. -/
def spaced (bs : List UInt8) : Bool :=
  match (sign bs).2 with
  | 0x30 :: b :: rest =>
    if lower b = 0x78 then spacedFrom true .digit rest
    else if lower b = 0x62 || lower b = 0x6F then spacedFrom false .digit rest
    else spacedFrom false .start (0x30 :: b :: rest)
  | rest => spacedFrom false .start rest

/-- The base that a prefix names, and the digits after it. A leading zero alone means base 8, and
a prefix is one only where something follows it. -/
def base : List UInt8 → Nat × List UInt8
  | 0x30 :: b :: c :: rest =>
    if lower b = 0x62 then (2, c :: rest)
    else if lower b = 0x6F then (8, c :: rest)
    else if lower b = 0x78 then (16, c :: rest)
    else (8, b :: c :: rest)
  | 0x30 :: rest => (8, rest)
  | bs => (10, bs)

/-- The number that digits make, kept below `limit`. A number that grows too large is reported
before what follows is looked at. -/
def magnitude (base limit : Nat) : Nat → List UInt8 → Except Fault Nat
  | n, [] => .ok n
  | n, b :: bs =>
    if b = underscore then magnitude base limit n bs
    else match digit? b with
      | none => .error .malformed
      | some d =>
        if d ≥ base then .error .malformed
        else
          let n := n * base + d
          if n ≥ limit then .error .range else magnitude base limit n bs

/-- An unsigned number of that many bits. -/
def unsigned (bits : Nat) (bs : List UInt8) : Except Fault Nat :=
  if bs.isEmpty then .error .malformed
  else do
    let (b, digits) := base bs
    let n ← magnitude b (Nat.pow 2 bits) 0 digits
    if digits.contains underscore && !spaced bs then .error .malformed else .ok n

/-- A signed number of that many bits. -/
def signed (bits : Nat) (bs : List UInt8) : Except Fault Int := do
  let (negative, rest) := sign bs
  let n ← unsigned bits rest
  if negative then if n ≤ Nat.pow 2 (bits - 1) then .ok (-n) else .error .range
  else if n < Nat.pow 2 (bits - 1) then .ok n else .error .range

/-- The integer of that many bits which a text is. -/
def integer (bits : Nat) (text : Text) : Except Error Int :=
  (signed bits text.bytes).mapError fun fault => ⟨.integer, text, fault⟩

/-- The digits of a number up to its exponent: their value, how many stand behind the point, and
how many there are without leading zeros. -/
structure Digits where
  value : Nat := 0
  behind : Nat := 0
  count : Nat := 0
  seenPoint : Bool := false
  seenDigit : Bool := false

/-- Digits with underscores and at most one point, and what follows them. -/
def digitsFrom (base : Nat) : Digits → List UInt8 → Digits × List UInt8
  | d, [] => (d, [])
  | d, b :: bs =>
    if b = underscore then digitsFrom base d bs
    else if b = 0x2E then
      if d.seenPoint then (d, b :: bs) else digitsFrom base { d with seenPoint := true } bs
    else match (digit? b).filter (· < base) with
      | none => (d, b :: bs)
      | some v => digitsFrom base
          { d with
            value := d.value * base + v
            behind := if d.seenPoint then d.behind + 1 else d.behind
            count := if d.value = 0 && v = 0 then 0 else d.count + 1
            seenDigit := true } bs

/-- An exponent stops growing beyond this bound, far outside of every format. -/
def exponentBound : Nat := 10000

/-- The digits of an exponent, with underscores, and what follows them. -/
def exponentFrom : Nat → List UInt8 → Nat × List UInt8
  | e, [] => (e, [])
  | e, b :: bs =>
    if b = underscore then exponentFrom e bs
    else if isDigit b then
      exponentFrom (if e < exponentBound then e * 10 + (b.toNat - 0x30) else e) bs
    else (e, b :: bs)

/-- An exponent behind its mark, and what follows it. -/
def exponent? (bs : List UInt8) : Option (Int × List UInt8) :=
  let (negative, rest) := sign bs
  match rest with
  | b :: _ =>
    if isDigit b then
      let (e, rest) := exponentFrom 0 rest
      some (if negative then -e else e, rest)
    else none
  | [] => none

/-- A number `value · base^exponent`, where the base is two for hexadecimal digits. -/
structure Scientific where
  negative : Bool
  isHex : Bool
  value : Nat
  exponent : Int
  /-- How many digits the value has. -/
  count : Nat

/-- The number that bytes are, all of them. A hexadecimal number needs an exponent. -/
def scientific? (bs : List UInt8) : Option Scientific := do
  let (negative, rest) := sign bs
  let (isHex, rest) := match rest with
    | 0x30 :: b :: c :: rest => if lower b = 0x78 then (true, c :: rest) else (false, 0x30 :: b :: c :: rest)
    | rest => (false, rest)
  let (d, rest) := digitsFrom (if isHex then 16 else 10) {} rest
  if !d.seenDigit then none
  else
    let mark : UInt8 := if isHex then 0x70 else 0x65
    let (e, rest) ← match rest with
      | b :: rest' => if lower b = mark then exponent? rest' else if isHex then none else some (0, b :: rest')
      | [] => if isHex then none else some (0, [])
    if !rest.isEmpty || (bs.contains underscore && !spaced bs) then none
    else
      let behind : Int := if isHex then 4 * d.behind else d.behind
      some ⟨negative, isHex, d.value, e - behind, d.count⟩

/-- Decimal numbers with a point this far from their first digit are out of reach of all
formats. -/
def decimalReach : Int := 400

/-- The pattern nearest to a number, without its sign. -/
def nearest (f : Ieee.Format) (s : Scientific) : Nat :=
  if s.value = 0 then 0
  else if s.isHex then
    let (num, den) := Ieee.scale s.value 1 s.exponent
    f.ofRatio num den
  else
    let point := s.exponent + s.count
    if point > decimalReach then f.infinityBits
    else if point < -decimalReach then 0
    else if s.exponent ≥ 0 then f.ofRatio (s.value * Nat.pow 10 s.exponent.toNat) 1
    else f.ofRatio s.value (Nat.pow 10 (-s.exponent).toNat)

/-- The pattern that the word for no number stands for. -/
def nanWord (f : Ieee.Format) : Nat :=
  Ieee.Format.convert Ieee.double f (Ieee.double.nanBits + 1)

/-- The words for infinities and for no number, in any case; only infinities have a sign. -/
def word? (f : Ieee.Format) (bs : List UInt8) : Option Nat :=
  let (negative, rest) := sign bs
  let is (s : String) : Bool := rest.map lower == (s : Text).bytes
  if is "inf" || is "infinity" then some (f.withSign negative f.infinityBits)
  else if is "nan" && rest.length = bs.length then some (nanWord f)
  else none

def pattern (f : Ieee.Format) (bs : List UInt8) : Except Fault Nat :=
  match word? f bs with
  | some bits => .ok bits
  | none =>
    match scientific? bs with
    | none => .error .malformed
    | some s =>
      let bits := nearest f s
      if bits = f.infinityBits then .error .range else .ok (f.withSign s.negative bits)

/-- The floating point number which a text is, as the nearest pattern of the format. -/
def float (f : Ieee.Format) (text : Text) : Except Error Nat :=
  (pattern f text.bytes).mapError fun fault => ⟨.float, text, fault⟩

end Numeral

end ClassWasm
