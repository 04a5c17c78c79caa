/-
  Floating point numbers in decimal: the fewest digits that read back as the same number, and the
  notation that messages and listings use.
-/
import ClassWasm.Ieee
import ClassWasm.Text

namespace ClassWasm

/-- A decimal number `digits · 10^exponent`. -/
structure Decimal where
  digits : Nat
  exponent : Int
deriving DecidableEq

namespace Decimal

/-- Numerator and denominator of `num / den · 10^e`. -/
def scale (num den : Nat) (e : Int) : Nat × Nat :=
  if e ≥ 0 then (num * Nat.pow 10 e.toNat, den) else (num, den * Nat.pow 10 (-e).toNat)

/-- The least `k`, from a lower bound on, for which `num / den` is below `10^k`. -/
def pointFrom (num den : Nat) (k : Int) : (fuel : Nat) → Int
  | 0 => k
  | fuel + 1 =>
    let (a, b) := scale num den (-k)
    if a < b then k else pointFrom num den (k + 1) fuel

/-- The number of digits before the point of `num / den`, counted down below one. A power of two
bounds it to within two places. -/
def point (num den : Nat) : Int :=
  let e : Int := (num.log2 : Int) - den.log2 - 1
  pointFrom num den (e * 30103 / 100000) 4

/-- Without zeros at the end; `fuel` is at least the number of digits. -/
def strip (d : Decimal) : (fuel : Nat) → Decimal
  | 0 => d
  | fuel + 1 =>
    if d.digits ≠ 0 ∧ d.digits % 10 = 0 then strip ⟨d.digits / 10, d.exponent + 1⟩ fuel else d

/-- The reals that round to `m · 2^q`, as multiples of `2^(q - 2)`; the ends belong to them where
`m` is even. Below a power of two the neighbour is only half as far away. -/
structure Interval where
  low : Nat
  high : Nat
  closed : Bool

def interval (f : Ieee.Format) (m : Nat) (q : Int) : Interval :=
  let low := if m = Nat.pow 2 f.fraction ∧ q > f.leastQ then 4 * m - 1 else 4 * m - 2
  ⟨low, 4 * m + 2, m % 2 = 0⟩

/-- Whether `c · 10^e` lies in the interval. -/
def Interval.holds (i : Interval) (q : Int) (c : Nat) (e : Int) : Bool :=
  let (a, b) := scale c 1 e
  let (a, b) := Ieee.scale a b (2 - q)
  if i.closed then i.low * b ≤ a && a ≤ i.high * b else i.low * b < a && a < i.high * b

/-- The nearest decimal with `n` digits in the interval, where there is one. -/
def withDigits? (f : Ieee.Format) (m : Nat) (q : Int) (k : Int) (n : Nat) : Option Decimal :=
  let i := interval f m q
  let e := k - n
  let (num, den) := Ieee.scale m 1 q
  let (a, b) := scale num den (-e)
  let c := a / b
  let nearest := Ieee.roundDiv a b
  let other := if nearest = c then c + 1 else c
  if i.holds q nearest e then some ⟨nearest, e⟩
  else if i.holds q other e then some ⟨other, e⟩
  else none

/-- The fewest digits that read back as `m · 2^q`. Seventeen are always enough. -/
def shortest (f : Ieee.Format) (m : Nat) (q : Int) : Decimal :=
  let (num, den) := Ieee.scale m 1 q
  let k := point num den
  match (List.range 17).findSome? fun n => withDigits? f m q k (n + 1) with
  | some d => d.strip 20
  | none => ⟨num / den, 0⟩

/-- The nearest decimal with exactly `n` digits to `num / den`. -/
def rounded (num den n : Nat) : Decimal :=
  let k := point num den
  let (a, b) := scale num den (n - k)
  let c := Ieee.roundDiv a b
  if c = Nat.pow 10 n then ⟨Nat.pow 10 (n - 1), k - n + 1⟩ else ⟨c, k - n⟩

/-- The digits of a positive number. -/
def digitBytes (d : Decimal) : List UInt8 := (Text.ofNat d.digits).bytes

/-- At least two digits, and always a sign. -/
def exponentText (e : Int) : Text :=
  let digits := Text.ofNat e.natAbs
  (if e < 0 then "e-" else "e+") ++ (if digits.length < 2 then "0" ++ digits else digits)

/-- One digit before the point, and an exponent. -/
def scientific (d : Decimal) : Text :=
  match d.digitBytes with
  | [] => Text.empty
  | a :: rest =>
    let point : Text := if rest.isEmpty then Text.empty else "." ++ ⟨rest⟩
    ⟨[a]⟩ ++ point ++ exponentText (d.exponent + rest.length)

/-- All digits at their places. -/
def positional (d : Decimal) : Text :=
  let ds := d.digitBytes
  let before := d.exponent + ds.length
  if d.exponent ≥ 0 then ⟨ds ++ List.replicate d.exponent.toNat 0x30⟩
  else if before > 0 then ⟨ds.take before.toNat⟩ ++ "." ++ ⟨ds.drop before.toNat⟩
  else "0." ++ ⟨List.replicate (-before).toNat 0x30 ++ ds⟩

/-- Positional from 0.0001 up to but not including 1000000, scientific elsewhere. -/
def text (d : Decimal) : Text :=
  let e := d.exponent + d.digitBytes.length - 1
  if e < -4 ∨ e ≥ 6 then d.scientific else d.positional

end Decimal

namespace Ieee

def signText (negative : Bool) : Text := if negative then "-" else Text.empty

/-- The number of a bit pattern in the fewest digits. -/
def Format.text (f : Format) (bits : Nat) : Text :=
  match f.unpack bits with
  | .nan => "NaN"
  | .infinity negative => if negative then "-Inf" else "+Inf"
  | .finite negative m q =>
    let digits : Text := if m = 0 then "0" else (Decimal.shortest f m q).text
    signText negative ++ digits

/-- The number of a bit pattern with `n` digits and an exponent. -/
def Format.textRounded (f : Format) (n : Nat) (bits : Nat) : Text :=
  match f.unpack bits with
  | .nan => "NaN"
  | .infinity negative => if negative then "-Inf" else "+Inf"
  | .finite negative m q =>
    let (num, den) := scale m 1 q
    let zero : Text := "0." ++ ⟨List.replicate (n - 1) 0x30⟩ ++ "e+00"
    signText negative ++ if m = 0 then zero else (Decimal.rounded num den n).scientific

end Ieee

end ClassWasm
