/-
  Binary floating point numbers as bit patterns. A pattern stands for `m · 2^q` with a sign, for an
  infinity or for no number; rounding goes to the nearest pattern, a half to the even one.
-/

namespace ClassWasm.Ieee

/-- The widths of the stored significand and of the exponent. -/
structure Format where
  fraction : Nat
  exponent : Nat
deriving DecidableEq

def single : Format := ⟨23, 8⟩

def double : Format := ⟨52, 11⟩

/-- What a bit pattern stands for; `finite` is `m · 2^q`. -/
inductive Number where
  | nan
  | infinity (negative : Bool)
  | finite (negative : Bool) (m : Nat) (q : Int)
deriving DecidableEq

/-- `num / den`, a half going to the even neighbour. -/
def roundDiv (num den : Nat) : Nat :=
  let d := num / den
  let r := num % den
  if 2 * r > den ∨ (2 * r = den ∧ d % 2 = 1) then d + 1 else d

/-- Numerator and denominator of `num / den · 2^e`. -/
def scale (num den : Nat) (e : Int) : Nat × Nat :=
  if e ≥ 0 then (num * Nat.pow 2 e.toNat, den) else (num, den * Nat.pow 2 (-e).toNat)

namespace Format

def bias (f : Format) : Nat := Nat.pow 2 (f.exponent - 1) - 1

/-- The exponent of the last place of the smallest numbers. -/
def leastQ (f : Format) : Int := 1 - f.bias - f.fraction

/-- The exponent field of infinities and of what is no number. -/
def allOnes (f : Format) : Nat := Nat.pow 2 f.exponent - 1

/-- The pattern of the sign alone. -/
def signBit (f : Format) : Nat := Nat.pow 2 (f.fraction + f.exponent)

def infinityBits (f : Format) : Nat := f.allOnes * Nat.pow 2 f.fraction

/-- The bit that marks a quiet pattern that is no number. -/
def quietBit (f : Format) : Nat := Nat.pow 2 (f.fraction - 1)

def nanBits (f : Format) : Nat := f.infinityBits + f.quietBit

def isNegative (f : Format) (bits : Nat) : Bool := bits / f.signBit % 2 == 1

def magnitude (f : Format) (bits : Nat) : Nat := bits % f.signBit

def isNan (f : Format) (bits : Nat) : Bool := f.magnitude bits > f.infinityBits

def unpack (f : Format) (bits : Nat) : Number :=
  let negative := f.isNegative bits
  let m := bits % Nat.pow 2 f.fraction
  let e := bits / Nat.pow 2 f.fraction % Nat.pow 2 f.exponent
  if e = f.allOnes then if m = 0 then .infinity negative else .nan
  else if e = 0 then .finite negative m f.leastQ
  else .finite negative (m + Nat.pow 2 f.fraction) (f.leastQ + e - 1)

/-- The pattern nearest to `num / den`, without a sign. -/
def ofRatio (f : Format) (num den : Nat) : Nat :=
  if num = 0 then 0
  else
    let e : Int := (num.log2 : Int) - den.log2
    let (a, b) := scale num den (-e)
    let q := max f.leastQ ((if a < b then e - 1 else e) - f.fraction)
    let (a, b) := scale num den (-q)
    min f.infinityBits ((q - f.leastQ).toNat * Nat.pow 2 f.fraction + roundDiv a b)

def withSign (f : Format) (negative : Bool) (magnitude : Nat) : Nat :=
  if negative then f.signBit + magnitude else magnitude

/-- The nearest pattern. -/
def pack (f : Format) : Number → Nat
  | .nan => f.nanBits
  | .infinity negative => f.withSign negative f.infinityBits
  | .finite negative m q =>
    let (num, den) := scale m 1 q
    f.withSign negative (f.ofRatio num den)

/-- The same number in another format. What is no number keeps its sign and the leading bits of its
pattern, and becomes quiet. -/
def convert (source target : Format) (bits : Nat) : Nat :=
  if source.isNan bits then
    let m := bits % Nat.pow 2 source.fraction
    let m := m * Nat.pow 2 target.fraction / Nat.pow 2 source.fraction
    target.withSign (source.isNegative bits)
      (target.infinityBits + (m ||| target.quietBit))
  else target.pack (source.unpack bits)

def ofInt (f : Format) (n : Int) : Nat := f.withSign (n < 0) (f.ofRatio n.natAbs 1)

end Format

namespace Number

/-- A signed sum with the sign of an exact zero given. -/
def ofInt (n : Int) (q : Int) (zeroNegative : Bool) : Number :=
  if n = 0 then .finite zeroNegative 0 q else .finite (n < 0) n.natAbs q

def signed (negative : Bool) (m : Nat) : Int := if negative then -m else m

def neg : Number → Number
  | nan => nan
  | infinity s => infinity !s
  | finite s m q => finite (!s) m q

end Number

/-- The kinds of exact outcome of a quotient or product of infinities and zeros are settled case by
case; everything else is exact arithmetic before one rounding. -/
def add (f : Format) (x y : Nat) : Nat :=
  match f.unpack x, f.unpack y with
  | .nan, _ | _, .nan => f.nanBits
  | .infinity s, .infinity t => if s = t then f.pack (.infinity s) else f.nanBits
  | .infinity s, _ | _, .infinity s => f.pack (.infinity s)
  | .finite s m p, .finite t n q =>
    let r := min p q
    let sum := Number.signed s (m * Nat.pow 2 (p - r).toNat)
      + Number.signed t (n * Nat.pow 2 (q - r).toNat)
    f.pack (.ofInt sum r (s && t))

def negate (f : Format) (x : Nat) : Nat :=
  f.withSign (!f.isNegative x) (f.magnitude x)

def sub (f : Format) (x y : Nat) : Nat := add f x (negate f y)

def mul (f : Format) (x y : Nat) : Nat :=
  match f.unpack x, f.unpack y with
  | .nan, _ | _, .nan => f.nanBits
  | .infinity s, .infinity t => f.pack (.infinity (s != t))
  | .infinity s, .finite t m _ | .finite t m _, .infinity s =>
    if m = 0 then f.nanBits else f.pack (.infinity (s != t))
  | .finite s m p, .finite t n q => f.pack (.finite (s != t) (m * n) (p + q))

def div (f : Format) (x y : Nat) : Nat :=
  match f.unpack x, f.unpack y with
  | .nan, _ | _, .nan => f.nanBits
  | .infinity _, .infinity _ => f.nanBits
  | .infinity s, .finite t _ _ => f.pack (.infinity (s != t))
  | .finite s _ _, .infinity t => f.withSign (s != t) 0
  | .finite s m p, .finite t n q =>
    if n = 0 then if m = 0 then f.nanBits else f.pack (.infinity (s != t))
    else
      let (num, den) := scale m n (p - q)
      f.withSign (s != t) (f.ofRatio num den)

/-- How two numbers compare; `none` where one is no number. Both zeros are equal. -/
def compare? (f : Format) (x y : Nat) : Option Ordering :=
  if f.isNan x || f.isNan y then none
  else some (Ord.compare (key x) (key y))
where
  /-- Magnitudes are ordered like their patterns. -/
  key (bits : Nat) : Int := Number.signed (f.isNegative bits) (f.magnitude bits)

/-- `m · 2^q` without its fraction. -/
def truncate (m : Nat) (q : Int) : Nat :=
  if q ≥ 0 then m * Nat.pow 2 q.toNat else m / Nat.pow 2 (-q).toNat

/-- The integer next to the number toward zero, kept between `lo` and `hi`; zero for no number. -/
def toIntSaturating (f : Format) (lo hi : Int) (bits : Nat) : Int :=
  match f.unpack bits with
  | .nan => 0
  | .infinity s => if s then lo else hi
  | .finite s m q => max lo (min hi (Number.signed s (truncate m q)))

end ClassWasm.Ieee
