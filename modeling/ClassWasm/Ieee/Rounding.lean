/-
  Functions on floating point patterns with one rounding at the end: nearby integers, and square
  and cube roots by way of integer roots.
-/
import ClassWasm.Ieee

namespace ClassWasm.Ieee

/-- How a number between two integers is settled. -/
inductive Direction where
  | down
  | up
  | nearestEven
deriving DecidableEq

/-- The integer for the magnitude `m / 2^k`. -/
def Direction.settle (d : Direction) (negative : Bool) (m k : Nat) : Nat :=
  let whole := m / Nat.pow 2 k
  let exact := m % Nat.pow 2 k = 0
  match d with
  | down => if negative ∧ ¬exact then whole + 1 else whole
  | up => if ¬negative ∧ ¬exact then whole + 1 else whole
  | nearestEven => roundDiv m (Nat.pow 2 k)

/-- The nearby integer as a pattern. It keeps the sign, also where it is zero. -/
def integral (f : Format) (d : Direction) (bits : Nat) : Nat :=
  match f.unpack bits with
  | .finite negative m q =>
    if q ≥ 0 then bits else f.pack (.finite negative (d.settle negative m (-q).toNat) 0)
  | _ => bits

/-- The nearest integer, a half going up, kept between `lo` and `hi`; zero for no number. -/
def roundHalfUp (f : Format) (lo hi : Int) (bits : Nat) : Int :=
  match f.unpack bits with
  | .nan => 0
  | .infinity negative => if negative then lo else hi
  | .finite negative m q =>
    let twice := Number.signed negative (2 * m)
    let n := if q ≥ 0 then Number.signed negative (m * Nat.pow 2 q.toNat)
      else (twice + (Nat.pow 2 (-q).toNat : Nat)).fdiv (Nat.pow 2 ((-q).toNat + 1) : Nat)
    max lo (min hi n)

/-- The largest `r` whose power `r^k` does not exceed `n`, found bit by bit. -/
def integerRoot (k n : Nat) : Nat :=
  (List.range (n.log2 / k + 1)).foldr (fun i r =>
    let next := r + Nat.pow 2 i
    if Nat.pow next k ≤ n then next else r) 0

/-- The `k`-th root of `m · 2^q`. The integer root of a number scaled up this far has more bits
than any format; one more bit stands for what it leaves over. -/
def root (f : Format) (k : Nat) (negative : Bool) (m : Nat) (q : Int) : Nat :=
  let shift := 64 * k + (q.emod k).toNat
  let n := m * Nat.pow 2 shift
  let r := integerRoot k n
  let rest := if Nat.pow r k = n then 0 else 1
  f.pack (.finite negative (2 * r + rest) ((q - shift).ediv k - 1))

def sqrt (f : Format) (bits : Nat) : Nat :=
  match f.unpack bits with
  | .nan => bits
  | .infinity negative => if negative then f.nanBits else bits
  | .finite negative m q =>
    if m = 0 then bits else if negative then f.nanBits else root f 2 false m q

def cbrt (f : Format) (bits : Nat) : Nat :=
  match f.unpack bits with
  | .finite negative m q => if m = 0 then bits else root f 3 negative m q
  | _ => bits

def isZero (f : Format) (bits : Nat) : Bool := f.magnitude bits = 0

/-- The greater of two numbers. Infinity prevails over no number, and no number over all
others. -/
def maximum (f : Format) (x y : Nat) : Nat :=
  if x = f.infinityBits || y = f.infinityBits then f.infinityBits
  else match compare? f x y with
    | none => f.nanBits
    | some .gt => x
    | some .lt => y
    | some .eq => if f.isNegative x then y else x

/-- The lesser of two numbers, with the same rules for the other infinity. -/
def minimum (f : Format) (x y : Nat) : Nat :=
  let lowest := f.withSign true f.infinityBits
  if x = lowest || y = lowest then lowest
  else match compare? f x y with
    | none => f.nanBits
    | some .lt => x
    | some .gt => y
    | some .eq => if f.isNegative x then x else y

/-- One for positive numbers, minus one for negative ones; all else stays. -/
def signum (f : Format) (bits : Nat) : Nat :=
  if f.isNan bits || isZero f bits then bits
  else f.withSign (f.isNegative bits) (f.ofRatio 1 1)

/-- The order of all patterns in which minus zero stands below zero and what is no number above
everything. -/
def totalCompare (f : Format) (x y : Nat) : Ordering :=
  match compare? f x y with
  | some .lt => .lt
  | some .gt => .gt
  | _ => Ord.compare (rank x) (rank y)
where
  /-- The pattern as a signed number of its width. -/
  rank (bits : Nat) : Int :=
    if f.isNan bits then f.nanBits
    else if f.isNegative bits then (bits : Int) - 2 * f.signBit else bits

/-- The length of the diagonal of a rectangle. -/
def hypot (f : Format) (x y : Nat) : Nat :=
  let p := f.magnitude x
  let q := f.magnitude y
  if p = f.infinityBits || q = f.infinityBits then f.infinityBits
  else if f.isNan p || f.isNan q then f.nanBits
  else
    let (p, q) := if p < q then (q, p) else (p, q)
    if p = 0 then 0
    else
      let ratio := div f q p
      mul f p (sqrt f (add f (f.ofRatio 1 1) (mul f ratio ratio)))

end ClassWasm.Ieee
