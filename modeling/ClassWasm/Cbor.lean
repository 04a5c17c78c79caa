/-
  The concise binary object representation: data items, their canonical bytes, and reading with
  the limits that guard against hostile input.
-/
import ClassWasm.Bytes
import ClassWasm.Text

namespace ClassWasm

/-- A data item. Text is kept in the pieces in which it came. -/
inductive Cbor where
  | unsigned (n : Nat)
  /-- The number `-1 - n`. -/
  | negative (n : Nat)
  | bytes (bs : Bytes)
  | text (pieces : List Bytes)
  | array (items : List Cbor)
  | map (pairs : List (Cbor × Cbor))
  | tag (number : Nat) (content : Cbor)
  | simple (n : Nat)
  /-- A floating point number of any width. -/
  | float
deriving Inhabited

namespace Cbor

def ofBool (b : Bool) : Cbor := .simple (if b then 21 else 20)

def ofText (t : Text) : Cbor := .text [t.bytes]

def isNull : Cbor → Bool
  | simple n => n = 22 || n = 23
  | _ => false

/-- Major type and argument in the shortest form. -/
def head (major : UInt8) (n : Nat) : Bytes :=
  let first (low : UInt8) : UInt8 := major <<< 5 ||| low
  if n < 24 then [first (UInt8.ofNat n)]
  else if n < 0x100 then [first 24, UInt8.ofNat n]
  else if n < 0x10000 then first 25 :: Bytes.be16 (UInt16.ofNat n)
  else if n < 0x100000000 then first 26 :: Bytes.be32 (UInt32.ofNat n)
  else first 27 :: Bytes.be64 (UInt64.ofNat n)

mutual

/-- The bytes of an item, with all lengths given and in their shortest form. -/
def encode : Cbor → Bytes
  | unsigned n => head 0 n
  | negative n => head 1 n
  | bytes bs => head 2 bs.length ++ bs
  | text pieces => head 3 pieces.flatten.length ++ pieces.flatten
  | array items => head 4 items.length ++ encodeAll items
  | map pairs => head 5 pairs.length ++ encodePairs pairs
  | tag number content => head 6 number ++ encode content
  | simple n => head 7 n
  | float => []

def encodeAll : List Cbor → Bytes
  | [] => []
  | i :: is => encode i ++ encodeAll is

def encodePairs : List (Cbor × Cbor) → Bytes
  | [] => []
  | (k, v) :: ps => encode k ++ encode v ++ encodePairs ps

end

/-- The start of an item: major type, the low bits of its first byte, and the argument. -/
structure Head where
  major : Nat
  info : Nat
  argument : Nat

/-- A big-endian number in the next `n` bytes. -/
def number? (n : Nat) (bs : Bytes) : Option (Nat × Bytes) :=
  let taken := bs.take n
  if taken.length = n then some (taken.foldl (fun v b => v * 256 + b.toNat) 0, bs.drop n) else none

def head? : Bytes → Option (Head × Bytes)
  | [] => none
  | b :: bs =>
    let major := b.toNat / 32
    let info := b.toNat % 32
    let wide (n : Nat) := (number? n bs).map fun (v, rest) => (⟨major, info, v⟩, rest)
    if info < 24 then some (⟨major, info, info⟩, bs)
    else if info = 24 then wide 1
    else if info = 25 then wide 2
    else if info = 26 then wide 4
    else if info = 27 then wide 8
    else if info = 31 then some (⟨major, info, 0⟩, bs)
    else none

/-- The byte that ends an item of unknown length. -/
def stopByte : UInt8 := 0xFF

/-- Containers and tags inside each other go no deeper than this. -/
def maxDepth : Nat := 32

/-- Arrays and maps hold no more than this many items or pairs. -/
def maxItems : Nat := 131072

/-- `n` items, one after the other. -/
def times {α : Type} (one : Bytes → Option (α × Bytes)) : (n : Nat) → Bytes → Option (List α × Bytes)
  | 0, bs => some ([], bs)
  | n + 1, bs => do
    let (a, bs) ← one bs
    let (as, bs) ← times one n bs
    some (a :: as, bs)

/-- Items up to the byte that ends them; `fuel` is at least the number of bytes. -/
def untilStop {α : Type} (one : Bytes → Option (α × Bytes)) :
    (fuel : Nat) → Bytes → Option (List α × Bytes)
  | 0, _ => none
  | _ + 1, [] => none
  | fuel + 1, b :: bs =>
    if b = stopByte then some ([], bs)
    else do
      let (a, rest) ← one (b :: bs)
      let (as, rest) ← untilStop one fuel rest
      some (a :: as, rest)

/-- The contents of a string of known length. -/
def chunk? (n : Nat) (bs : Bytes) : Option (Bytes × Bytes) :=
  let taken := bs.take n
  if taken.length = n then some (taken, bs.drop n) else none

/-- One piece of a string of unknown length, which must be of the same major type. -/
def piece? (major : Nat) (bs : Bytes) : Option (Bytes × Bytes) := do
  let (h, bs) ← head? bs
  if h.major = major ∧ h.info ≠ 31 then chunk? h.argument bs else none

/-- The pieces of a string. -/
def pieces? (h : Head) (bs : Bytes) : Option (List Bytes × Bytes) :=
  if h.info = 31 then untilStop (piece? h.major) (bs.length + 1) bs
  else (chunk? h.argument bs).map fun (c, rest) => ([c], rest)

/-- Up to the limit of items, with `one` reading each. -/
def contents? {α : Type} (one : Bytes → Option (α × Bytes)) (h : Head) (bs : Bytes) :
    Option (List α × Bytes) := do
  let (items, rest) ← if h.info = 31 then untilStop one (bs.length + 1) bs
    else if h.argument > maxItems then none
    else times one h.argument bs
  if items.length > maxItems then none else some (items, rest)

def pair? {α : Type} (one : Bytes → Option (α × Bytes)) (bs : Bytes) : Option ((α × α) × Bytes) := do
  let (k, bs) ← one bs
  let (v, bs) ← one bs
  some ((k, v), bs)

def simple? (h : Head) : Option Cbor :=
  if h.info < 24 then some (.simple h.info)
  else if h.info = 24 then if h.argument < 32 then none else some (.simple h.argument)
  else if h.info ≤ 27 then some .float
  else none

/-- The item at the start of the bytes. `depth` counts the containers and tags around it, of which
a tag directly inside another one is counted too. `fuel` is at least the number of bytes. -/
def item? : (fuel depth : Nat) → Bytes → Option (Cbor × Bytes)
  | 0, _, _ => none
  | fuel + 1, depth, bs => do
    let (h, bs) ← head? bs
    let deeper (bs : Bytes) := if depth ≥ maxDepth then none else item? fuel (depth + 1) bs
    match h.major with
    | 0 => if h.info = 31 then none else some (.unsigned h.argument, bs)
    | 1 => if h.info = 31 then none else some (.negative h.argument, bs)
    | 2 => (pieces? h bs).map fun (ps, rest) => (.bytes ps.flatten, rest)
    | 3 => (pieces? h bs).map fun (ps, rest) => (.text ps, rest)
    | 4 =>
      if depth ≥ maxDepth then none
      else (contents? deeper h bs).map fun (items, rest) => (.array items, rest)
    | 5 =>
      if depth ≥ maxDepth then none
      else (contents? (pair? deeper) h bs).map fun (pairs, rest) => (.map pairs, rest)
    | 6 =>
      if h.info = 31 then none
      else match bs with
        | [] => none
        | b :: _ =>
          let inner := if b.toNat / 32 = 6 then deeper bs else item? fuel depth bs
          inner.map fun (content, rest) => (.tag h.argument content, rest)
    | _ => (simple? h).map fun s => (s, bs)

/-- The one item that the bytes are. -/
def parse? (bs : Bytes) : Option Cbor :=
  match item? (bs.length + 1) 0 bs with
  | some (i, []) => some i
  | _ => none

end Cbor

end ClassWasm
