/-
  Decompression of deflated data: blocks of stored bytes, or of literals and copies in a prefix
  code that is fixed or comes with the block. Bytes are taken only when their bits are needed, so a
  fault knows how many bytes came before it.
-/
import ClassWasm.Bytes

namespace ClassWasm

namespace Inflate

inductive Error where
  /-- No valid data, seen after that many bytes. -/
  | corrupt (offset : Nat)
  /-- The data ends too early. -/
  | ended
deriving DecidableEq

/-- Bits taken from the input and not used yet are held as a number, the earliest bit lowest. -/
structure State where
  rest : Bytes
  taken : Nat := 0
  held : Nat := 0
  bits : Nat := 0
  output : Array UInt8 := #[]

abbrev Inflater := EStateM Error State

def corrupt {α : Type} : Inflater α := do throw (.corrupt (← get).taken)

/-- Takes bytes until at least `n` bits are held. -/
def pull (n : Nat) (taken held bits : Nat) (output : Array UInt8) : Bytes → Option State
  | [] => if n ≤ held then some ⟨[], taken, held, bits, output⟩ else none
  | b :: rest =>
    if n ≤ held then some ⟨b :: rest, taken, held, bits, output⟩
    else pull n (taken + 1) (held + 8) (bits + b.toNat * Nat.pow 2 held) output rest

def hold (n : Nat) : Inflater Unit := fun s =>
  match pull n s.taken s.held s.bits s.output s.rest with
  | some s => .ok () s
  | none => .error .ended s

/-- Uses up the first `n` bits held. -/
def drop (n : Nat) : Inflater Unit :=
  modify fun s => { s with held := s.held - n, bits := s.bits / Nat.pow 2 n }

/-- The number that the next `n` bits spell, lowest bit first. -/
def number (n : Nat) : Inflater Nat := do
  hold n
  let v := (← get).bits % Nat.pow 2 n
  drop n
  return v

/-- A prefix code in which the codes of one length are successive numbers and go to symbols in
order. -/
structure Code where
  /-- How many bits to take before a code is looked up. -/
  least : Nat
  /-- How many codes there are of length one, two and so on. -/
  counts : List Nat
  /-- The symbols by length of their codes, then by number. -/
  symbols : Array Nat

namespace Code

def maxLength : Nat := 15

/-- The code that gives each symbol a code of the length listed for it, or none for length zero. -/
def ofLengths (lengths : List Nat) : Code :=
  let used := (List.range maxLength).map (· + 1)
  let counts := used.map fun n => lengths.count n
  ⟨(lengths.filter (0 < ·)).min?.getD 0, counts,
    (used.flatMap fun n => lengths.zipIdx.filterMap fun (k, i) =>
      if k = n then some i else none).toArray⟩

/-- Whether every sequence of bits starts with a code. A code of one bit alone is let through, and
so is the empty one, which fails when it is used. -/
def isUsable (c : Code) : Bool :=
  let counts := (c.counts.reverse.dropWhile (· = 0)).reverse
  let assigned := counts.foldl (fun n k => 2 * n + k) 0
  counts.isEmpty || assigned = Nat.pow 2 counts.length || (assigned = 1 && counts.length = 1)

/-- The code at the start of bits, going through the lengths: `code` is the number read so far,
`first` the first code of the length and `index` the place of its symbol. -/
def search (symbols : Array Nat) (length code first index bits : Nat) :
    (counts : List Nat) → Option (Nat × Nat)
  | [] => none
  | n :: counts =>
    let code := code + bits % 2
    if code < first + n then (symbols[index + (code - first)]?).map (length, ·)
    else search symbols (length + 1) (2 * code) (2 * (first + n)) (index + n) (bits / 2) counts

/-- The length of the code at the start of bits, and its symbol. -/
def find? (c : Code) (bits : Nat) : Option (Nat × Nat) := search c.symbols 1 0 0 0 bits c.counts

end Code

/-- The next symbol. A code is looked up with zeros for the bits not taken yet; if it is longer than
what is held, more bits are taken and it is looked up again. -/
def symbol (c : Code) : Inflater Nat := go (Code.maxLength + 1) c.least
where
  go : Nat → Nat → Inflater Nat
    | 0, _ => corrupt
    | tries + 1, n => do
      hold n
      let s ← get
      match c.find? s.bits with
      | none => corrupt
      | some (length, symbol) =>
        if length ≤ s.held then
          drop length
          return symbol
        else go tries length

/-- The bits that are left, a bound on the number of symbols. -/
def bitsLeft (s : State) : Nat := 8 * s.rest.length + s.held

def endOfBlock : Nat := 256

/-- The length that a symbol beyond the end mark stands for. -/
def copyLength (v : Nat) : Inflater Nat := do
  if v < 265 then return v - 254
  else if v < 285 then
    let extra := (v - 261) / 4
    return ((v - 265) % 4 + 4) * Nat.pow 2 extra + 3 + (← number extra)
  else if v = 285 then return 258
  else corrupt

def copyDistance (v : Nat) : Inflater Nat := do
  if v < 4 then return v + 1
  else if v < 30 then
    let extra := (v - 2) / 2
    return Nat.pow 2 (extra + 1) + 1 + v % 2 * Nat.pow 2 extra + (← number extra)
  else corrupt

/-- Repeats output from `distance` bytes back. The copy may run into itself. -/
def copy (distance : Nat) : (length : Nat) → Array UInt8 → Array UInt8
  | 0, out => out
  | n + 1, out => copy distance n (out.push (out[out.size - distance]?.getD 0))

/-- The symbols of a block up to its end. -/
def symbols (literals distances : Code) : (fuel : Nat) → Inflater Unit
  | 0 => corrupt
  | fuel + 1 => do
    let v ← symbol literals
    if v < endOfBlock then
      modify fun s => { s with output := s.output.push (UInt8.ofNat v) }
      symbols literals distances fuel
    else if v = endOfBlock then return
    else
      let length ← copyLength v
      let distance ← copyDistance (← symbol distances)
      if (← get).output.size < distance then corrupt
      modify fun s => { s with output := copy distance length s.output }
      symbols literals distances fuel

def compressed (literals distances : Code) : Inflater Unit := do
  symbols literals distances (bitsLeft (← get) + 1)

def fixedLiterals : Code :=
  .ofLengths (List.replicate 144 8 ++ List.replicate 112 9 ++ List.replicate 24 7
    ++ List.replicate 8 8)

def fixedDistances : Code := .ofLengths (List.replicate 32 5)

/-- Appends stored bytes; what there is of them is kept if they end too early. -/
def storedBytes (n : Nat) : Inflater Unit := fun s =>
  let data := s.rest.take n
  let s := { s with
    rest := s.rest.drop n, taken := s.taken + data.length, output := s.output ++ data }
  if data.length < n then .error .ended s else .ok () s

/-- A block of stored bytes: their number, the same inverted, and the bytes. It starts at a
byte. -/
def stored : Inflater Unit := do
  modify fun s => { s with held := 0, bits := 0 }
  let n ← number 16
  let inverted ← number 16
  if n + inverted ≠ 0xFFFF then corrupt
  storedBytes n

/-- The order in which the lengths of the code for lengths are listed. -/
def lengthOrder : List Nat := [16, 17, 18, 0, 8, 7, 9, 6, 10, 5, 11, 4, 12, 3, 13, 2, 14, 1, 15]

/-- `n` lengths in that order, put back into the order of their symbols. -/
def lengthCode (n : Nat) : Inflater Code := do
  let listed ← (List.range n).mapM fun _ => number 3
  let pairs := lengthOrder.zip listed
  return .ofLengths ((List.range lengthOrder.length).map fun i => (pairs.lookup i).getD 0)

/-- The lengths of codes, behind those known, up to `total`: one at a time, or repeated. -/
def lengths (c : Code) (total : Nat) : (fuel : Nat) → Array Nat → Inflater (Array Nat)
  | 0, known => return known
  | fuel + 1, known => do
    if known.size ≥ total then return known
    let x ← symbol c
    if x < 16 then lengths c total fuel (known.push x)
    else
      let (least, extra, value) ← match x, known.back? with
        | 16, none => corrupt
        | 16, some last => pure (3, 2, last)
        | 17, _ => pure (3, 3, 0)
        | _, _ => pure (11, 7, 0)
      let times := least + (← number extra)
      if known.size + times > total then corrupt
      lengths c total fuel (known ++ List.replicate times value)

/-- The codes at the start of a block that brings its own. -/
def codes : Inflater (Code × Code) := do
  hold 14
  let literals := (← number 5) + 257
  if literals > 286 then corrupt
  let distances := (← number 5) + 1
  if distances > 30 then corrupt
  let c ← lengthCode ((← number 4) + 4)
  if !c.isUsable then corrupt
  let total := literals + distances
  let known := (← lengths c total total #[]).toList
  let code := Code.ofLengths (known.take literals)
  let distanceCode := Code.ofLengths (known.drop literals)
  if !code.isUsable || !distanceCode.isUsable then corrupt
  return ({ code with least := max code.least ((known[endOfBlock]?).getD 0) }, distanceCode)

/-- One block; whether it is the last. -/
def block : Inflater Bool := do
  hold 3
  let final := (← number 1) = 1
  match ← number 2 with
  | 0 => stored
  | 1 => compressed fixedLiterals fixedDistances
  | 2 => do
    let (literals, distances) ← codes
    compressed literals distances
  | _ => corrupt
  return final

def blocks : (fuel : Nat) → Inflater Unit
  | 0 => corrupt
  | fuel + 1 => do if !(← block) then blocks fuel

end Inflate

/-- The data that bytes decompress to, as far as they are valid, and what is wrong with them. -/
def inflate (bs : Bytes) : Bytes × Option Inflate.Error :=
  match (Inflate.blocks (8 * bs.length + 1)) { rest := bs } with
  | .ok _ s => (s.output.toList, none)
  | .error e s => (s.output.toList, some e)

end ClassWasm
