/-
  Reading bytes in order. A cursor holds what is left and how far it stands from the start of the
  outermost input; a reader that runs short fails and says what it wanted, where, and what is left.
-/
import ClassWasm.Bytes
import ClassWasm.Fault

namespace ClassWasm

structure Cursor where
  rest : Bytes
  offset : Nat := 0

/-- Fewer bytes are left than a field needs. -/
structure Shortage where
  wanted : Int
  offset : Nat
  left : Nat

instance : Fault Shortage where
  message s := s!"truncated input: need {s.wanted} bytes at offset {s.offset}, have {s.left}"
  causes _ := [.truncated]

abbrev Reader (ε : Type) := StateT Cursor (Except ε)

namespace Reader

/-- Reports the errors of `r` in other terms. -/
def mapError {ε ε' α : Type} (f : ε → ε') (r : Reader ε α) : Reader ε' α :=
  fun c => (r c).mapError f

/-- The value of a step that reads nothing. -/
def ofExcept {ε α : Type} (x : Except ε α) : Reader ε α :=
  fun c => x.map (·, c)

/-- `n` values in a row, the first of them with number `i`. -/
def listFrom {ε α : Type} (r : Nat → Reader ε α) (i : Nat) : (n : Nat) → Reader ε (List α)
  | 0 => pure []
  | n + 1 => do
    let a ← r i
    let as ← listFrom r (i + 1) n
    pure (a :: as)

/-- `n` values in a row, numbered from zero. -/
def list {ε α : Type} (n : Nat) (r : Nat → Reader ε α) : Reader ε (List α) := listFrom r 0 n

end Reader

namespace Cursor

def remaining (c : Cursor) : Nat := c.rest.length

def shortage (wanted : Int) (c : Cursor) : Shortage := ⟨wanted, c.offset, c.remaining⟩

def u8 : Reader Shortage UInt8 := fun c =>
  match c.rest with
  | a :: rest => .ok (a, ⟨rest, c.offset + 1⟩)
  | _ => .error (c.shortage 1)

def u16 : Reader Shortage UInt16 := fun c =>
  match c.rest with
  | a :: b :: rest => .ok (Bytes.of16 a b, ⟨rest, c.offset + 2⟩)
  | _ => .error (c.shortage 2)

def u32 : Reader Shortage UInt32 := fun c =>
  match c.rest with
  | a :: b :: d :: e :: rest => .ok (Bytes.of32 a b d e, ⟨rest, c.offset + 4⟩)
  | _ => .error (c.shortage 4)

def u64 : Reader Shortage UInt64 := fun c =>
  match c.rest with
  | a :: b :: d :: e :: f :: g :: h :: i :: rest =>
    .ok (Bytes.of64 (Bytes.of32 a b d e) (Bytes.of32 f g h i), ⟨rest, c.offset + 8⟩)
  | _ => .error (c.shortage 8)

def i8 : Reader Shortage Int8 := UInt8.toInt8 <$> u8

def i16 : Reader Shortage Int16 := UInt16.toInt16 <$> u16

def i32 : Reader Shortage Int32 := UInt32.toInt32 <$> u32

def i64 : Reader Shortage Int64 := UInt64.toInt64 <$> u64

/-- The next `n` bytes. -/
def take (n : Nat) : Reader Shortage Bytes := fun c =>
  let taken := c.rest.take n
  if taken.length = n then .ok (taken, ⟨c.rest.drop n, c.offset + n⟩) else .error (c.shortage n)

/-- The next `n` bytes, where `n` comes from a computation that may go below zero. -/
def takeInt (n : Int) : Reader Shortage Bytes := fun c =>
  if n < 0 then .error (c.shortage n) else take n.toNat c

/-- The next `n` bytes as a cursor of their own, which keeps counting offsets from the outermost
start. -/
def sub (n : Int) : Reader Shortage Cursor := fun c =>
  (takeInt n c).map fun (bs, c') => (⟨bs, c.offset⟩, c')

end Cursor

end ClassWasm
