/-
  Reading a pool. An entry is appended as soon as its bytes are read, and only then is what it
  requires checked; where it requires an entry further on, the entries up to that one are read
  and checked first.
-/
import ClassWasm.ConstantPool

namespace ClassWasm.Pool

/-- A pool of `count` slots, filled up to the place where `cursor` stands. -/
structure Filling where
  count : Nat
  pool : Pool
  cursor : Cursor

namespace Filling

/-- Reads and appends the next entry, unchecked, and gives its index too. -/
def next (f : Filling) : Except Error (Nat × Entry × Filling) := do
  let index := f.pool.size
  let (code, cursor) ← (Cursor.u8 f.cursor).mapError (.noTag index)
  let tag : Tag := ⟨code⟩
  let (e, cursor) ← (Entry.read tag cursor).mapError (.unreadable tag index)
  let pool := f.pool.push e
  if pool.size > f.count then .error (.overrun tag index f.count)
  else .ok (index, e, ⟨f.count, pool, cursor⟩)

/-- Checks one requirement; `fill` reads on until a slot is filled. -/
def require (fill : Nat → Filling → Except Error Filling) (f : Filling) (r : Entry.Requirement) :
    Except Error Filling :=
  match fill r.index.toNat f with
  | .error reason => .error (.unavailable r.index r.tags reason)
  | .ok f => (f.pool.expect r.index r.tags).map fun _ => f

/-- Checks all that an entry requires. -/
def check (fill : Nat → Filling → Except Error Filling) (e : Entry) (f : Filling) :
    Except Error Filling :=
  match e, e.requirements? with
  | _, some rs => rs.foldlM (require fill) f
  | .methodHandle kind _, none => .error (.handleKind kind)
  | _, none => .ok f

/-- Reads entries until the slot at `index` is filled or all slots are. `room` is at least the
number of empty slots, so nothing is left to do where it is zero. -/
def fill : (room : Nat) → (index : Nat) → Filling → Except Error Filling
  | 0, _, f => .ok f
  | room + 1, index, f =>
    if f.pool.size ≤ index ∧ f.pool.size < f.count then
      match f.next with
      | .error reason => .error reason
      | .ok (own, e, f') =>
        match check (fill room) e f' with
        | .error reason => .error (.invalidEntry own e.tag reason)
        | .ok f' => fill room index f'
    else .ok f

end Filling

/-- The number of slots, and then entries until all slots are filled. -/
def read : Reader Error Pool := fun c => do
  let (count, c) ← (Cursor.u16 c).mapError .noCount
  if count = 0 then .error .zeroCount
  else
    let f ← Filling.fill count.toNat count.toNat ⟨count.toNat, .empty, c⟩
    .ok (f.pool, f.cursor)

end ClassWasm.Pool
