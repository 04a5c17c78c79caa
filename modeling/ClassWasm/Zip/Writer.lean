/-
  Writing zip archives, with all entries stored as they are.
-/
import ClassWasm.Zip

namespace ClassWasm.Zip

/-- An entry to write, stored as it is. -/
structure Item where
  name : Text
  data : Bytes
  /-- Seconds from 1970. -/
  modified : Option Int
deriving DecidableEq

/-- Numbers with their widths in bytes, lowest byte first. -/
def bytesOf (fields : List (Nat × Nat)) : Bytes :=
  fields.flatMap fun (width, n) => (List.range width).map fun i => UInt8.ofNat (n / Nat.pow 256 i)

/-- The first of January 1980, for readers that know no other time. -/
def earliestDate : Nat := 0x0021

def Item.extra (i : Item) : Bytes :=
  match i.modified with
  | some t => bytesOf [(2, 0x5455), (2, 5), (1, 1), (4, (UInt32.ofInt t).toNat)]
  | none => []

/-- Marks names that are not plain ASCII as UTF-8. -/
def Item.flags (i : Item) : Nat :=
  if i.name.isUtf8 && i.name.bytes.any (0x80 ≤ ·) then 0x800 else 0

/-- What the record of an entry and its place in the directory have in common. -/
def Item.common (i : Item) : List (Nat × Nat) :=
  [(2, 20), (2, i.flags), (2, 0), (2, 0), (2, earliestDate), (4, (crc32 i.data).toNat),
    (4, i.data.length), (4, i.data.length), (2, i.name.length), (2, i.extra.length)]

def Item.record (i : Item) : Bytes :=
  bytesOf ((4, 0x04034B50) :: i.common) ++ i.name.bytes ++ i.extra ++ i.data

def Item.directoryRecord (i : Item) (offset : Nat) : Bytes :=
  bytesOf ([(4, directorySignature), (2, 20)] ++ i.common
    ++ [(2, 0), (2, 0), (2, 0), (4, 0), (4, offset)]) ++ i.name.bytes ++ i.extra

/-- The records of a directory for entries that start at an offset. -/
def directoryOf : (offset : Nat) → List Item → Bytes
  | _, [] => []
  | offset, i :: rest => i.directoryRecord offset ++ directoryOf (offset + i.record.length) rest

def encode (items : List Item) : Bytes :=
  let records := items.flatMap Item.record
  let listing := directoryOf 0 items
  records ++ listing ++ bytesOf [(4, 0x06054B50), (2, 0), (2, 0), (2, items.length),
    (2, items.length), (4, listing.length), (4, records.length), (2, 0)]

end ClassWasm.Zip
