/-
  Zip archives: entries one after the other, a directory of them behind, and an end record that
  says where the directory is. An archive may stand behind other data.
-/
import ClassWasm.Crc32
import ClassWasm.Inflate
import ClassWasm.Text.Utf8

namespace ClassWasm

namespace Zip

inductive Error where
  | format
  | algorithm
  | checksum
  /-- A record is cut short. -/
  | short
  /-- There is nothing left where a record should be. -/
  | nothing
  /-- An entry would start before the archive. -/
  | beforeStart
  | corrupt (offset : Nat)
deriving DecidableEq

def Error.message : Error → Text
  | format => "zip: not a valid zip file"
  | algorithm => "zip: unsupported compression algorithm"
  | checksum => "zip: checksum error"
  | short => "unexpected EOF"
  | nothing => "EOF"
  | beforeStart => "bytes.Reader.ReadAt: negative offset"
  | corrupt offset => "flate: corrupt input before offset " ++ Text.ofNat offset

/-- The number that bytes spell, lowest byte first. -/
def number (bs : Bytes) : Nat := bs.foldr (fun b n => b.toNat + 256 * n) 0

/-- Numbers of the given widths in bytes, as far as there are bytes for them. -/
def fields : List Nat → Bytes → List Nat
  | [], _ => []
  | w :: ws, bs => if bs.length < w then [] else number (bs.take w) :: fields ws (bs.drop w)

/-- `n` bytes at an offset. -/
def bytesAt (data : Bytes) (offset : Int) (n : Nat) : Except Error Bytes :=
  if offset < 0 then .error .beforeStart
  else
    let bs := (data.drop offset.toNat).take n
    if bs.length < n then .error .nothing else .ok bs

/-! ## Times -/

/-- Days from the first of January 1970 to the first day of a month, in the civil calendar. Months
count from zero and may lie outside of the year. -/
def daysBefore (year month : Int) : Int :=
  let y := year + Int.fdiv month 12
  let m := Int.fmod month 12
  -- Years that start in March have their leap day at the end.
  let y' := if m < 2 then y - 1 else y
  let m' := Int.fmod (m + 10) 12
  365 * y' + Int.fdiv y' 4 - Int.fdiv y' 100 + Int.fdiv y' 400 + Int.fdiv (153 * m' + 2) 5 - 719468

/-- Seconds from 1970 of a date and time packed into 16 bits each. Fields out of their range carry
over. -/
def unpackedTime (date time : Nat) : Int :=
  let days := daysBefore (date / 512 + 1980) (date / 32 % 16 - 1) + (date % 32 : Nat) - 1
  days * 86400 + (time / 2048 * 3600 + time / 32 % 64 * 60 + time % 32 * 2 : Nat)

/-- Seconds from 1601 to 1970. -/
def epoch1601 : Int := 11644473600

/-! ## The directory -/

structure Header where
  name : Text
  creator : Nat
  flags : Nat
  method : Nat
  crc : Nat
  compressedSize : Nat
  size : Nat
  attributes : Nat
  /-- Where the entry is, from the start of the archive. -/
  offset : Int
  /-- Seconds from 1970. -/
  modified : Int
deriving DecidableEq

/-- Extra fields: a tag and its bytes. A field that is cut short ends them. -/
def extras (bs : Bytes) : List (Nat × Bytes) := go bs.length bs
where
  go : Nat → Bytes → List (Nat × Bytes)
    | 0, _ => []
    | n + 1, bs =>
      match fields [2, 2] bs with
      | [tag, size] =>
        let rest := bs.drop 4
        if rest.length < size then [] else (tag, rest.take size) :: go n (rest.drop size)
      | _ => []

/-- The time that an extra field gives, if any. -/
def extraTime? (tag : Nat) (bs : Bytes) : Option Int :=
  if tag = 0x5455 then
    match fields [1, 4] bs with
    | [flags, t] => if flags % 2 = 1 then some t else none
    | _ => none
  else if tag = 0x000D ∨ tag = 0x5855 then
    match fields [4, 4] bs with
    | [_, t] => some t
    | _ => none
  else if tag = 0x000A then
    ((extras (bs.drop 4)).filterMap fun (tag, bs) =>
      if tag = 1 ∧ bs.length = 24 then
        some (Int.fdiv (UInt64.ofNat (number (bs.take 8))).toInt64.toInt 10000000 - epoch1601)
      else none).getLast?
  else none

/-- A number of 32 bits that stands for one of 64 bits elsewhere. -/
def wide : Nat := 0xFFFFFFFF

/-- Takes the numbers that do not fit their places from a field of wide numbers, in order. -/
def widen : List Nat → Bytes → Option (List Nat)
  | [], _ => some []
  | n :: ns, bs =>
    if n = wide then
      if bs.length < 8 then none else (widen ns (bs.drop 8)).map (number (bs.take 8) :: ·)
    else (widen ns bs).map (n :: ·)

/-- The sizes and the offset of an entry with regard to its first field of wide numbers. Without
one, only the size of the data may be as large as a narrow number can be. -/
def widened (size compressedSize offset : Nat) (es : List (Nat × Bytes)) :
    Except Error (Nat × Nat × Nat) :=
  match es.lookup 1 with
  | none =>
    if compressedSize = wide ∨ offset = wide then .error .format
    else .ok (size, compressedSize, offset)
  | some bs => match widen [size, compressedSize, offset] bs with
    | some [size, compressedSize, offset] => .ok (size, compressedSize, offset)
    | _ => .error .format

def directorySignature : Nat := 0x02014B50

/-- A record of the directory and the bytes behind it. -/
def header (bs : Bytes) : Except Error (Header × Bytes) := do
  if bs.isEmpty then throw .nothing
  match fields [4, 2, 2, 2, 2, 2, 2, 4, 4, 4, 2, 2, 2, 2, 2, 4, 4] bs with
  | [signature, creator, _, flags, method, time, date, crc, compressedSize, size, nameLength,
      extraLength, commentLength, _, _, attributes, offset] =>
    if signature ≠ directorySignature then throw .format
    let rest := bs.drop 46
    let length := nameLength + extraLength + commentLength
    if length ≠ 0 ∧ rest.isEmpty then throw .nothing
    if rest.length < length then throw .short
    let es := extras ((rest.drop nameLength).take extraLength)
    let (size, compressedSize, offset) ← widened size compressedSize offset es
    let modified := ((es.filterMap fun (tag, bs) => extraTime? tag bs).getLast?).getD
      (unpackedTime date time)
    return (⟨⟨rest.take nameLength⟩, creator, flags, method, crc, compressedSize, size, attributes,
      (UInt64.ofNat offset).toInt64.toInt, modified⟩, rest.drop length)
  | _ => throw .short

/-- Whether an entry is a directory, by its name or by the attributes of the system it was made
on. -/
def Header.isDirectory (h : Header) : Bool :=
  h.name.endsWith "/" ||
  match h.creator / 256 with
  | 3 | 19 => h.attributes / 0x10000000 = 4
  | 0 | 11 | 14 => h.attributes / 16 % 2 = 1
  | _ => false

/-- Where the directory is and how many entries it has. -/
structure End where
  /-- Where the end record is. -/
  place : Nat
  entries : Nat
  size : Nat
  offset : Nat

def endLength : Nat := 22

/-- The last place in a block where an end record starts. -/
def lastEnd (block : Bytes) : Option Nat := go 0 none block
where
  go (i : Nat) (found : Option Nat) : Bytes → Option Nat
    | [] => found
    | b :: bs =>
      let here := [0x50, 0x4B, 0x05, 0x06].isPrefixOf (b :: bs) && endLength ≤ bs.length + 1
      go (i + 1) (if here then some i else found) bs

/-- The last end record, if its comment fits behind it, in a block at the end of the data. -/
def endIn (data : Bytes) (length : Nat) : Option End := do
  let start := data.length - length
  let block := data.drop start
  let i ← lastEnd block
  match fields [4, 2, 2, 2, 2, 4, 4, 2] (block.drop i) with
  | [_, _, _, _, entries, size, offset, comment] =>
    if block.length < i + endLength + comment then none
    else some ⟨start + i, entries, size, offset⟩
  | _ => none

/-- The end record: it is looked for near the end first, where a short comment leaves it, then as
far from it as a comment can be long. -/
def findEnd (data : Bytes) : Except Error End :=
  match endIn data (min 1024 data.length) <|> endIn data (min (65 * 1024) data.length) with
  | some e => .ok e
  | none => .error .format

/-- The end record of an archive with wide numbers, if a locator stands before the plain one. -/
def wideEnd (data : Bytes) (e : End) : Except Error End :=
  if e.place < 20 then .ok e
  else match fields [4, 4, 8, 4] (data.drop (e.place - 20)) with
    | [0x07064B50, 0, place, 1] =>
      if 0x8000000000000000 ≤ place then .ok e
      else do
        let record ← bytesAt data place 56
        match fields [4, 8, 2, 2, 4, 4, 8, 8, 8, 8] record with
        | [0x06064B50, _, _, _, _, _, _, entries, size, offset] =>
          return ⟨place, entries, size, offset⟩
        | _ => throw .format
    | _ => .ok e

/-- The records of the directory, up to the first that is none, and why it is none. -/
def headers : (fuel : Nat) → Bytes → List Header × Error
  | 0, _ => ([], .format)
  | n + 1, bs =>
    match header bs with
    | .error e => ([], e)
    | .ok (h, rest) =>
      let (hs, e) := headers n rest
      (h :: hs, e)

/-- What the entries' offsets count from. It follows from where the end record is; but if a record
of the directory stands at the plain offset, there is nothing before the archive. -/
def startOf (data : Bytes) (e : End) : Except Error Int :=
  let start : Int := (e.place : Int) - e.size - e.offset
  let directory := start + e.offset
  if 0x8000000000000000 ≤ e.size ∨ 0x8000000000000000 ≤ e.offset ∨ directory < 0 ∨ data.length ≤ directory then
    .error .format
  else if 0 < start then
    match header (data.drop e.offset) with
    | .ok _ => .ok 0
    | .error _ => .ok start
  else .ok start

/-- Whether a number of an end record is as large as its place allows, so that it may stand for a
larger one elsewhere. -/
def End.isFull (e : End) : Bool := e.entries = 0xFFFF || e.size = wide || e.offset = wide

/-- The entries of an archive. Their number is compared as far as the end record can hold it. -/
def directory (data : Bytes) : Except Error (List Header) := do
  let plain ← findEnd data
  let e ← if plain.isFull then wideEnd data plain else pure plain
  let start ← startOf data e
  let (hs, stop) := headers data.length (data.drop (start + e.offset).toNat)
  if stop = .nothing then throw stop
  if hs.length % 65536 ≠ e.entries % 65536 then throw stop
  return hs.map fun h => { h with offset := h.offset + start }

/-! ## Entries -/

/-- The data of an entry as it is stored, and what stands behind it. -/
structure Member where
  header : Header
  stored : Bytes
  behind : Bytes

def isDeflated (h : Header) : Bool := h.method = 8

/-- Finds the data of an entry. -/
def find (data : Bytes) (h : Header) : Except Error Member := do
  match fields [4, 22, 2, 2] (← bytesAt data h.offset 30) with
  | [0x04034B50, _, nameLength, extraLength] =>
    if h.method ≠ 0 ∧ h.method ≠ 8 then throw .algorithm
    let body := data.drop (h.offset.toNat + 30 + nameLength + extraLength)
    return ⟨h, body.take h.compressedSize, body.drop h.compressedSize⟩
  | _ => throw .format

/-- The check that stands behind the data of an entry, with or without a signature. -/
def descriptorCrc (behind : Bytes) : Except Error Nat :=
  match fields [4, 12] behind, fields [4, 8] behind with
  | [0x08074B50, _], _ => .ok (number ((behind.drop 4).take 4))
  | [crc, _], _ => .ok crc
  | [0x08074B50], _ => .error .short
  | _, [crc, _] => .ok crc
  | _, _ => .error .short

/-- The data of an entry. Its size and its check have to be those of the directory. -/
def Member.contents (m : Member) : Except Error Bytes := do
  let (data, fault) := if isDeflated m.header then inflate m.stored else (m.stored, none)
  if m.header.size < data.length then throw .format
  match fault with
  | some (.corrupt offset) => throw (.corrupt offset)
  | some .ended => throw .short
  | none =>
    if data.length ≠ m.header.size then throw .short
    let crc := (crc32 data).toNat
    if m.header.flags / 8 % 2 = 1 then
      if (← descriptorCrc m.behind) ≠ m.header.crc then throw .checksum
      if crc ≠ m.header.crc then throw .checksum
    else if m.header.crc ≠ 0 ∧ crc ≠ m.header.crc then throw .checksum
    return data

end Zip

end ClassWasm
