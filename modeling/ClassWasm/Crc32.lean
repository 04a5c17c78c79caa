/-
  The cyclic redundancy check of 32 bits over the reversed polynomial 0xEDB88320.
-/
import ClassWasm.Bytes

namespace ClassWasm

namespace Crc32

def shift (c : UInt32) : UInt32 :=
  if c &&& 1 = 1 then (c >>> 1) ^^^ 0xEDB88320 else c >>> 1

def byte (c : UInt32) (b : UInt8) : UInt32 :=
  (List.range 8).foldl (fun c _ => shift c) (c ^^^ b.toUInt32)

end Crc32

def crc32 (bs : Bytes) : UInt32 := bs.foldl Crc32.byte 0xFFFFFFFF ^^^ 0xFFFFFFFF

end ClassWasm
