/-
  Fixed-width numbers as big-endian bytes.
-/

namespace ClassWasm

abbrev Bytes := List UInt8

namespace Bytes

def be16 (n : UInt16) : Bytes := [(n >>> 8).toUInt8, n.toUInt8]

def be32 (n : UInt32) : Bytes :=
  [(n >>> 24).toUInt8, (n >>> 16).toUInt8, (n >>> 8).toUInt8, n.toUInt8]

def be64 (n : UInt64) : Bytes :=
  be32 (n >>> 32).toUInt32 ++ be32 n.toUInt32

def of16 (a b : UInt8) : UInt16 := a.toUInt16 <<< 8 ||| b.toUInt16

def of32 (a b c d : UInt8) : UInt32 := (of16 a b).toUInt32 <<< 16 ||| (of16 c d).toUInt32

def of64 (hi lo : UInt32) : UInt64 := hi.toUInt64 <<< 32 ||| lo.toUInt64

/-- Little-endian forms, for the formats that use them. -/
def le32 (n : UInt32) : Bytes := (be32 n).reverse

def le64 (n : UInt64) : Bytes := (be64 n).reverse

end Bytes

end ClassWasm
