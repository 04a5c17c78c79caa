/-
  TOML documents: what their text says statement by statement, and the tables that come of it.
-/
import ClassWasm.Text.Utf8

namespace ClassWasm.Toml

abbrev Key := List Text

def isBareByte (b : UInt8) : Bool :=
  (0x30 ≤ b && b ≤ 0x39) || (0x41 ≤ b && b ≤ 0x5A) || (0x61 ≤ b && b ≤ 0x7A) || b = 0x5F || b = 0x2D

/-- A byte of a quoted part of a key. -/
def escapedByte (b : UInt8) : Text :=
  match b with
  | 0x22 => "\\\""
  | 0x5C => "\\\\"
  | 0x08 => "\\b"
  | 0x09 => "\\t"
  | 0x0A => "\\n"
  | 0x0C => "\\f"
  | 0x0D => "\\r"
  | _ => if b < 0x20 || b = 0x7F then "\\u" ++ Text.hex 4 b.toNat else ⟨[b]⟩

/-- A part of a key, in quotes unless it can stand bare. -/
def partText (t : Text) : Text :=
  if !t.isEmpty && t.bytes.all isBareByte then t
  else "\"" ++ Text.join Text.empty (t.bytes.map escapedByte) ++ "\""

def Key.text (k : Key) : Text := Text.join "." (k.map partText)

/-- Values without parts. Of numbers with a fraction and of times it matters only that they are
well formed. -/
inductive Scalar where
  | string (t : Text)
  | integer (n : Int)
  | float
  | boolean (b : Bool)
  | time

/-- A value as it is written. -/
inductive Expr where
  | scalar (s : Scalar)
  | array (items : List Expr)
  | table (pairs : List (Key × Expr))

inductive Statement where
  /-- A header, which opens a table. -/
  | table (k : Key)
  /-- A header that opens one more table of an array. -/
  | item (k : Key)
  | pair (k : Key) (v : Expr)

/-- A value in a table. Tables that headers append one by one are kept apart from arrays. -/
inductive Value where
  | scalar (s : Scalar)
  | array (items : List Value)
  | table (entries : List (Text × Value))
  | tables (all : List (List (Text × Value)))

abbrev Table := List (Text × Value)

/-- Puts a value at a key, in place of one that is there. -/
def Table.set (t : Table) (k : Text) (v : Value) : Table :=
  if (t.lookup k).isSome then t.map fun (k', v') => if k' = k then (k', v) else (k', v')
  else t ++ [(k, v)]

structure Document where
  root : Table
  /-- The keys of headers and of values as the text mentions them, in order. -/
  keys : List Key

end ClassWasm.Toml
