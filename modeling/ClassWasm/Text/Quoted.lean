/-
  Quoted text for messages: printable characters as they are, all others escaped, so that the
  bytes can be read off whatever they are.
-/
import ClassWasm.Text.Utf8
import ClassWasm.Text.Printable

namespace ClassWasm.Text

/-- The short escapes, shared by both kinds of quotes. -/
def shortEscape? (c : Char) : Option Text :=
  match c.toNat with
  | 0x07 => some "\\a"
  | 0x08 => some "\\b"
  | 0x0C => some "\\f"
  | 0x0A => some "\\n"
  | 0x0D => some "\\r"
  | 0x09 => some "\\t"
  | 0x0B => some "\\v"
  | _ => none

/-- A character between quotes `mark`. -/
def escapeChar (mark c : Char) : Text :=
  if c = mark ∨ c = '\\' then "\\" ++ ofChar c
  else if isPrintable c then ofChar c
  else match shortEscape? c with
    | some t => t
    | none =>
      if c.toNat < 0x20 ∨ c.toNat = 0x7F then "\\x" ++ hex 2 c.toNat
      else if c.toNat < 0x10000 then "\\u" ++ hex 4 c.toNat
      else "\\U" ++ hex 8 c.toNat

def escapeGlyph (mark : Char) : Glyph → Text
  | .scalar c => escapeChar mark c
  | .stray b => "\\x" ++ hex 2 b.toNat

/-- The text between double quotes. -/
def quoted (t : Text) : Text :=
  "\"" ++ join empty (t.glyphs.map (escapeGlyph '"')) ++ "\""

/-- A byte, taken as the code point of the same number, between single quotes. -/
def quotedByte (b : UInt8) : Text :=
  "'" ++ escapeChar '\'' (Char.ofNat b.toNat) ++ "'"

end ClassWasm.Text
