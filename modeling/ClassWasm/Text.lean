/-
  Text as the bytes that spell it. Names in a class file may hold surrogates that no UTF-8 text
  holds, so text is not restricted to UTF-8 here; `ofString` embeds ordinary strings.
-/

namespace ClassWasm

structure Text where
  bytes : List UInt8
deriving DecidableEq, Hashable, Inhabited

namespace Text

def ofString (s : String) : Text := ⟨s.toUTF8.data.toList⟩

instance : Append Text := ⟨fun a b => ⟨a.bytes ++ b.bytes⟩⟩

instance : Coe String Text := ⟨ofString⟩

@[simp] theorem bytes_append (a b : Text) : (a ++ b).bytes = a.bytes ++ b.bytes := rfl

def empty : Text := ⟨[]⟩

def isEmpty (t : Text) : Bool := t.bytes.isEmpty

def length (t : Text) : Nat := t.bytes.length

/-- The texts in order, with `sep` between neighbours. -/
def join (sep : Text) (ts : List Text) : Text :=
  ⟨sep.bytes.intercalate (ts.map Text.bytes)⟩

/-- A list between square brackets, items set apart by one blank. -/
def bracketed (ts : List Text) : Text :=
  "[" ++ join " " ts ++ "]"

/-- Bytewise order, a text before its extensions. -/
def le (a b : Text) : Bool := leBytes a.bytes b.bytes
where
  leBytes : List UInt8 → List UInt8 → Bool
    | [], _ => true
    | _ :: _, [] => false
    | x :: xs, y :: ys => if x = y then leBytes xs ys else x < y

/-- `n` in decimal. -/
def ofNat (n : Nat) : Text := ofString (Nat.repr n)

/-- `n` in decimal, with a minus sign below zero. -/
def ofInt : Int → Text
  | .ofNat n => ofNat n
  | .negSucc n => "-" ++ ofNat (n + 1)

def hexDigit (n : Nat) : UInt8 :=
  if n < 10 then UInt8.ofNat (0x30 + n) else UInt8.ofNat (0x57 + n)

/-- The lowest `width` hexadecimal digits of `n`, in lower case. -/
def hexDigits : (width : Nat) → (n : Nat) → List UInt8
  | 0, _ => []
  | width + 1, n => hexDigits width (n / 16) ++ [hexDigit (n % 16)]

def hex (width n : Nat) : Text := ⟨hexDigits width n⟩

/-- `n` in hexadecimal, in upper case and without leading zeros. -/
def hexUpper (n : Nat) : Text :=
  ofString (String.ofList ((Nat.toDigits 16 n).map Char.toUpper))

/-- Blanks on the left up to `width` bytes. -/
def padLeft (width : Nat) (t : Text) : Text :=
  ⟨List.replicate (width - t.length) 0x20 ++ t.bytes⟩

def startsWith (t start : Text) : Bool := start.bytes.isPrefixOf t.bytes

def endsWith (t ending : Text) : Bool := ending.bytes.isSuffixOf t.bytes

/-- The pieces between occurrences of the byte `sep`. -/
def splitOn (sep : UInt8) (t : Text) : List Text :=
  pieces [] t.bytes
where
  pieces (piece : List UInt8) : List UInt8 → List Text
    | [] => [⟨piece.reverse⟩]
    | b :: bs => if b = sep then ⟨piece.reverse⟩ :: pieces [] bs else pieces (b :: piece) bs

def newline : UInt8 := 0x0A

/-- The lines, each with a newline at its end. -/
def ofLines (ls : List Text) : Text := ⟨ls.flatMap fun l => l.bytes ++ [newline]⟩

/-- The pieces between newlines. -/
def lines (t : Text) : List Text := t.splitOn newline

end Text

end ClassWasm
