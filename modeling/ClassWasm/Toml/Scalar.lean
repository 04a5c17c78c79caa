/-
  Strings, numbers, truth values and times in TOML.
-/
import ClassWasm.Bytes
import ClassWasm.Numeral
import ClassWasm.Toml

namespace ClassWasm.Toml

/-- Reads something off the start of bytes, if it is there, and leaves the rest. -/
abbrev Parser (α : Type) := Bytes → Option (α × Bytes)

def isBlank (b : UInt8) : Bool := b = 0x20 || b = 0x09

def isNewline (b : UInt8) : Bool := b = 0x0A || b = 0x0D

/-! ## Strings -/

def doubleQuote : UInt8 := 0x22

def singleQuote : UInt8 := 0x27

def backslash : UInt8 := 0x5C

/-- The bytes of a string on one line up to its quote, with their escapes. -/
def rawLine (quote : UInt8) (escapes : Bool) (acc : Bytes) : Parser Bytes
  | [] => none
  | b :: bs =>
    if b = quote then some (acc.reverse, bs)
    else if isNewline b then none
    else if escapes && b = backslash then
      match bs with
      | [] => none
      | c :: rest => rawLine quote escapes (c :: b :: acc) rest
    else rawLine quote escapes (b :: acc) bs

/-- Whether five quotes have been read, given what was read in reverse. The first of them may be
one that a backslash has escaped. -/
def fiveQuotes (quote : UInt8) (escapes : Bool) (acc : Bytes) : Bool :=
  (List.replicate 5 quote).isPrefixOf acc && !(escapes && acc[5]? = some backslash)

/-- The bytes of a string over several lines up to its three quotes. One or two more quotes before
these belong to the string, more do not. -/
def rawLines (quote : UInt8) (escapes : Bool) (acc : Bytes) : Parser Bytes
  | [] => none
  | b :: bs =>
    if b = quote then
      match bs with
      | c :: d :: rest =>
        if c = quote && d = quote then
          if rest.head? = some quote then
            if fiveQuotes quote escapes (d :: c :: b :: acc) then none
            else rawLines quote escapes (b :: acc) bs
          else some (acc.reverse, rest)
        else rawLines quote escapes (b :: acc) bs
      | _ => none
    else if escapes && b = backslash then
      match bs with
      | [] => none
      | c :: rest => rawLines quote escapes (c :: b :: acc) rest
    else rawLines quote escapes (b :: acc) bs

/-- The character whose number is written in hexadecimal digits. -/
def hexChar? (digits : Bytes) : Option Text := do
  let n ← digits.foldlM (fun n b => (Numeral.hexDigit? b).map (n * 16 + ·)) 0
  (Text.Utf8.scalar? 0 n).map Text.ofChar

/-- What an escape behind its backslash stands for. -/
def escape : Parser Text
  | [] => none
  | b :: bs =>
    let plain (t : Text) : Option (Text × Bytes) := some (t, bs)
    let coded (n : Nat) : Option (Text × Bytes) :=
      if bs.length < n then none else (hexChar? (bs.take n)).map (·, bs.drop n)
    match Char.ofNat b.toNat with
    | 'b' => plain "\x08"
    | 't' => plain "\t"
    | 'n' => plain "\n"
    | 'f' => plain "\x0C"
    | 'r' => plain "\r"
    | 'e' => plain "\x1B"
    | '"' => plain "\""
    | '\\' => plain "\\"
    | 'x' => coded 2
    | 'u' => coded 4
    | 'U' => coded 8
    | _ => none

def isSpace (b : UInt8) : Bool := isBlank b || isNewline b

/-- Replaces escapes. Over several lines, a backslash at the end of a line takes away all space up
to the next character. Every escape is longer than nothing, so the bytes bound the steps. -/
def unescape (multiline : Bool) : (fuel : Nat) → Bytes → Option Bytes
  | _, [] => some []
  | 0, _ => none
  | fuel + 1, b :: bs =>
    if b ≠ backslash then (unescape multiline fuel bs).map (b :: ·)
    else if multiline && (bs.takeWhile isSpace).contains 0x0A then
      unescape multiline fuel (bs.dropWhile isSpace)
    else do
      let (t, rest) ← escape bs
      (unescape multiline fuel rest).map (t.bytes ++ ·)

/-- A newline right behind the opening quotes is no part of a string. -/
def dropNewline : Bytes → Bytes
  | 0x0A :: bs => bs
  | 0x0D :: 0x0A :: bs => bs
  | bs => bs

/-- A string on one line behind its opening quote. -/
def lineString (quote : UInt8) : Parser Text := fun bs => do
  let escapes := quote = doubleQuote
  let (raw, rest) ← rawLine quote escapes [] bs
  let content ← if escapes then unescape false raw.length raw else some raw
  some (⟨content⟩, rest)

/-- A string over several lines behind its opening quotes. -/
def linesString (quote : UInt8) : Parser Text := fun bs => do
  let escapes := quote = doubleQuote
  let (raw, rest) ← rawLines quote escapes [] bs
  let raw := dropNewline raw
  let content ← if escapes then unescape true raw.length raw else some raw
  some (⟨content⟩, rest)

def stringValue (quote : UInt8) : Parser Text := fun bs =>
  match bs with
  | b :: c :: rest => if b = quote && c = quote then linesString quote rest else lineString quote bs
  | _ => lineString quote bs

/-! ## Numbers -/

def isDigit (b : UInt8) : Bool := Numeral.isDigit b

def isHexDigit (b : UInt8) : Bool := (Numeral.hexDigit? b).isSome

/-- Whether every underscore follows a digit and a digit is last. -/
def underscoresFit (bs : Bytes) : Bool := go false bs
where
  go (afterDigit : Bool) : Bytes → Bool
    | [] => afterDigit
    | b :: bs => !(b = 0x5F && !afterDigit) && go (isHexDigit b) bs

def hasLeadingZero : Bytes → Bool
  | 0x30 :: b :: _ => b ≠ 0x62 && b ≠ 0x6F && b ≠ 0x78
  | 0x2B :: 0x30 :: _ :: _ | 0x2D :: 0x30 :: _ :: _ => true
  | _ => false

/-- Whether a base is named at the start. -/
def startsBase (bs : Bytes) : Bool :=
  ["0x", "0o", "0b"].any fun (s : String) => Text.startsWith ⟨bs⟩ s

/-- The digits behind the name of a base, if there is one. -/
def dropBase (bs : Bytes) : Bytes := if startsBase bs then bs.drop 2 else bs

def integer? (bs : Bytes) : Option Int :=
  if underscoresFit (dropBase bs) && !hasLeadingZero bs then (Numeral.integer 64 ⟨bs⟩).toOption
  else none

def isFloatMark (b : UInt8) : Bool := b = 0x2E || b = 0x65 || b = 0x45

/-- The pieces between points and exponent marks that are not empty. -/
def floatPieces (bs : Bytes) : List Bytes :=
  (Text.splitOn 0x2E ⟨bs.map fun b => if isFloatMark b then 0x2E else b⟩).filterMap fun t =>
    if t.isEmpty then none else some t.bytes

/-- Whether a digit follows every point. -/
def pointsFit : Bytes → Bool
  | [] => true
  | b :: bs => (b ≠ 0x2E || bs.head?.any isDigit) && pointsFit bs

def isFloat (bs : Bytes) : Bool :=
  let pieces := floatPieces bs
  bs.all (fun b => isDigit b || isFloatMark b || b = 0x5F || b = 0x2B || b = 0x2D)
    && pieces.all underscoresFit && !pieces.head?.any hasLeadingZero && pointsFit bs
    && (Numeral.float Ieee.double ⟨bs.filter (· ≠ 0x5F)⟩).toOption.isSome

/-! ## Times -/

/-- The number that `n` digits make. -/
def digits (n : Nat) : Parser Nat := fun bs =>
  let ds := bs.take n
  if ds.length = n && ds.all isDigit then
    some (ds.foldl (fun v b => v * 10 + (b.toNat - 0x30)) 0, bs.drop n)
  else none

def byte (b : UInt8) : Bytes → Option Bytes
  | c :: bs => if c = b then some bs else none
  | [] => none

def daysIn (year month : Nat) : Nat :=
  if month = 2 then if year % 4 = 0 && (year % 100 ≠ 0 || year % 400 = 0) then 29 else 28
  else if month = 4 || month = 6 || month = 9 || month = 11 then 30
  else 31

/-- A date; what follows it. -/
def date (bs : Bytes) : Option Bytes := do
  let (year, bs) ← digits 4 bs
  let (month, bs) ← digits 2 (← byte 0x2D bs)
  let (day, bs) ← digits 2 (← byte 0x2D bs)
  if 1 ≤ month && month ≤ 12 && 1 ≤ day && day ≤ daysIn year month then some bs else none

/-- A fraction of a second, if there is one. -/
def fraction : Bytes → Bytes
  | 0x2E :: b :: bs => if isDigit b then bs.dropWhile isDigit else 0x2E :: b :: bs
  | bs => bs

/-- Seconds with a fraction may follow the minutes. -/
def clockTime (bs : Bytes) : Option Bytes := do
  let (hour, bs) ← digits 2 bs
  let (minute, bs) ← digits 2 (← byte 0x3A bs)
  if hour > 23 || minute > 59 then none
  else match byte 0x3A bs with
    | none => some bs
    | some bs => do
      let (second, bs) ← digits 2 bs
      if second > 59 then none else some (fraction bs)

/-- The distance from universal time, if it is given. -/
def zone : Bytes → Option Bytes
  | [] => some []
  | b :: bs =>
    if b = 0x5A then some bs
    else if b = 0x2B || b = 0x2D then do
      let (hours, bs) ← digits 2 bs
      let (minutes, bs) ← digits 2 (← byte 0x3A bs)
      if hours ≤ 24 && minutes ≤ 60 then some bs else none
    else none

/-- A date, a time, or both; a blank may divide them, and small letters count as large. -/
def isTime (bs : Bytes) : Bool :=
  let bs := bs.map fun b => if b = 0x20 || b = 0x74 then 0x54 else if b = 0x7A then 0x5A else b
  let ends (x : Option Bytes) : Bool := x = some []
  match date bs with
  | some rest => rest = [] || ends (do zone (← clockTime (← byte 0x54 rest)))
  | none => ends (clockTime bs)

/-! ## Words -/

def isLetter (b : UInt8) : Bool := 0x61 ≤ b ||| 0x20 && b ||| 0x20 ≤ 0x7A

def isWordByte (b : UInt8) : Bool :=
  isDigit b || isLetter b || b = 0x5F || b = 0x2B || b = 0x2D || b = 0x2E || b = 0x3A

def isTimeByte (b : UInt8) : Bool :=
  isDigit b || [0x2D, 0x3A, 0x54, 0x74, 0x20, 0x2E, 0x5A, 0x7A, 0x2B].contains b

/-- Whether digits and then a dash or a colon stand at the start, as in a time. -/
def startsTime (bs : Bytes) : Bool :=
  bs.head?.any isDigit && (bs.dropWhile isDigit).head?.any fun b => b = 0x2D || b = 0x3A

/-- The value that a word is. -/
def wordValue? (bs : Bytes) : Option Scalar :=
  let (_, unsigned) := Numeral.sign bs
  let t : Text := ⟨bs⟩
  if t = "true" then some (.boolean true)
  else if t = "false" then some (.boolean false)
  else if (⟨unsigned⟩ : Text) = "inf" || (⟨unsigned⟩ : Text) = "nan" then some .float
  else if !unsigned.head?.any isDigit then none
  else if !startsBase bs && bs.any isFloatMark then if isFloat bs then some .float else none
  else (integer? bs).map .integer

/-- A value without quotes and brackets. -/
def word : Parser Scalar := fun bs =>
  if startsTime bs then
    let written := ((bs.takeWhile isTimeByte).reverse.dropWhile isBlank).reverse
    if isTime written then some (.time, bs.dropWhile isTimeByte) else none
  else (wordValue? (bs.takeWhile isWordByte)).map (·, bs.dropWhile isWordByte)

end ClassWasm.Toml
