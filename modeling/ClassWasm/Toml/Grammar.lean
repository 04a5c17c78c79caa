/-
  The grammar of TOML documents: headers and pairs, one on a line, with values that may nest.
-/
import ClassWasm.Toml.Scalar

namespace ClassWasm.Toml

def skipBlanks (bs : Bytes) : Bytes := bs.dropWhile isBlank

/-- Skips blanks, newlines and comments. -/
def skipSpace (inComment : Bool) : Bytes → Bytes
  | [] => []
  | b :: bs =>
    if inComment then skipSpace (!isNewline b) bs
    else if isSpace b then skipSpace false bs
    else if b = 0x23 then skipSpace true bs
    else b :: bs

def keyPart : Parser Text := fun bs =>
  match bs with
  | [] => none
  | b :: rest =>
    if b = doubleQuote || b = singleQuote then lineString b rest
    else
      let name := bs.takeWhile isBareByte
      if name.isEmpty then none else some (⟨name⟩, bs.dropWhile isBareByte)

/-- Parts with dots between them, and blanks around both. -/
def key : (fuel : Nat) → Parser Key
  | 0, _ => none
  | fuel + 1, bs => do
    let (part, rest) ← keyPart (skipBlanks bs)
    match skipBlanks rest with
    | 0x2E :: rest => do
      let (parts, rest) ← key fuel rest
      some (part :: parts, rest)
    | rest => some ([part], rest)

mutual

def value : (fuel : Nat) → Parser Expr
  | 0, _ => none
  | fuel + 1, bs =>
    match bs with
    | 0x5B :: rest => (items fuel rest).map fun (es, rest) => (.array es, rest)
    | 0x7B :: rest => (pairs fuel rest).map fun (ps, rest) => (.table ps, rest)
    | b :: rest =>
      if b = doubleQuote || b = singleQuote then
        (stringValue b rest).map fun (t, rest) => (.scalar (.string t), rest)
      else (word bs).map fun (s, rest) => (.scalar s, rest)
    | [] => none

/-- The values of an array behind its bracket. A comma may follow the last. -/
def items : (fuel : Nat) → Parser (List Expr)
  | 0, _ => none
  | fuel + 1, bs =>
    match skipSpace false bs with
    | 0x5D :: rest => some ([], rest)
    | bs => do
      let (v, rest) ← value fuel bs
      match skipSpace false rest with
      | 0x2C :: rest => (items fuel rest).map fun (vs, rest) => (v :: vs, rest)
      | 0x5D :: rest => some ([v], rest)
      | _ => none

/-- The pairs of a table behind its brace. A comma may follow the last. -/
def pairs : (fuel : Nat) → Parser (List (Key × Expr))
  | 0, _ => none
  | fuel + 1, bs =>
    match skipSpace false bs with
    | 0x7D :: rest => some ([], rest)
    | bs => do
      let (p, rest) ← pair fuel bs
      match skipSpace false rest with
      | 0x2C :: rest => (pairs fuel rest).map fun (ps, rest) => (p :: ps, rest)
      | 0x7D :: rest => some ([p], rest)
      | _ => none

def pair : (fuel : Nat) → Parser (Key × Expr)
  | 0, _ => none
  | fuel + 1, bs => do
    let (k, rest) ← key fuel bs
    let (v, rest) ← value fuel (skipBlanks (← byte 0x3D rest))
    some ((k, v), rest)

end

def statement (fuel : Nat) : Parser Statement
  | 0x5B :: 0x5B :: rest => do
    let (k, rest) ← key fuel rest
    some (.item k, ← byte 0x5D (← byte 0x5D rest))
  | 0x5B :: rest => do
    let (k, rest) ← key fuel rest
    some (.table k, ← byte 0x5D rest)
  | bs => do
    let ((k, v), rest) ← pair fuel bs
    some (.pair k v, rest)

/-- What follows a statement on its line: at most a comment. -/
def lineEnd (bs : Bytes) : Option Bytes :=
  match skipBlanks bs with
  | [] => some []
  | b :: rest => if isNewline b || b = 0x23 then some (b :: rest) else none

def statements : (fuel : Nat) → Bytes → Option (List Statement)
  | 0, _ => none
  | fuel + 1, bs =>
    match skipSpace false bs with
    | [] => some []
    | bs => do
      let (s, rest) ← statement (2 * bs.length + 2) bs
      (statements fuel (← lineEnd rest)).map (s :: ·)

def isControl (b : UInt8) : Bool := b < 0x20 && b ≠ 0x09 && !isNewline b || b = 0x7F

/-- Whether every carriage return has a newline behind it. -/
def returnsFit : Bytes → Bool
  | [] => true
  | b :: bs => (b ≠ 0x0D || bs.head? = some 0x0A) && returnsFit bs

/-- The text behind a byte order mark. -/
def dropMark : Bytes → Bytes
  | 0xEF :: 0xBB :: 0xBF :: bs => bs
  | 0xFF :: 0xFE :: bs => bs
  | 0xFE :: 0xFF :: bs => bs
  | bs => bs

/-- The statements of a document, which is UTF-8 without control characters. -/
def parseStatements (text : Text) : Option (List Statement) :=
  let bs := dropMark text.bytes
  if Text.Utf8.isValid bs && !bs.any isControl && returnsFit bs then
    statements (bs.length + 1) bs
  else none

end ClassWasm.Toml
