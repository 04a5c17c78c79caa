/-
  Assembly of code with labels for branch targets. Statements are laid out one after the other, and
  each use of a label becomes the distance from its instruction to the place where the label stands.
-/
import ClassWasm.Bytes
import ClassWasm.Fault
import ClassWasm.Text.Quoted

namespace ClassWasm

namespace Assembly

inductive Statement where
  /-- Bytes of instructions that use no label. -/
  | raw (bs : Bytes)
  | label (name : Text)
  /-- A branch with a distance of 16 bits. -/
  | branch (opcode : UInt8) (target : Text)
  | gotoWide (target : Text)
  /-- A switch over consecutive keys. -/
  | tableSwitch (default : Text) (low : Int32) (cases : List Text)
  | lookupSwitch (default : Text) (cases : List (Int32 × Text))
deriving DecidableEq, Inhabited

/-- Bytes as they are, or the distance from an instruction to a label. -/
inductive Piece where
  | bytes (bs : Bytes)
  | distance (origin : Nat) (target : Text) (wide : Bool)
deriving DecidableEq

def Piece.size : Piece → Nat
  | bytes bs => bs.length
  | distance _ _ wide => if wide then 4 else 2

/-- Zeros from the byte after an opcode at `origin` up to the next multiple of four. -/
def padding (origin : Nat) : Bytes := List.replicate (3 - origin % 4) 0

def int (v : Int32) : Bytes := Bytes.be32 v.toUInt32

/-- The pieces of a statement at an offset. -/
def Statement.pieces (origin : Nat) : Statement → List Piece
  | raw bs => [.bytes bs]
  | label _ => []
  | branch opcode target => [.bytes [opcode], .distance origin target false]
  | gotoWide target => [.bytes [0xC8], .distance origin target true]
  | tableSwitch default low cases =>
    [.bytes (0xAA :: padding origin), .distance origin default true,
      .bytes (int low ++ int (low + Int32.ofNat cases.length - 1))]
      ++ cases.map (.distance origin · true)
  | lookupSwitch default cases =>
    [.bytes (0xAB :: padding origin), .distance origin default true,
      .bytes (int (Int32.ofNat cases.length))]
      ++ cases.flatMap fun (key, target) => [.bytes (int key), .distance origin target true]

def Statement.size (origin : Nat) (s : Statement) : Nat :=
  ((s.pieces origin).map Piece.size).foldr (· + ·) 0

/-- The offset after statements that start at an offset. -/
def endOffset (origin : Nat) (ss : List Statement) : Nat :=
  ss.foldl (fun o s => o + s.size o) origin

/-- Statements with their offsets. -/
def layout (origin : Nat) : List Statement → List (Nat × Statement)
  | [] => []
  | s :: ss => (origin, s) :: layout (origin + s.size origin) ss

/-- Where a label stands; the last place counts. -/
def position? (placed : List (Nat × Statement)) (name : Text) : Option Nat :=
  placed.reverse.findSome? fun
    | (offset, .label n) => if n = name then some offset else none
    | _ => none

inductive Error where
  | undefined (target : Text)
  | outOfRange (target : Text)
deriving DecidableEq

def Error.message : Error → Text
  | undefined target => "undefined label " ++ target.quoted
  | outOfRange target => "branch to " ++ target.quoted ++ " out of 16-bit range"

instance : Fault Error := ⟨Error.message, fun _ => []⟩

def Piece.encode (position? : Text → Option Nat) : Piece → Except Error Bytes
  | bytes bs => .ok bs
  | distance origin target wide =>
    match position? target with
    | none => .error (.undefined target)
    | some p =>
      let d : Int := (p : Int) - origin
      if wide then .ok (Bytes.be32 (Int32.ofInt d).toUInt32)
      else if d < -32768 ∨ d > 32767 then .error (.outOfRange target)
      else .ok (Bytes.be16 (Int16.ofInt d).toUInt16)

end Assembly

/-- The code of statements. -/
def assemble (ss : List Assembly.Statement) : Except Assembly.Error Bytes := do
  let placed := Assembly.layout 0 ss
  let pieces := placed.flatMap fun (offset, s) => s.pieces offset
  let bs ← pieces.mapM (Assembly.Piece.encode (Assembly.position? placed))
  .ok bs.flatten

end ClassWasm
