/-
  Listings of code: one line per instruction, with targets as absolute offsets.
-/
import ClassWasm.Decimal
import ClassWasm.Instruction.Decode

namespace ClassWasm.Instruction

/-- The number a constant pushes, as a listing shows it. Floating point constants of either width
are shown with the digits that their double needs. -/
def constantText : Constant → Text
  | .int v => Text.ofInt v.toInt
  | .long v => Text.ofInt v.toInt
  | .float bits => Ieee.double.text (Ieee.Format.convert Ieee.single Ieee.double bits.toNat)
  | .double bits => Ieee.double.text bits.toNat
  | .null => "0"

/-- The operands of a switch: the cases, then the default. -/
def switchText (i : Instruction) (cases : List (Int32 × Int32)) (default : Int32) : Text :=
  let one (c : Int32 × Int32) : Text := s!" {c.1.toInt}: {i.absolute c.2},"
  " \x7b" ++ Text.join Text.empty (cases.map one) ++ s!" default: {i.absolute default} \x7d"

/-- The operands of an instruction, each with a blank before it; opcodes that imply their operand
show none. -/
def operandText (i : Instruction) : Text :=
  match i.op with
  | .const c => if 0x10 ≤ i.opcode ∧ i.opcode ≤ 0x14 then " " ++ constantText c else Text.empty
  | .load _ slot => if i.wide ∨ i.opcode ≤ 0x19 then s!" {slot.toNat}" else Text.empty
  | .store _ slot => if i.wide ∨ i.opcode ≤ 0x3A then s!" {slot.toNat}" else Text.empty
  | .increment slot delta => s!" {slot.toNat}, {delta.toInt}"
  | .getStatic ref | .putStatic ref | .invokeStatic ref => " " ++ ref.text
  | .goto t | .branch _ t => s!" {i.absolute t}"
  | .tableSwitch default low targets =>
    switchText i (targets.zipIdx.map fun (t, k) => (low + Int32.ofNat k, t)) default
  | .lookupSwitch default cases => switchText i cases default
  | _ => Text.empty

def text (i : Instruction) : Text := fullName i.opcode i.wide ++ operandText i

/-- One line of a listing. -/
def line (i : Instruction) : Text := Text.padLeft 5 (Text.ofNat i.offset) ++ ": " ++ i.text

end ClassWasm.Instruction

namespace ClassWasm

/-- The lines of a listing. -/
def listing (instrs : Array Instruction) : List Text := instrs.toList.map Instruction.line

end ClassWasm
