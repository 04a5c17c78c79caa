/-
  Disassembly of whole classes: every method with its listing and the regions found in it. A method
  that cannot be decoded or structured shows the reason in place of the rest.
-/
import ClassWasm.ClassFile
import ClassWasm.Instruction.Listing
import ClassWasm.Region.Tree

namespace ClassWasm

namespace Disassembly

def countsLine (c : Node.Counts) : Text :=
  s!"    regions: {c.loops} loops, {c.blocks} blocks, {c.conditionals} conditionals, "
    ++ s!"{c.wrappers} switch wrappers"

def codeLines (pool : Pool) (code : Code) : List Text :=
  match decode pool code.bytes with
  | .error e => ["    error: " ++ e.message]
  | .ok instrs =>
    listing instrs ++ match structureOf instrs with
      | .error e => ["    structure: " ++ e.message]
      | .ok body => [countsLine (Node.countAllFrom {} body)]

def methodLines (pool : Pool) (m : Method) : List Text :=
  let head := "  " ++ m.name ++ m.descriptor
  match m.code? with
  | none => [head ++ " (no code)"]
  | some code =>
    (head ++ s!" stack={code.maxStack.toNat} locals={code.maxLocals.toNat}") :: codeLines pool code

def classLines (c : ClassFile) : Except Pool.Error (List Text) := do
  let name ← c.className
  .ok (("class " ++ name ++ " extends " ++ c.superName) :: c.methods.flatMap (methodLines c.pool))

end Disassembly

/-- The disassembly of classes in order. -/
def disassembly (classes : List ClassFile) : Except Pool.Error Text := do
  let lines ← classes.mapM Disassembly.classLines
  .ok (Text.ofLines lines.flatten)

end ClassWasm
