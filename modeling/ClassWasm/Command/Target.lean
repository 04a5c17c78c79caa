/-
  The method to run, as a command names it: a class with dots, the method and its descriptor.
-/
import ClassWasm.ConstantPool
import ClassWasm.Text.Quoted

namespace ClassWasm.Command

namespace Target

inductive Error where
  | noDescriptor (text : Text)
  | noClass (text : Text)
deriving DecidableEq

def Error.message : Error → Text
  | noDescriptor t => "-run " ++ t.quoted ++ ": missing method descriptor"
  | noClass t => "-run " ++ t.quoted ++ ": want Class.method(descriptor)"

instance : Fault Error := ⟨Error.message, fun _ => []⟩

def dot : UInt8 := 0x2E

def parenthesis : UInt8 := 0x28

/-- The descriptor starts at the first parenthesis; the last dot before it divides class and
method, neither of them empty. -/
def parse (t : Text) : Except Error MemberRef :=
  let descriptor := t.bytes.dropWhile (· ≠ parenthesis)
  let before := t.bytes.takeWhile (· ≠ parenthesis)
  let name := (before.reverse.takeWhile (· ≠ dot)).reverse
  let owner := before.take (before.length - name.length - 1)
  if descriptor.isEmpty then .error (.noDescriptor t)
  else if name.isEmpty || owner.isEmpty then .error (.noClass t)
  else .ok ⟨⟨owner.map fun b => if b = dot then 0x2F else b⟩, ⟨name⟩, ⟨descriptor⟩⟩

end Target

end ClassWasm.Command
