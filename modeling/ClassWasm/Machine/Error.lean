/-
  Why running code stops without a value.
-/
import ClassWasm.Instruction.Decode
import ClassWasm.Machine.Frame
import ClassWasm.Native.Method
import ClassWasm.StackTyping

namespace ClassWasm.Machine

/-- The class, name and descriptor of a method in one piece. -/
def label (m : MemberRef) : Text := m.owner ++ "." ++ m.name ++ m.descriptor

/-- Why a method cannot be prepared for running. -/
inductive LoadError where
  | descriptor (e : Descriptor.Error)
  | handlers (method : MemberRef)
  | decode (method : MemberRef) (e : Instruction.Error)

def LoadError.message : LoadError → Text
  | descriptor e => e.message
  | handlers method => "malformed method: " ++ label method ++ " has exception handlers"
  | decode method e => label method ++ ": " ++ e.message

def LoadError.causes : LoadError → List Cause
  | descriptor _ => []
  | handlers _ => [.malformed]
  | decode _ e => e.causes

/-- Nested calls go no deeper than this. -/
def maxDepth : Nat := 1024

inductive Error where
  /-- An exception, which nothing catches. -/
  | thrown (e : Native.Exception)
  | stackOverflow
  | unresolvedClass (name : Text)
  | unresolvedField (field : MemberRef)
  | noSuchMethod (method : MemberRef)
  | notRunnable (method : MemberRef)
  | load (e : LoadError)
  | argumentCount (method : MemberRef) (wanted given : Nat)
  | argumentKind (index : Nat) (method : MemberRef) (found wanted : Kind)
  | badBranch (target : Int)
  | wrongLocal (slot : Nat) (found wanted : Kind)
  | shuffle (op : StackOp) (stack : List Kind)
  | wrongReturn (method : MemberRef) (found wanted : Kind)
  | fallsOff (method : MemberRef)
  | frame (fault : Frame.Fault)
  /-- An instruction of a method failed. -/
  | within (method : MemberRef) (offset : Nat) (e : Error)

namespace Error

def malformed (t : Text) : Text := "malformed method: " ++ t

def message : Error → Text
  | thrown e => "JavaException: " ++ e.owner ++ ": " ++ e.message
  | stackOverflow => s!"stack overflow: frame depth exceeded {maxDepth}"
  | unresolvedClass name => "unresolved symbol: class " ++ name
  | unresolvedField ref => "unresolved symbol: field " ++ ref.text
  | noSuchMethod ref => "no such method: " ++ ref.text
  | notRunnable ref => "no such method: " ++ ref.text ++ " is not a static method with code"
  | load e => e.message
  | argumentCount ref wanted given =>
    "bad arguments: " ++ ref.text ++ s!" takes {wanted} arguments, got {given}"
  | argumentKind index ref found wanted =>
    s!"bad arguments: argument {index} of " ++ ref.text ++ " is " ++ found.name ++ ", want "
      ++ wanted.name
  | badBranch target => malformed s!"branch to {target} is not an instruction boundary"
  | wrongLocal slot found wanted =>
    malformed (s!"local {slot} holds " ++ found.name ++ ", loaded as " ++ wanted.name)
  | shuffle op stack => StackTyping.shuffleText op stack
  | wrongReturn ref found wanted =>
    malformed (label ref ++ " returns " ++ found.name ++ ", want " ++ wanted.name)
  | fallsOff ref => malformed (label ref ++ " falls off the end of its code")
  | frame fault => malformed fault.message
  | within ref offset e => label ref ++ s!" at {offset}: " ++ e.message

def causes : Error → List Cause
  | thrown e => .thrown :: (if e.owner = Native.arithmeticException then [.arithmetic] else [])
  | stackOverflow => [.stackOverflow]
  | unresolvedClass _ | unresolvedField _ => [.unresolved]
  | noSuchMethod _ | notRunnable _ => [.noSuchMethod]
  | load e => e.causes
  | argumentCount .. | argumentKind .. => [.badArguments]
  | badBranch _ | wrongLocal .. | wrongReturn .. | fallsOff _ | frame _ => [.malformed]
  | shuffle .. => [.inconsistentStack]
  | within _ _ e => e.causes

instance : Fault Error := ⟨message, causes⟩

/-- Exceptions and overflows go through all frames as they are. -/
def passesThrough : Error → Bool
  | thrown _ | stackOverflow => true
  | _ => false

end Error

/-- How a run ends without a value. A fault of a frame is kept apart, since it ends all frames at
once. -/
inductive Stop where
  | error (e : Error)
  | frame (fault : Frame.Fault)
  /-- The bound on the number of steps was reached. -/
  | exhausted

/-- The stop as a method reports it whose instruction stopped. -/
def Stop.within (method : MemberRef) (offset : Nat) : Stop → Stop
  | error e => error (if e.passesThrough then e else .within method offset e)
  | s => s

end ClassWasm.Machine
