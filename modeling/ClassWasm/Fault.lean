/-
  What can go wrong, seen from outside: every error type of the library has a message and a list
  of causes. A cause stays with an error through all the places that report it further.
-/
import ClassWasm.Text

namespace ClassWasm

inductive Cause where
  /-- A file could not be read or written. -/
  | file
  /-- A loaded class is at fault. -/
  | classFile
  /-- A method of a linked class is at fault. -/
  | method
  /-- Running code threw an exception. -/
  | thrown
  | truncated
  | invalidIndex
  | invalidReference
  | unsupportedOpcode
  | malformedCode
  | irreducible
  | badTarget
  | unresolvedSymbol
  | inconsistentStack
  | unsupported
  | duplicateClass
  | invalidConstant
  | phase
  | arithmetic
  | stackOverflow
  | noSuchMethod
  | unresolved
  | badArguments
  | malformed
  | nativeArithmetic
  | nativeMissing
  | invalidSettings
  | unknownFormat
deriving DecidableEq

class Fault (ε : Type) where
  message : ε → Text
  causes : ε → List Cause

end ClassWasm
