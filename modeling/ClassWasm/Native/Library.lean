/-
  All library methods, and finding one by its reference.
-/
import ClassWasm.Native.Mathematics

namespace ClassWasm.Native

namespace Time

def owner : Text := "java/lang/System"

def methods : List Method :=
  [reading owner "currentTimeMillis" Clock.millis,
   reading owner "nanoTime" Clock.nanos]

end Time

/-- Order by class, then name, then descriptor. -/
def Method.le (a b : Method) : Bool :=
  if a.ref.owner ≠ b.ref.owner then a.ref.owner.le b.ref.owner
  else if a.ref.name ≠ b.ref.name then a.ref.name.le b.ref.name
  else a.ref.descriptor.le b.ref.descriptor

/-- All methods in order. -/
def library : List Method :=
  (Integers.methods ++ Longs.methods ++ Single.methods ++ Double.methods ++ Mathematics.methods
    ++ Time.methods).mergeSort Method.le

def find? (ref : MemberRef) : Option Method := library.find? fun m => m.ref = ref

end ClassWasm.Native
