/-
  How classes are linked into a module.
-/
import ClassWasm.Text

namespace ClassWasm.Link

/-- Which static methods a module exports. -/
inductive ExportPolicy where
  | publicOnly
  | all
  | none
deriving DecidableEq, Inhabited

namespace ExportPolicy

def name : ExportPolicy → Text
  | publicOnly => "public"
  | all => "all"
  | none => "none"

/-- The policy of a name; no name is the usual policy, and an unknown one exports nothing. -/
def ofName (t : Text) : ExportPolicy :=
  if t.isEmpty || t = "public" then publicOnly else if t = "all" then all else none

end ExportPolicy

/-- What becomes of references to members that no class defines. -/
inductive UnresolvedPolicy where
  | error
  | imported
deriving DecidableEq, Inhabited

namespace UnresolvedPolicy

def name : UnresolvedPolicy → Text
  | error => "error"
  | imported => "import"

def ofName (t : Text) : UnresolvedPolicy := if t = "import" then imported else error

end UnresolvedPolicy

structure Options where
  exports : ExportPolicy := .publicOnly
  exportGlobals : Bool := false
  unresolved : UnresolvedPolicy := .error
  /-- Whether the module runs the static initialisers when it starts. -/
  start : Bool := true
  /-- The widest range of keys for which a switch becomes a table, or the usual one if not
  positive. -/
  maxSpan : Int := 0
deriving DecidableEq, Inhabited

end ClassWasm.Link
