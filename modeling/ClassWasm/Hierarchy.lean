/-
  Loaded classes, and lookups of members on the way from a class to its superclasses, as far as
  they are loaded.
-/
import ClassWasm.ClassFile

namespace ClassWasm

/-- A class file with the names that link it to others. -/
structure LoadedClass where
  file : ClassFile
  name : Text
  superName : Text

namespace LoadedClass

def ofFile (file : ClassFile) : Except Pool.Error LoadedClass := do
  let name ← file.className
  .ok ⟨file, name, file.superName⟩

def staticFields (c : LoadedClass) : List Field := c.file.fields.filter fun f => f.access.isStatic

end LoadedClass

/-- How to search a class and its superclasses for the first from which `pick` takes something. -/
structure Lookup (α β : Type) where
  named? : Text → Option α
  superName : α → Text
  pick : α → Option β

namespace Lookup

variable {α β : Type} (l : Lookup α β)

/-- Searches the class of a name and those above it, up to a class that is not loaded. Nothing
keeps a class from being above itself: a search that comes back to a class goes on for ever. -/
def run (name : Text) : Option (Option β) :=
  match l.named? name with
  | none => some none
  | some c =>
    match l.pick c with
    | some found => some (some found)
    | none => by
      -- As a term the call would keep its place in this file as a part of the definition.
      apply run
      exact l.superName c
partial_fixpoint

/-- The same search, with its first `n` classes unrolled. -/
def runFrom : (n : Nat) → Text → Option (Option β)
  | 0, name => l.run name
  | n + 1, name =>
    match l.named? name with
    | none => some none
    | some c =>
      match l.pick c with
      | some found => some (some found)
      | none => runFrom n (l.superName c)

/-- What the search finds; nothing where it never ends. -/
def found? (n : Nat) (name : Text) : Option β := (l.runFrom n name).join

end Lookup

abbrev Hierarchy := List LoadedClass

namespace Hierarchy

def named? (h : Hierarchy) (name : Text) : Option LoadedClass :=
  List.find? (fun c => c.name = name) h

/-- The lookup of the static field of a name and type. -/
def fieldLookup (h : Hierarchy) (ref : MemberRef) : Lookup LoadedClass (LoadedClass × Field) where
  named? := h.named?
  superName := LoadedClass.superName
  pick c :=
    match c.file.findField? ref.name ref.descriptor with
    | some f => if f.access.isStatic then some (c, f) else none
    | none => none

/-- The lookup of the static method with code of a name and type. -/
def methodLookup (h : Hierarchy) (ref : MemberRef) : Lookup LoadedClass (LoadedClass × Method) where
  named? := h.named?
  superName := LoadedClass.superName
  pick c :=
    match c.file.findMethod? ref.name ref.descriptor with
    | some m => if m.access.isStatic && m.code?.isSome then some (c, m) else none
    | none => none

/-- The static field that a reference means, with its class. -/
def staticField? (h : Hierarchy) (ref : MemberRef) : Option (LoadedClass × Field) :=
  (h.fieldLookup ref).found? (h.length + 1) ref.owner

/-- The static method with code that a reference means, with its class. -/
def staticMethod? (h : Hierarchy) (ref : MemberRef) : Option (LoadedClass × Method) :=
  (h.methodLookup ref).found? (h.length + 1) ref.owner

end Hierarchy

end ClassWasm
