/-
  Paths with slashes, as texts. A path is cleaned by what it says alone: repeated slashes and
  single dots go, and a double dot takes away the part before it.
-/
import ClassWasm.Text

namespace ClassWasm.Path

def slash : UInt8 := 0x2F

def isAbsolute (p : Text) : Bool := p.startsWith "/"

def parts (p : Text) : List Text := p.splitOn slash

/-- The parts that count, behind those kept so far in reverse. A double dot with nothing before it
stays, but not at the root. -/
def reduce (rooted : Bool) : (kept : List Text) → List Text → List Text
  | kept, [] => kept.reverse
  | kept, part :: rest =>
    if part.isEmpty ∨ part = "." then reduce rooted kept rest
    else if part = ".." then
      match kept with
      | [] => reduce rooted (if rooted then [] else [part]) rest
      | last :: before => reduce rooted (if last = ".." then part :: kept else before) rest
    else reduce rooted (part :: kept) rest

/-- The shortest path that says the same. -/
def clean (p : Text) : Text :=
  let rooted := isAbsolute p
  let kept := Text.join "/" (reduce rooted [] (parts p))
  if rooted then "/" ++ kept else if kept.isEmpty then "." else kept

/-- One path below another, cleaned. -/
def join (p q : Text) : Text :=
  if p.isEmpty then if q.isEmpty then q else clean q else clean (p ++ "/" ++ q)

/-- The path of a name in a directory. -/
def child (directory name : Text) : Text :=
  if directory.endsWith "/" then directory ++ name else directory ++ "/" ++ name

/-- The bytes up to the last slash and those behind it. -/
def splitLast (p : Text) : List UInt8 × List UInt8 :=
  let name := (p.bytes.reverse.takeWhile (· ≠ slash)).reverse
  (p.bytes.take (p.length - name.length), name)

/-- The directory that holds what a path names. -/
def directory (p : Text) : Text := clean ⟨(splitLast p).1⟩

/-- The last part of a path. -/
def base (p : Text) : Text :=
  if p.isEmpty then "."
  else
    let trimmed : Text := ⟨(p.bytes.reverse.dropWhile (· = slash)).reverse⟩
    if trimmed.isEmpty then "/" else ⟨(splitLast trimmed).2⟩

/-- A path seen from a directory. -/
def absolute (current p : Text) : Text := if isAbsolute p then clean p else join current p

/-- A path and the directories above it, innermost first. Each is shorter than the one before, but
for a single part that stands in the current directory. -/
def upward (p : Text) : List Text := go (p.length + 1) p
where
  go : Nat → Text → List Text
    | 0, p => [p]
    | n + 1, p => if directory p = p then [p] else p :: go n (directory p)

end ClassWasm.Path
