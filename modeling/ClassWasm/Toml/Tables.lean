/-
  The tables that the statements of a TOML document make. A table may come into being on the way to
  another one; such a table can still be opened by a header of its own, once. What a key was given
  by a statement of its own cannot be replaced.
-/
import ClassWasm.Toml.Grammar

namespace ClassWasm.Toml

namespace Tables

structure State where
  root : Table := []
  /-- Tables that came into being on the way. -/
  implicit : List Key := []
  /-- Keys that were last given an array. -/
  arrays : List Key := []
  /-- The keys mentioned, the last one first. -/
  mentioned : List Key := []

abbrev Build := StateT State Option

/-- Changes the table that a key leads to; of tables in an array, the last one counts. -/
def modifyAt (f : Table → Option Table) : Key → Table → Option Table
  | [], t => f t
  | k :: ks, t =>
    match t.lookup k with
    | some (.table u) => do t.set k (.table (← modifyAt f ks u))
    | some (.tables us) => do
      let u ← modifyAt f ks (← us.getLast?)
      t.set k (.tables (us.dropLast ++ [u]))
    | _ => none

def modifyTable (k : Key) (f : Table → Option Table) : Build Unit := fun s => do
  some ((), { s with root := ← modifyAt f k s.root })

def mention (k : Key) : Build Unit :=
  modify fun s => { s with mentioned := k :: s.mentioned }

def addImplicit (k : Key) : Build Unit :=
  modify fun s => { s with implicit := k :: s.implicit }

def removeImplicit (k : Key) : Build Unit :=
  modify fun s => { s with implicit := s.implicit.filter (· ≠ k) }

/-- Notes whether a key was given an array. -/
def noteType (k : Key) (isArray : Bool) : Build Unit :=
  modify fun s =>
    let others := s.arrays.filter (· ≠ k)
    { s with arrays := if isArray then k :: others else others }

/-- The key under which the type of a value is noted. A value with an empty name counts for the
table it is in. -/
def typeKey (context : Key) (name : Text) : Key :=
  if name.isEmpty then if context.isEmpty then [name] else context else context ++ [name]

/-- Whether a table has a value of that name. -/
def has (context : Key) (name : Text) : Build Bool := fun s => do
  let found ← go s.root context
  some (found, s)
where
  go (t : Table) : Key → Option Bool
    | [] => some (t.lookup name).isSome
    | k :: ks => match t.lookup k with
      | some (.table u) => go u ks
      | some (.tables us) => do go (← us.getLast?) ks
      | _ => none

/-- Gives a name in a table its value. One that came into being on the way stays as it is, but for
an array, whose tables were entered one by one before the array was complete. -/
def setValue (context : Key) (name : Text) (v : Value) : Build Unit := do
  let k := context ++ [name]
  let s ← get
  if !(← has context name) then modifyTable context fun t => some (t.set name v)
  else if s.implicit.contains k then
    removeImplicit k
    if s.arrays.contains k then modifyTable context fun t => some (t.set name v)
  else failure

/-- Makes sure that the tables on the way to a key exist. -/
def openParents (done : Key) : Key → Build Unit
  | [] => pure ()
  | k :: ks => do
    let here := done ++ [k]
    if !(← has done k) then
      addImplicit here
      modifyTable done fun t => some (t.set k (.table []))
    modifyTable here some
    openParents here ks

/-- One more table for an array of tables. -/
def appendTable (name : Text) (t : Table) : Option Table :=
  match t.lookup name with
  | none => some (t.set name (.tables [[]]))
  | some (.tables us) => some (t.set name (.tables (us ++ [[]])))
  | some _ => none

/-- Opens the table of a key, or one more table of an array. -/
def openTable (k : Key) (isItem : Bool) : Build Unit := do
  let parents := k.dropLast
  openParents [] parents
  let name := k.getLast?.getD Text.empty
  if isItem then modifyTable parents (appendTable name) else setValue parents name (.table [])

/-- Opens the tables that the dots of a key imply, one below the other. -/
def openDotted (context : Key) : Key → Build Key
  | [] => pure context
  | k :: ks => do
    let here := context ++ [k]
    addImplicit here
    openTable here false
    openDotted here ks

/-- Puts a value into a table that is written in one piece. -/
def insertAt (v : Value) : Key → Text → Table → Option Table
  | [], name, t => some (t.set name v)
  | k :: ks, name, t =>
    match (t.lookup k).getD (.table []) with
    | .table u => do t.set k (.table (← insertAt v ks name u))
    | _ => none

def isArray : Expr → Bool
  | .array _ => true
  | _ => false

mutual

/-- The value of an expression for a name in a table. What a table written in one piece holds is
also entered key by key, so that it is checked like any other. -/
def evaluate (context : Key) (name : Text) (inArray : Bool) : Expr → Build Value
  | .scalar s => pure (.scalar s)
  | .array items => do
    noteType (typeKey context name) true
    .array <$> evaluateAll context name items
  | .table pairs => do
    let here := context ++ [name]
    addImplicit here
    openTable here inArray
    .table <$> evaluatePairs here [] pairs

def evaluateAll (context : Key) (name : Text) : List Expr → Build (List Value)
  | [] => pure []
  | e :: es => do
    let v ← evaluate context name true e
    let vs ← evaluateAll context name es
    pure (v :: vs)

def evaluatePairs (here : Key) (made : Table) : List (Key × Expr) → Build Table
  | [] => pure made
  | (k, e) :: rest => do
    let name := k.getLast?.getD Text.empty
    let context ← openDotted here k.dropLast
    mention (context ++ [name])
    let v ← evaluate context name false e
    setValue context name v
    noteType (typeKey context name) (isArray e)
    let made ← (insertAt v k.dropLast name made : Option Table)
    evaluatePairs here made rest

end

/-- Runs a statement below the table opened last; the table opened after it. -/
def run (context : Key) : Statement → Build Key
  | .table k => do
    openTable k false
    noteType k false
    mention k
    pure k
  | .item k => do
    openTable k true
    noteType k false
    mention k
    pure k
  | .pair k e => do
    let name := k.getLast?.getD Text.empty
    let here ← openDotted context k.dropLast
    mention (here ++ [name])
    let v ← evaluate here name false e
    setValue here name v
    noteType (typeKey here name) (isArray e)
    pure context

end Tables

/-- The document that a text is, if it is well formed. -/
def parse (text : Text) : Option Document := do
  let ss ← parseStatements text
  let (_, s) ← (ss.foldlM Tables.run []).run {}
  some ⟨s.root, s.mentioned.reverse⟩

end ClassWasm.Toml
