/-
  The flags of the command line. A flag has one or two dashes; its value stands behind an equals
  sign or is the next argument. Flags end at the first argument that is none, or at two dashes.
-/
import ClassWasm.Text.Quoted
import ClassWasm.Fault

namespace ClassWasm.Command

structure Flags where
  config : Text := Text.empty
  module : Text := Text.empty
  assets : Text := Text.empty
  linkMap : Text := Text.empty
  exports : Text := Text.empty
  unresolved : Text := Text.empty
  noStart : Bool := false
  libraries : List Text := []
  dump : Bool := false
  run : Text := Text.empty
  engine : Text := "interp"
  verbosity : Nat := 0
deriving DecidableEq

namespace Flags

inductive Error where
  | malformed (argument : Text)
  | unknown (name : Text)
  | noValue (name : Text)
  | notBoolean (value name : Text)
  /-- The same for the flag that counts. -/
  | notCounted (value name : Text)
deriving DecidableEq

def Error.message : Error → Text
  | malformed argument => "bad flag syntax: " ++ argument
  | unknown name => "flag provided but not defined: -" ++ name
  | noValue name => "flag needs an argument: -" ++ name
  | notBoolean value name =>
    "invalid boolean value " ++ value.quoted ++ " for -" ++ name ++ ": parse error"
  | notCounted value name =>
    "invalid boolean value " ++ value.quoted ++ " for -" ++ name
      ++ ": strconv.ParseBool: parsing " ++ value.quoted ++ ": invalid syntax"

instance : Fault Error := ⟨Error.message, fun _ => []⟩

/-- What a flag sets. -/
inductive Target where
  | text (set : Text → Flags → Flags)
  | switch (set : Bool → Flags → Flags)
  | counter

/-- The flags by name. -/
def known : List (Text × Target) :=
  [("config", .text fun t f => { f with config := t }),
   ("o", .text fun t f => { f with module := t }),
   ("assets", .text fun t f => { f with assets := t }),
   ("linkmap", .text fun t f => { f with linkMap := t }),
   ("exports", .text fun t f => { f with exports := t }),
   ("unresolved", .text fun t f => { f with unresolved := t }),
   ("no-start", .switch fun b f => { f with noStart := b }),
   ("lib", .text fun t f => { f with libraries := f.libraries ++ [t] }),
   ("dump", .switch fun b f => { f with dump := b }),
   ("run", .text fun t f => { f with run := t }),
   ("engine", .text fun t f => { f with engine := t }),
   ("v", .counter)]

def boolean? (t : Text) : Option Bool :=
  if ["1", "t", "T", "TRUE", "true", "True"].any fun (s : String) => t = s then some true
  else if ["0", "f", "F", "FALSE", "false", "False"].any fun (s : String) => t = s then some false
  else none

/-- An argument as a flag: its name and the value behind an equals sign. -/
inductive Argument where
  | plain
  | terminator
  | malformed
  | flag (name : Text) (value : Option Text)

def equals : UInt8 := 0x3D

def dash : UInt8 := 0x2D

/-- A name and what follows its first equals sign. The sign cannot come first. -/
def splitValue (bs : List UInt8) : Argument :=
  match bs with
  | [] => .malformed
  | b :: rest =>
    if b = dash || b = equals then .malformed
    else
      let name := rest.takeWhile (· ≠ equals)
      .flag ⟨b :: name⟩ (match rest.dropWhile (· ≠ equals) with
        | [] => none
        | _ :: value => some ⟨value⟩)

def Argument.ofText (t : Text) : Argument :=
  match t.bytes with
  | [0x2D, 0x2D] => .terminator
  | 0x2D :: 0x2D :: bs => splitValue bs
  | 0x2D :: b :: bs => splitValue (b :: bs)
  | _ => .plain

/-- What the arguments say: flags and the arguments behind them, or a wish for help. -/
inductive Parsed where
  | command (flags : Flags) (rest : List Text)
  | help

/-- Sets a flag; the value may be taken from the arguments that follow. -/
def set (f : Flags) (name : Text) (value : Option Text) (rest : List Text) :
    Target → Except Error (Flags × List Text)
  | .text assign =>
    match value, rest with
    | some v, rest => .ok (assign v f, rest)
    | none, v :: rest => .ok (assign v f, rest)
    | none, [] => .error (.noValue name)
  | .switch assign =>
    let v := value.getD "true"
    match boolean? v with
    | some b => .ok (assign b f, rest)
    | none => .error (.notBoolean v name)
  | .counter =>
    let v := value.getD "true"
    match boolean? v with
    | some b => .ok ({ f with verbosity := f.verbosity + b.toNat }, rest)
    | none => .error (.notCounted v name)

def parseFrom (f : Flags) : (fuel : Nat) → List Text → Except Error Parsed
  | 0, args => .ok (.command f args)
  | _, [] => .ok (.command f [])
  | fuel + 1, a :: rest =>
    match Argument.ofText a with
    | .plain => .ok (.command f (a :: rest))
    | .terminator => .ok (.command f rest)
    | .malformed => .error (.malformed a)
    | .flag name value =>
      match known.lookup name with
      | some target => do
        let (f, rest) ← set f name value rest target
        parseFrom f fuel rest
      | none => if name = "help" || name = "h" then .ok .help else .error (.unknown name)

def parse (args : List Text) : Except Error Parsed := parseFrom {} args.length args

end Flags

end ClassWasm.Command
