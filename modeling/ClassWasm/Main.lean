/-
  The command as a program.
-/
import ClassWasm.Command
import ClassWasm.Files.Disk
import Std.Time.DateTime.Timestamp

open ClassWasm

def currentClock : IO Native.Clock := do
  let now ← Std.Time.Timestamp.now
  return ⟨Int64.ofInt now.toMillisecondsSinceUnixEpoch.val, Int64.ofNat (← IO.monoNanosNow)⟩

/-- Far more steps than any run takes. -/
def stepLimit : Nat := 1000000000000000000

def main (args : List String) : IO UInt32 := do
  let limits : Command.Limits := ⟨← currentClock, stepLimit⟩
  match ← (Command.command limits (args.map Text.ofString)).run with
  | .ok out =>
    (← IO.getStdout).write (ByteArray.mk out.bytes.toArray)
    return 0
  | .error e =>
    (← IO.getStderr).write (ByteArray.mk ("Error: " ++ Fault.message e ++ "\n").bytes.toArray)
    return 1
