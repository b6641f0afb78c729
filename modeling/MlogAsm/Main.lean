import MlogAsm.Command.Run

/-!
# The command

The command line on a real disk and a real terminal.
-/

namespace MlogAsm.Command

/-- An error as the system tells it, with its number and its reason. Only what does not come from
the system is none. -/
def AccessError.ofSystem? : IO.Error → Option AccessError
  | .interrupted _ code reason | .noFileOrDirectory _ code reason
  | .alreadyExists _ code reason | .invalidArgument _ code reason
  | .permissionDenied _ code reason | .resourceExhausted _ code reason
  | .inappropriateType _ code reason | .noSuchThing _ code reason
  | .otherError code reason | .resourceBusy code reason | .resourceVanished code reason
  | .unsupportedOperation code reason | .hardwareFault code reason
  | .unsatisfiedConstraints code reason | .illegalOperation code reason
  | .protocolError code reason | .timeExpired code reason => some ⟨code.toNat, reason⟩
  | .unexpectedEof | .userError _ => none

/-- Does something with a file, and reports why it cannot be reached. -/
def accessing {α : Type} (act : IO α) : IO (Except AccessError α) := do
  try
    return .ok (← act)
  catch e =>
    match AccessError.ofSystem? e with
    | some error => return .error error
    | none => throw e

/-- Access to the files of the disk. -/
def diskAccess : FileAccess IO where
  read path := accessing do
    let file ← IO.FS.Handle.mk path .read
    return (← file.readBinToEnd).toList
  write path bytes := accessing do
    let file ← IO.FS.Handle.mk path .write
    file.write ⟨bytes.toArray⟩
    file.flush

/-- Runs the command on the disk, and prints its report. -/
def perform (words : List String) : IO UInt32 := do
  let stderr ← IO.getStderr
  let report ← run diskAccess (← stderr.isTty) words
  stderr.putStr report.stderr
  (← IO.getStdout).putStr report.stdout
  match report.status with
  | .exit code => return code.toUInt32
  | .badPath _ => return 1

end MlogAsm.Command

/-- Runs the command. -/
def main (words : List String) : IO UInt32 :=
  MlogAsm.Command.perform words
