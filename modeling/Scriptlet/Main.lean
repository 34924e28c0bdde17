import Scriptlet.CommandLine.Perform

/-!
The command itself, on the files of the system it runs on.
-/
namespace Scriptlet.CommandLine

/-- The fault behind an error of the system. Some calls report its number with the sign
reversed. -/
def FileFault.ofError (e : IO.Error) : FileFault :=
  match e with
  | .noFileOrDirectory _ _ _ => .missing
  | .noSuchThing _ _ _ => .missing
  | .inappropriateType _ 21 _ => .isDirectory
  | .inappropriateType _ _ _ => .notDirectory
  | .invalidArgument _ code _ =>
    if code = 36 ∨ code = 0 - 36 then .nameTooLong else .other (toString e)
  | _ => .other (toString e)

instance : Files IO where
  read path := do
    try
      return .ok (← IO.FS.readBinFile path)
    catch e =>
      return .error (.ofError e)
  write path content := do
    try
      IO.FS.writeBinFile path content
      return .ok ()
    catch e =>
      return .error (.ofError e)

end Scriptlet.CommandLine

open Scriptlet.CommandLine in
def main (args : List String) : IO UInt32 := do
  let report : Report ← perform args
  if report.status == 2 then
    IO.eprintln "Usage: brisk [--emit] [--output <OUTPUT>] <FILE>"
  IO.print report.output
  IO.eprint report.errors
  return report.status
