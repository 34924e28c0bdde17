import Scriptlet.Script
import Scriptlet.Text.Blank
import Scriptlet.CommandLine.Arguments
import Scriptlet.CommandLine.Files

/-!
Carrying out a command: read the script, run it or write its C code to a file, and report.
A script with nothing but white space does nothing at all.
-/
namespace Scriptlet.CommandLine

/-- What a command leaves behind: its exit status and what it prints. -/
structure Report where
  status : UInt32
  output : String := ""
  errors : String := ""
deriving DecidableEq, Repr

namespace Report

def success (output : String) : Report := ⟨0, output, ""⟩

def failure (output message : String) : Report := ⟨1, output, message ++ "\n"⟩

def usage : Report := { status := 2 }

end Report

def versionText : String := "brisk 0.1.0\n"

inductive Action
  | report (r : Report)
  /-- Write this C code to the output of the job. -/
  | save (code : String)

def Job.action (j : Job) (script : String) : Action :=
  if Text.isBlank script then .report (.success "")
  else if j.emit then
    match Script.toC script Script.defaultStep with
    | .ok code => .save code
    | .error e => .report (.failure "" e.message)
  else
    let outcome := Script.run script {}
    match outcome.result with
    | .ok _ => .report (.success outcome.output)
    | .error e => .report (.failure outcome.output e.message)

def decode (bytes : ByteArray) : Except FileFault String :=
  match String.fromUTF8? bytes with
  | some s => .ok s
  | none => .error (.other "stream did not contain valid UTF-8")

variable {m : Type → Type} [Monad m] [Files m]

def Job.perform (j : Job) : m Report := do
  match (← Files.read j.file) >>= decode with
  | .error e =>
    return .failure "" ("Failed to read the input file '" ++ j.file ++ "': " ++ e.message)
  | .ok script =>
    match j.action script with
    | .report r => return r
    | .save code =>
      match ← Files.write j.output code.toUTF8 with
      | .ok _ => return .success ""
      | .error e => return .failure "" ("Failed to write '" ++ j.output ++ "': " ++ e.message)

def perform (args : List String) : m Report :=
  match request? args with
  | none => return .usage
  | some .version => return .success versionText
  | some (.job j) => j.perform

end Scriptlet.CommandLine
