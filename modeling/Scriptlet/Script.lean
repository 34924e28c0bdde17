import Scriptlet.Token.Scan
import Scriptlet.Grammar.Statement
import Scriptlet.Tree.Run
import Scriptlet.CSource.Draft
import Scriptlet.CSource.Layout

/-!
Scripts from their text: read, run, or written out as C.
-/
namespace Scriptlet

inductive ScriptError
  | scan (e : ScanError)
  | grammar (e : GrammarError)
  | run (e : RunError)

def ScriptError.message : ScriptError → String
  | scan e => e.message
  | grammar e => e.message
  | run e => e.message

namespace Script

def parse (source : String) : Except ScriptError Tree :=
  match Token.scan source with
  | .error e => .error (.scan e)
  | .ok ts =>
    match Grammar.program ts with
    | .error e => .error (.grammar e)
    | .ok t => .ok t

structure Outcome where
  result : Except ScriptError Unit
  output : String

/-- Runs a script without bindings, printing to `output`. -/
def run (source : String) (output : Output) : Outcome :=
  match parse source with
  | .error e => ⟨.error e, output.text⟩
  | .ok t =>
    match t.run.run { output := output } with
    | (.ok _, m) => ⟨.ok (), m.output.text⟩
    | (.error e, m) => ⟨.error (.run e), m.output.text⟩

def defaultStep : Nat := 4

def toC (source : String) (step : Nat) : Except ScriptError String :=
  match parse source with
  | .error e => .error e
  | .ok t =>
    match (t.draft .statement).run {} with
    | (.ok code, _) => .ok (code.text step 0)
    | (.error e, _) => .error (.run e)

end Script

end Scriptlet
