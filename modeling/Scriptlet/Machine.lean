import Scriptlet.Bindings

/-!
The state a script runs on, its bindings and the text printed so far, and runs over it.
A run that fails keeps the state it has reached: what was assigned stays assigned and what
was printed stays printed. The same holds of an attempt on any other state.
-/
namespace Scriptlet

/-- A computation on a state of type `σ` that can fail. -/
abbrev Attempt (σ α : Type) := ExceptT RunError (StateM σ) α

namespace Attempt

variable {σ α : Type}

def ofExcept : Except RunError α → Attempt σ α
  | .ok a => pure a
  | .error e => throw e

def resolve (view : σ → Bindings) (id : String) (p : Position) : Attempt σ Value := do
  ofExcept ((view (← get)).resolve id p)

end Attempt

/-- Printed text, and how many more characters there is room for; no limit where `room` is
missing. All printed text is ASCII, so a character is a byte. -/
structure Output where
  text : String := ""
  room : Option Nat := none

namespace Output

def limited (room : Nat) : Output := { room := some room }

/-- As much of `s` as there is room for, and whether that was all of it. -/
def write (o : Output) (s : String) : Bool × Output :=
  match o.room with
  | none => (true, { o with text := o.text ++ s })
  | some k =>
    if s.length ≤ k then (true, ⟨o.text ++ s, some (k - s.length)⟩)
    else (false, ⟨o.text ++ String.ofList (s.toList.take k), some 0⟩)

end Output

structure Machine where
  bindings : Bindings := .empty
  output : Output := {}

abbrev Run (α : Type) := Attempt Machine α

namespace Run

def fail {α : Type} (e : RunError) : Run α := throw e

abbrev resolve (id : String) (p : Position) : Run Value :=
  Attempt.resolve Machine.bindings id p

def define (id : String) (v : Value) : Run Unit :=
  modify fun m => { m with bindings := m.bindings.define id v }

def print (v : Value) : Run Unit := do
  let (complete, output) := (← get).output.write (v.text ++ "\n")
  modify fun m => { m with output := output }
  if complete then pure () else fail .outputFull

def give (v : Value) (shown : Bool) : Run (Option Value) := do
  if shown then print v
  return some v

def needed (p : Position) : Option Value → Run Value
  | some v => pure v
  | none => fail (.noValue p)

def times (n : Nat) (act : Run Unit) : Run Unit :=
  match n with
  | 0 => pure ()
  | k + 1 => do
    act
    times k act

end Run

end Scriptlet
