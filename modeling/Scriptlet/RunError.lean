import Scriptlet.Value.Arithmetic

/-!
What can go wrong while a script runs or is written out as C. Every cause but a full output
has the place that it blames.
-/
namespace Scriptlet

inductive RunError
  | unbound (id : String) (pos : Position)
  | arithmetic (fault : ArithOp.Fault) (pos : Position)
  /-- The bound of a loop is not a number of repetitions. -/
  | notCount (bound : Value) (pos : Position)
  /-- A statement stands where a value is needed. -/
  | noValue (pos : Position)
  | outputFull

namespace RunError

def pos? : RunError → Option Position
  | unbound _ p => some p
  | arithmetic _ p => some p
  | notCount _ p => some p
  | noValue p => some p
  | outputFull => none

def message : RunError → String
  | unbound id p => "Variable '" ++ id ++ "' not found (" ++ p.text ++ ")"
  | arithmetic .divisionByZero p => "Division by zero (" ++ p.text ++ ")"
  | arithmetic .overflow p =>
    "Integer overflow while trying to compute result (" ++ p.text ++ ")"
  | notCount bound p =>
    "Invalid repeat bound " ++ bound.text ++ ": expected a whole number (" ++ p.text ++ ")"
  | noValue p => "Expected a value (" ++ p.text ++ ")"
  | outputFull => "Failed to write output: output limit reached"

end RunError

def Value.count (v : Value) (p : Position) : Except RunError Nat :=
  match v.count? with
  | some n => .ok n
  | none => .error (.notCount v p)

end Scriptlet
