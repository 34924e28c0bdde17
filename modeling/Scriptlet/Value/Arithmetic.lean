import Scriptlet.Value.Basic
import Scriptlet.Number.Integer
import Scriptlet.Operator

/-!
Arithmetic and comparison of values. Two integers are combined exactly, or the result is
refused; as soon as a real takes part, both sides are reals. A quotient is always a real,
and dividing by any zero is refused.
-/
namespace Scriptlet

namespace ArithOp

inductive Fault
  | divisionByZero
  | overflow
deriving DecidableEq, Repr

/-- The exact result on integers, where it fits. A quotient of integers is no integer. -/
def onIntegers? : ArithOp → Int64 → Int64 → Option Int64
  | add, a, b => Integer.add? a b
  | sub, a, b => Integer.sub? a b
  | mul, a, b => Integer.mul? a b
  | div, _, _ => none

def onReals : ArithOp → Float → Float → Float
  | add, x, y => x + y
  | sub, x, y => x - y
  | mul, x, y => x * y
  | div, x, y => x / y

def apply (op : ArithOp) (l r : Value) : Except Fault Value :=
  if op = div then
    if r.toReal == 0 then .error .divisionByZero
    else .ok (.real (op.onReals l.toReal r.toReal))
  else
    match l.integer?, r.integer? with
    | some a, some b =>
      match op.onIntegers? a b with
      | some n => .ok (.integer n)
      | none => .error .overflow
    | _, _ => .ok (.real (op.onReals l.toReal r.toReal))

end ArithOp

namespace CompareOp

def onIntegers : CompareOp → Int64 → Int64 → Bool
  | less, a, b => a < b
  | greater, a, b => b < a

def onReals : CompareOp → Float → Float → Bool
  | less, x, y => x < y
  | greater, x, y => y < x

def apply (op : CompareOp) (l r : Value) : Bool :=
  match l.integer?, r.integer? with
  | some a, some b => op.onIntegers a b
  | _, _ => op.onReals l.toReal r.toReal

end CompareOp

end Scriptlet
