import Scriptlet.Number.Real

/-!
The values a script computes with: 64-bit integers, reals, and the truth values that
comparisons give. Where a number is asked for, true counts as one and false as zero.
-/
namespace Scriptlet

inductive Value
  | integer (n : Int64)
  | real (x : Float)
  | truth (b : Bool)

namespace Value

/-- Whether a condition holds. Any number but zero does, and so does the real that is no
number. -/
def holds : Value → Bool
  | integer n => n != 0
  | real x => x != 0
  | truth b => b

def isReal : Value → Bool
  | real _ => true
  | _ => false

def integer? : Value → Option Int64
  | integer n => some n
  | real _ => none
  | truth b => some (if b then 1 else 0)

def toReal : Value → Float
  | integer n => Real.ofInteger n
  | real x => x
  | truth b => if b then 1 else 0

/-- The value as a count of repetitions. Below zero nothing is repeated; a real must be a
whole number small enough to be exact. -/
def count? : Value → Option Nat
  | integer n => some n.toInt.toNat
  | real x => Real.count? x
  | truth b => some b.toNat

def text : Value → String
  | integer n => n.toInt.repr
  | real x => Real.text x
  | truth b => if b then "true" else "false"

end Value

end Scriptlet
