import Scriptlet.Number.Shortest

/-!
Reals in text and as counts. A whole real shows all its digits and one zero after the point,
any other finite one its shortest decimal, and neither ever an exponent.
-/
namespace Scriptlet.Real

/-- The real nearest to an integer, halves to the even neighbour. -/
def ofInteger (n : Int64) : Float :=
  Float.ofInt n.toInt

def sign (d : Dyadic) : String :=
  if d.negative then "-" else ""

def text (x : Float) : String :=
  match Dyadic.ofFloat? x with
  | some d =>
    if d.isWhole then sign d ++ d.whole.repr ++ ".0"
    else sign d ++ d.shortest.text
  | none =>
    if x.isNaN then "NaN"
    else if x < 0 then "-inf"
    else "inf"

def count? (x : Float) : Option Nat :=
  (Dyadic.ofFloat? x).bind Dyadic.count?

end Scriptlet.Real
