import Scriptlet.Number.Dyadic

/-!
The shortest decimal that reads back to a real. The decimals that read back are those in an
interval around the value: half a unit of its last place to each side, a quarter below where
the value is a power of two and the units below are half as wide. The ends belong to it
when the mantissa is even. Among the grids of one, two, three, … decimal places the first one
with a point in the interval gives the decimal; of two such points the nearer is taken, and
of two equally near the greater.
-/
namespace Scriptlet

/-- The decimal `digits / 10 ^ places`. -/
structure Decimal where
  digits : Nat
  places : Nat
deriving DecidableEq, Repr

namespace Decimal

def text (d : Decimal) : String :=
  let fraction := (d.digits % Nat.pow 10 d.places).repr
  (d.digits / Nat.pow 10 d.places).repr ++ "." ++
    String.ofList (List.replicate (d.places - fraction.length) '0') ++ fraction

end Decimal

namespace Dyadic

/-- The interval of the decimals that read back, in quarters of the last place. -/
structure Interval where
  low : Nat
  high : Nat
  closed : Bool

def interval (d : Dyadic) : Interval where
  low := 4 * d.mantissa - (if d.mantissa = Nat.pow 2 52 ∧ -1074 < d.exponent then 1 else 2)
  high := 4 * d.mantissa + 2
  closed := d.mantissa % 2 == 0

def Interval.holds (i : Interval) (unit n : Nat) : Bool :=
  if i.closed then i.low * unit ≤ n && n ≤ i.high * unit
  else i.low * unit < n && n < i.high * unit

/-- The decimal with this many places that reads back to a magnitude below `2 ^ 53`. -/
def decimal? (d : Dyadic) (places : Nat) : Option Decimal :=
  let scale := Nat.pow 10 places
  let step := 4 * d.denominator
  let value := 4 * d.mantissa * scale
  let below := value / step
  let above := below + 1
  let belowHolds := d.interval.holds scale (below * step)
  let aboveHolds := d.interval.holds scale (above * step)
  if belowHolds && (!aboveHolds || value - below * step < above * step - value) then
    some ⟨below, places⟩
  else if aboveHolds then some ⟨above, places⟩
  else none

/-- The shortest decimal of a number with a fraction. Written out in full, such a number has
as many places as its denominator has factors of two, so the search ends there. -/
def shortest (d : Dyadic) : Decimal :=
  let full := (-d.exponent).toNat
  ((List.range full).findSome? d.decimal?).getD ⟨d.mantissa * Nat.pow 5 full, full⟩

end Dyadic

end Scriptlet
