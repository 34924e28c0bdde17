/-!
A finite real as the machine holds it: a sign, and a natural number times a power of two.
Whether a real is whole, and which whole number it is, is read off this form exactly. Powers
are written `Nat.pow`, which no import gives another meaning.
-/
namespace Scriptlet

/-- The number `mantissa * 2 ^ exponent`, with a sign that zero has too. -/
structure Dyadic where
  negative : Bool
  mantissa : Nat
  exponent : Int
deriving DecidableEq, Repr

namespace Dyadic

/-- The value of a finite real; infinities and the results that are no number have none. -/
def ofFloat? (x : Float) : Option Dyadic :=
  let bits := x.toBits.toNat
  let negative := Nat.pow 2 63 ≤ bits
  let field : Nat := bits / Nat.pow 2 52 % Nat.pow 2 11
  let fraction := bits % Nat.pow 2 52
  if field = Nat.pow 2 11 - 1 then none
  else if field = 0 then some ⟨negative, fraction, -1074⟩
  else some ⟨negative, Nat.pow 2 52 + fraction, field - 1075⟩

def denominator (d : Dyadic) : Nat :=
  Nat.pow 2 (-d.exponent).toNat

def numerator (d : Dyadic) : Nat :=
  d.mantissa * Nat.pow 2 d.exponent.toNat

def isWhole (d : Dyadic) : Bool :=
  d.numerator % d.denominator == 0

def whole (d : Dyadic) : Nat :=
  d.numerator / d.denominator

/-- The number as a count of repetitions: whole, at most `2 ^ 53 - 1` so that no neighbour
was rounded to it, and nothing below zero counts. -/
def count? (d : Dyadic) : Option Nat :=
  if !d.isWhole then none
  else if d.negative then some 0
  else if Nat.pow 2 53 ≤ d.whole then none
  else some d.whole

end Dyadic

end Scriptlet
