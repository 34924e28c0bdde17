/-!
Exact arithmetic on 64-bit integers: an operation gives the true result, or nothing when
the result does not fit.
-/
namespace Scriptlet.Integer

/-- The range of a 64-bit word, from `-2 ^ 63` to below `2 ^ 63`. -/
def Fits (n : Int) : Prop :=
  -9223372036854775808 ≤ n ∧ n < 9223372036854775808

instance (n : Int) : Decidable (Fits n) :=
  inferInstanceAs (Decidable (_ ∧ _))

def ofInt? (n : Int) : Option Int64 :=
  if Fits n then some (Int64.ofInt n) else none

def add? (a b : Int64) : Option Int64 := ofInt? (a.toInt + b.toInt)

def sub? (a b : Int64) : Option Int64 := ofInt? (a.toInt - b.toInt)

def mul? (a b : Int64) : Option Int64 := ofInt? (a.toInt * b.toInt)

def ofDigits (ds : List Char) : Nat :=
  ds.foldl (fun n d => 10 * n + (d.toNat - '0'.toNat)) 0

theorem fits_toInt (a : Int64) : Fits a.toInt :=
  ⟨a.le_toInt, a.toInt_lt⟩

/-- An integer has a word exactly when it fits, and then the word denotes it. -/
theorem ofInt?_eq_some_iff {n : Int} {a : Int64} : ofInt? n = some a ↔ a.toInt = n := by
  unfold ofInt?
  split
  · rename_i fits
    have denotes : (Int64.ofInt n).toInt = n := Int64.toInt_ofInt_of_le fits.1 fits.2
    constructor
    · intro h
      rw [← Option.some.inj h, denotes]
    · intro h
      rw [← h, Int64.ofInt_toInt]
  · rename_i out
    constructor
    · intro h
      contradiction
    · intro h
      exact absurd (h ▸ fits_toInt a) out

/-- An integer has no word exactly if it is out of range. -/
theorem ofInt?_eq_none_iff {n : Int} : ofInt? n = none ↔ ¬ Fits n := by
  unfold ofInt?
  split <;> simp_all

end Scriptlet.Integer
