import Scriptlet.Proofs.Tree.Evaluation
import Scriptlet.Proofs.Token.Spelling

/-!
Where truth values can occur. Arithmetic gives numbers whatever it is given, and comparisons
stand only in conditions, so a variable never holds a truth value and an expression that is
a statement never has one. What a number prints is not what a truth value prints.
-/
namespace Scriptlet

def Value.IsNumber : Value → Prop
  | integer _ => True
  | real _ => True
  | truth _ => False

def Bindings.IsNumeric (b : Bindings) : Prop :=
  ∀ id v, b.get? id = some v → v.IsNumber

theorem Bindings.isNumeric_empty : Bindings.empty.IsNumeric := by
  intro id v h
  simp at h

theorem Bindings.IsNumeric.define {b : Bindings} {v : Value} (h : b.IsNumeric)
    (hv : v.IsNumber) (id : String) : (b.define id v).IsNumeric := by
  intro id' w hw
  rw [Bindings.get?_define] at hw
  by_cases hid : id = id'
  · rw [if_pos hid, Option.some.injEq] at hw
    exact hw ▸ hv
  · rw [if_neg hid] at hw
    exact h id' w hw

/-- Arithmetic gives numbers. -/
theorem ArithOp.isNumber_apply {op : ArithOp} {l r v : Value} (h : op.apply l r = .ok v) :
    v.IsNumber := by
  unfold ArithOp.apply at h
  split at h
  · split at h
    · cases h
    · cases h
      trivial
  · split at h
    · split at h
      · cases h
        trivial
      · cases h
    · cases h
      trivial

namespace Tree

variable {b : Bindings} {t : Tree} {v : Value}

theorem isNumber_arith {op : ArithOp} {l r : Tree} {shown : Bool} {p : Position}
    (h : (arith op l r shown p).value? b = some v) : v.IsNumber := by
  simp only [value?, Option.bind_eq_some_iff] at h
  obtain ⟨x, _, y, _, happly⟩ := h
  cases hxy : op.apply x y with
  | error fault => simp [hxy, Except.toOption] at happly
  | ok w =>
    obtain rfl : w = v := by simpa [hxy, Except.toOption] using happly
    exact ArithOp.isNumber_apply hxy

/-- Over bindings that are numbers every arithmetic expression is a number. -/
theorem IsArith.isNumber (ht : t.IsArith) (hb : b.IsNumeric) (h : t.value? b = some v) :
    v.IsNumber := by
  cases t with
  | literal n shown p =>
    obtain rfl : Value.integer n = v := by simpa [value?] using h
    trivial
  | name id shown p => exact hb id v h
  | arith op l r shown p => exact isNumber_arith h
  | _ => exact ht.elim

/-- What is assigned is a number: a choice has one whatever its condition is. -/
theorem IsValue.isNumber (ht : t.IsValue) (hb : b.IsNumeric) (h : t.value? b = some v) :
    v.IsNumber := by
  rcases ht.isQuiet_or_choose with hquiet | ⟨c, yes, no, p, rfl, _, hyes, hno⟩
  · exact hquiet.isArith.isNumber hb h
  · simp only [value?, Option.bind_eq_some_iff] at h
    obtain ⟨x, _, hx⟩ := h
    by_cases hholds : x.holds = true
    · rw [if_pos hholds] at hx
      exact hyes.isArith.isNumber hb hx
    · rw [if_neg hholds] at hx
      exact hno.isArith.isNumber hb hx

end Tree

def HasDigit (s : String) : Prop :=
  ∃ c ∈ s.toList, Lexeme.isDigit c = true

theorem hasDigit_repr (n : Nat) : HasDigit n.repr := by
  obtain ⟨d, ds, hlist, hd, _⟩ := Lexeme.exists_digits n
  exact ⟨d, by simp [hlist], hd⟩

theorem HasDigit.append_left {s : String} (h : HasDigit s) (s' : String) : HasDigit (s' ++ s) := by
  obtain ⟨c, hc, hdigit⟩ := h
  exact ⟨c, by simp [hc], hdigit⟩

theorem HasDigit.append_right {s : String} (h : HasDigit s) (s' : String) :
    HasDigit (s ++ s') := by
  obtain ⟨c, hc, hdigit⟩ := h
  exact ⟨c, by simp [hc], hdigit⟩

theorem hasDigit_integer (n : Int) : HasDigit n.repr := by
  rw [Int.repr_eq_if]
  split
  · exact hasDigit_repr _
  · exact (hasDigit_repr _).append_left "-"

theorem hasDigit_decimal (d : Decimal) : HasDigit d.text :=
  (hasDigit_repr _).append_left _

/-- A real is written with a digit, or as one of three words. -/
theorem hasDigit_or_mem_real (x : Float) :
    HasDigit (Real.text x) ∨ Real.text x ∈ ["NaN", "-inf", "inf"] := by
  unfold Real.text
  split
  · left
    split
    · exact ((hasDigit_repr _).append_left _).append_right _
    · exact (hasDigit_decimal _).append_left _
  · right
    split
    · simp
    · split <;> simp

/-- No number prints as a truth value does. -/
theorem Value.IsNumber.text_ne {v : Value} (h : v.IsNumber) (b : Bool) :
    v.text ≠ (Value.truth b).text := by
  have hdigit : ∀ s : String, HasDigit s → s ≠ (Value.truth b).text := by
    rintro s ⟨c, hc, hdigit⟩ rfl
    have hnone : (Value.truth b).text.toList.all (fun c => !Lexeme.isDigit c) = true := by
      cases b <;> decide
    have hletter := List.all_eq_true.mp hnone c hc
    rw [hdigit] at hletter
    cases hletter
  cases v with
  | integer n => exact hdigit _ (hasDigit_integer _)
  | real x =>
    rcases hasDigit_or_mem_real x with hreal | hreal
    · exact hdigit _ hreal
    · intro heq
      rw [show Real.text x = (Value.truth b).text from heq] at hreal
      revert hreal
      cases b <;> decide
  | truth c => exact h.elim

end Scriptlet
