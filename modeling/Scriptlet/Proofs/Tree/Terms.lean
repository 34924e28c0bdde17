import Scriptlet.Proofs.Machine.Fails
import Scriptlet.Proofs.Tree.Shape

/-!
Exact arithmetic on unbounded integers, and when 64 bits are enough for it. A term is an
expression without division as it is written, with signs as operations of their own. Its value
is the usual one. A checked evaluation goes through the parts of a term, operands first and
from left to right, and stops at the first one that has no value or one that does not
fit; so nothing wraps around, and a whole that would fit does not hide a part that does not.
-/
namespace Scriptlet

inductive Term.Op
  | add
  | sub
  | mul

inductive Term
  | number (n : Int64)
  | name (id : String) (pos : Position)
  | negation (operand : Term) (pos : Position)
  | operation (op : Term.Op) (left right : Term) (pos : Position)

namespace Term

namespace Op

def on : Op → Int → Int → Int
  | add, x, y => x + y
  | sub, x, y => x - y
  | mul, x, y => x * y

def toArith : Op → ArithOp
  | add => .add
  | sub => .sub
  | mul => .mul

end Op

/-- The exact value, where all names are bound to integers. -/
def meaning? (b : Bindings) : Term → Option Int
  | number n => some n.toInt
  | name id _ => ((b.get? id).bind Value.integer?).map Int64.toInt
  | negation e _ => (e.meaning? b).map fun x => -x
  | operation op l r _ => (l.meaning? b).bind fun x => (r.meaning? b).map fun y => op.on x y

def parts : Term → List Term
  | number n => [number n]
  | name id p => [name id p]
  | negation e p => e.parts ++ [negation e p]
  | operation op l r p => l.parts ++ (r.parts ++ [operation op l r p])

def InRange (b : Bindings) (e : Term) : Prop :=
  ∃ x, e.meaning? b = some x ∧ Integer.Fits x

/-- The error to which an expression leads whose operands have values in range, but which has
none itself. -/
def error? : Term → Option RunError
  | number _ => none
  | name id p => some (.unbound id p)
  | negation _ p => some (.arithmetic .overflow p)
  | operation _ _ _ p => some (.arithmetic .overflow p)

def FirstFault (b : Bindings) (es : List Term) (err : RunError) : Prop :=
  ∃ before e after, es = before ++ e :: after ∧ (∀ u ∈ before, u.InRange b) ∧ ¬ e.InRange b ∧
    e.error? = some err

def fitted (p : Position) (x : Int) : Except RunError Int :=
  if Integer.Fits x then .ok x else .error (.arithmetic .overflow p)

def evaluate (b : Bindings) : Term → Except RunError Int
  | number n => .ok n.toInt
  | name id p =>
    match (b.get? id).bind Value.integer? with
    | some n => .ok n.toInt
    | none => .error (.unbound id p)
  | negation e p => do
    let x ← e.evaluate b
    fitted p (-x)
  | operation op l r p => do
    let x ← l.evaluate b
    let y ← r.evaluate b
    fitted p (op.on x y)

section Evaluate

variable {b : Bindings} {e : Term} {es fs : List Term} {err : RunError} {x : Int}

theorem FirstFault.append_right (h : FirstFault b es err) (fs : List Term) :
    FirstFault b (es ++ fs) err := by
  obtain ⟨before, e, after, rfl, hbefore, he, herr⟩ := h
  exact ⟨before, e, after ++ fs, by simp, hbefore, he, herr⟩

theorem FirstFault.append_left (hes : ∀ u ∈ es, u.InRange b) (h : FirstFault b fs err) :
    FirstFault b (es ++ fs) err := by
  obtain ⟨before, e, after, rfl, hbefore, he, herr⟩ := h
  refine ⟨es ++ before, e, after, by simp, fun u hu => ?_, he, herr⟩
  rcases List.mem_append.mp hu with hu | hu
  · exact hes u hu
  · exact hbefore u hu

theorem FirstFault.not_all (h : FirstFault b es err) : ¬ ∀ u ∈ es, u.InRange b := by
  obtain ⟨before, e, after, rfl, _, he, _⟩ := h
  intro hall
  exact he (hall e (by simp))

/-- The evaluation gives the exact value and all parts are in range, or it gives the error of
the first part that is not. -/
def Accounts (b : Bindings) (e : Term) : Except RunError Int → Prop
  | .ok x => (∀ u ∈ e.parts, u.InRange b) ∧ e.meaning? b = some x
  | .error err => FirstFault b e.parts err

/-- The last step of an evaluation, when all operands are in range. -/
theorem accounts_fitted {p : Position} (hparts : e.parts = es ++ [e])
    (hes : ∀ u ∈ es, u.InRange b) (hexact : e.meaning? b = some x)
    (herror : e.error? = some (.arithmetic .overflow p)) : Accounts b e (fitted p x) := by
  unfold fitted
  by_cases hfits : Integer.Fits x
  · rw [if_pos hfits]
    refine ⟨fun u hu => ?_, hexact⟩
    rw [hparts] at hu
    rcases List.mem_append.mp hu with hu | hu
    · exact hes u hu
    · obtain rfl := List.mem_singleton.mp hu
      exact ⟨x, hexact, hfits⟩
  · rw [if_neg hfits]
    refine ⟨es, e, [], hparts, hes, ?_, herror⟩
    rintro ⟨y, hy, hyfits⟩
    rw [hexact] at hy
    exact hfits (Option.some.inj hy ▸ hyfits)

/-- Evaluation gives the meaning of a term whose parts are all in range, and else its first
fault. -/
theorem accounts_evaluate (b : Bindings) (e : Term) : Accounts b e (e.evaluate b) := by
  induction e with
  | number n =>
    refine ⟨fun u hu => ?_, rfl⟩
    obtain rfl := List.mem_singleton.mp hu
    exact ⟨n.toInt, rfl, Integer.fits_toInt n⟩
  | name id p =>
    rw [evaluate]
    cases hid : (b.get? id).bind Value.integer? with
    | none =>
      refine ⟨[], name id p, [], rfl, by simp, ?_, rfl⟩
      rintro ⟨x, hx, _⟩
      rw [meaning?, hid] at hx
      cases hx
    | some n =>
      have hexact : (name id p).meaning? b = some n.toInt := by
        rw [meaning?, hid]
        rfl
      refine ⟨fun u hu => ?_, hexact⟩
      obtain rfl := List.mem_singleton.mp hu
      exact ⟨n.toInt, hexact, Integer.fits_toInt n⟩
  | negation e p ih =>
    rw [evaluate]
    cases he : e.evaluate b with
    | error err =>
      rw [he] at ih
      exact ih.append_right [negation e p]
    | ok x =>
      rw [he] at ih
      exact accounts_fitted rfl ih.1 (by rw [meaning?, ih.2]; rfl) rfl
  | operation op l r p ihl ihr =>
    rw [evaluate]
    cases hl : l.evaluate b with
    | error err =>
      rw [hl] at ihl
      exact ihl.append_right _
    | ok x =>
      rw [hl] at ihl
      cases hr : r.evaluate b with
      | error err =>
        rw [hr] at ihr
        exact FirstFault.append_left ihl.1 (ihr.append_right _)
      | ok y =>
        rw [hr] at ihr
        -- Both operands are in range with all their parts; only the operation may be at fault.
        refine accounts_fitted (List.append_assoc ..).symm (fun u hu => ?_) ?_ rfl
        · rcases List.mem_append.mp hu with hu | hu
          · exact ihl.1 u hu
          · exact ihr.1 u hu
        · rw [meaning?, ihl.2, ihr.2]
          rfl

/-- Negating is multiplying by minus one, also in what does not fit. -/
theorem evaluate_negation (b : Bindings) (e : Term) (p : Position) :
    (operation .mul (.number (-1)) e p).evaluate b = (negation e p).evaluate b := by
  have hminus : ((-1 : Int64)).toInt = -1 := by decide
  rw [evaluate, evaluate, evaluate]
  cases e.evaluate b with
  | error err => rfl
  | ok x =>
    change fitted p (Op.mul.on _ x) = fitted p (-x)
    rw [Op.on, hminus, Int.neg_mul, Int.one_mul]

theorem self_mem_parts (e : Term) : e ∈ e.parts := by
  cases e <;> simp [parts]

theorem fits_of_evaluate (h : e.evaluate b = .ok x) : Integer.Fits x := by
  have haccounts := accounts_evaluate b e
  rw [h] at haccounts
  obtain ⟨y, hy, hfits⟩ := haccounts.1 e e.self_mem_parts
  rw [haccounts.2] at hy
  exact Option.some.inj hy ▸ hfits

end Evaluate

end Term

def Bindings.IsIntegral (b : Bindings) : Prop :=
  ∀ id v, b.get? id = some v → ∃ n, v = .integer n

namespace Tree

open Term (fitted)

/-- The tree runs as the term is evaluated, and changes nothing. -/
def Computes (t : Tree) (e : Term) : Prop :=
  ∀ m : Machine, m.bindings.IsIntegral →
    t.run.run m = ((e.evaluate m.bindings).map fun x => some (.integer (Int64.ofInt x)), m)

theorem toInt_ofInt {x : Int} (h : Integer.Fits x) : (Int64.ofInt x).toInt = x :=
  Int64.toInt_ofInt_of_le h.1 h.2

theorem computes_literal (n : Int64) (p : Position) :
    (literal n false p).Computes (.number n) := by
  intro m _
  rw [Term.evaluate, Except.map, Int64.ofInt_toInt]
  rfl

theorem computes_name (id : String) (p : Position) : (name id false p).Computes (.name id p) := by
  intro m hm
  rw [Term.evaluate]
  cases hid : m.bindings.get? id with
  | none =>
    have hresolve : Fails (Run.resolve id p) m (.unbound id p) m := by
      simp [Bindings.contains_eq_isSome, hid]
    exact (fails_bind ..).mpr (.inl hresolve)
  | some v =>
    obtain ⟨n, rfl⟩ := hm id v hid
    have hgives : Gives (name id false p).run m (some (.integer n)) m := by
      simp [Tree.run, Run.give, hid]
    rw [Option.bind_some, Value.integer?, Except.map, Int64.ofInt_toInt]
    exact hgives

/-- On integers in range an operation gives its exact result, if that is in range too. -/
theorem apply_toArith (op : Term.Op) {x y : Int} (hx : Integer.Fits x) (hy : Integer.Fits y) :
    op.toArith.apply (.integer (Int64.ofInt x)) (.integer (Int64.ofInt y)) =
      if Integer.Fits (op.on x y) then .ok (.integer (Int64.ofInt (op.on x y)))
      else .error .overflow := by
  have hexact : op.toArith.onIntegers? (Int64.ofInt x) (Int64.ofInt y) =
      Integer.ofInt? (op.on x y) := by
    cases op <;>
      simp only [Term.Op.toArith, Term.Op.on, ArithOp.onIntegers?, Integer.add?, Integer.sub?,
        Integer.mul?, toInt_ofInt hx, toInt_ofInt hy]
  have hdiv : op.toArith ≠ .div := by cases op <;> nofun
  simp only [ArithOp.apply, if_neg hdiv, Value.integer?, hexact, Integer.ofInt?]
  by_cases hfits : Integer.Fits (op.on x y)
  · simp only [if_pos hfits]
  · simp only [if_neg hfits]

/-- An operation is computed where its operands are. -/
theorem Computes.operation {l r : Tree} {e e' : Term} (hl : l.Computes e) (hr : r.Computes e')
    (op : Term.Op) (p : Position) :
    (arith op.toArith l r false p).Computes (.operation op e e' p) := by
  intro m hm
  rw [Tree.run, run_bind, hl m hm, Term.evaluate]
  cases hx : e.evaluate m.bindings with
  | error err => rfl
  | ok x =>
    simp only [Except.map, Run.needed, pure_bind]
    rw [run_bind, hr m hm]
    cases hy : e'.evaluate m.bindings with
    | error err => rfl
    | ok y =>
      have happly := apply_toArith op (Term.fits_of_evaluate hx) (Term.fits_of_evaluate hy)
      simp only [Except.map, pure_bind, happly]
      by_cases hfits : Integer.Fits (op.on x y)
      · simp only [if_pos hfits, bind, Except.bind, fitted]
        rfl
      · simp only [if_neg hfits, bind, Except.bind, fitted]
        rfl

section Ends

variable {t : Tree} {e : Term} {m : Machine}

/-- A run gives an integer where all parts of the term are in range and it is what the term
means. -/
theorem Computes.gives_iff (h : t.Computes e) (hm : m.bindings.IsIntegral) (n : Int64)
    (m' : Machine) : Gives t.run m (some (.integer n)) m' ↔
      (∀ u ∈ e.parts, u.InRange m.bindings) ∧ e.meaning? m.bindings = some n.toInt ∧ m' = m := by
  have haccounts := Term.accounts_evaluate m.bindings e
  unfold Gives
  rw [h m hm]
  cases hvalue : e.evaluate m.bindings with
  | error err =>
    rw [hvalue] at haccounts
    constructor
    · intro hgives
      cases hgives
    · rintro ⟨hall, _⟩
      exact absurd hall haccounts.not_all
  | ok x =>
    rw [hvalue] at haccounts
    obtain ⟨hall, hexact⟩ := haccounts
    constructor
    · intro hgives
      cases hgives
      exact ⟨hall, by rw [hexact, toInt_ofInt (Term.fits_of_evaluate hvalue)], rfl⟩
    · rintro ⟨_, hn, rfl⟩
      obtain rfl : x = n.toInt := Option.some.inj (hexact.symm.trans hn)
      rw [Except.map, Int64.ofInt_toInt]

/-- A run fails by the first fault of the term, where there is one. -/
theorem Computes.exists_fails (h : t.Computes e) (hm : m.bindings.IsIntegral)
    (hnot : ¬ ∀ u ∈ e.parts, u.InRange m.bindings) :
    ∃ err, Term.FirstFault m.bindings e.parts err ∧ Fails t.run m err m := by
  have haccounts := Term.accounts_evaluate m.bindings e
  have hrun := h m hm
  cases hvalue : e.evaluate m.bindings with
  | error err =>
    rw [hvalue] at haccounts hrun
    exact ⟨err, haccounts, hrun⟩
  | ok x =>
    rw [hvalue] at haccounts
    exact absurd haccounts.1 hnot

end Ends

end Tree

end Scriptlet
