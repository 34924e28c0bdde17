import Mathlib.Algebra.Group.Int.Defs
import Scriptlet.Proofs.C.Syntax

/-!
What a program of this part of C prints. Integers have 32 bits and arithmetic on them is exact:
a result outside the range is undefined, and so is the use of a variable that has no value.
A block opens a scope; a declaration adds to the innermost scope and an assignment changes
the innermost variable of the name. Undefined runs print nothing here.
-/
namespace Scriptlet.C

def toInt? (n : Int) : Option Int :=
  if -2 ^ 31 ≤ n ∧ n < 2 ^ 31 then some n else none

def arith? : ArithOp → Int → Int → Option Int
  | .add, a, b => toInt? (a + b)
  | .sub, a, b => toInt? (a - b)
  | .mul, a, b => toInt? (a * b)
  | .div, a, b => if b = 0 then none else toInt? (a.tdiv b)

def compare : CompareOp → Int → Int → Int
  | .less, a, b => if a < b then 1 else 0
  | .greater, a, b => if b < a then 1 else 0

def Expr.eval (env : String → Option Int) : Expr → Option Int
  | number n => toInt? n
  | var id => env id
  | neg e => (e.eval env).bind fun a => toInt? (-a)
  | arith op l r => (l.eval env).bind fun a => (r.eval env).bind fun b => arith? op a b
  | compare op l r => (l.eval env).bind fun a => (r.eval env).bind fun b => some (C.compare op a b)
  | choose c y n => (c.eval env).bind fun a => if a ≠ 0 then y.eval env else n.eval env

abbrev Scope := String → Option Int

namespace Scope

def empty : Scope := fun _ => none

def set (s : Scope) (id : String) (v : Int) : Scope :=
  fun x => if x = id then some v else s x

def lookup : List Scope → String → Option Int
  | [], _ => none
  | s :: ss, id => (s id).or (lookup ss id)

def assign? (id : String) (v : Int) : List Scope → Option (List Scope)
  | [] => none
  | s :: ss => if (s id).isSome then some (s.set id v :: ss) else (s :: ·) <$> assign? id v ss

end Scope

/-- The text that `printf` writes. It knows the conversion of integers only. -/
def formatted : List Char → List Int → Option (List Char)
  | [], _ => some []
  | '%' :: 'i' :: cs, v :: vs => (v.repr.toList ++ ·) <$> formatted cs vs
  | '%' :: _, _ => none
  | c :: cs, vs => (c :: ·) <$> formatted cs vs

def evalAll (env : String → Option Int) : List Expr → Option (List Int)
  | [] => some []
  | e :: es => (e.eval env).bind fun v => (v :: ·) <$> evalAll env es

/-- A statement runs from scopes to scopes and prints a text on the way. The value of a
declaration is computed where the new variable is in scope and has no value yet. -/
inductive Exec : Stmt → List Scope → List Scope → String → Prop
  | skip (ss : List Scope) : Exec .skip ss ss ""
  | seq {s t : Stmt} {ss ss₁ ss₂ : List Scope} {out out' : String}
      (first : Exec s ss ss₁ out) (rest : Exec t ss₁ ss₂ out') :
      Exec (.seq s t) ss ss₂ (out ++ out')
  | declare {s : Scope} {ss : List Scope} {id : String} {e : Expr} {v : Int} (new : s id = none)
      (value : e.eval (fun x => if x = id then none else Scope.lookup (s :: ss) x) = some v) :
      Exec (.declare id e) (s :: ss) (s.set id v :: ss) ""
  | assign {ss ss' : List Scope} {id : String} {e : Expr} {v : Int}
      (value : e.eval (Scope.lookup ss) = some v) (changed : Scope.assign? id v ss = some ss') :
      Exec (.assign id e) ss ss' ""
  | print {ss : List Scope} {format : String} {es : List Expr} {vs : List Int} {cs : List Char}
      (values : evalAll (Scope.lookup ss) es = some vs)
      (written : formatted format.toList vs = some cs) :
      Exec (.print format es) ss ss (String.ofList cs)
  | yes {ss ss' : List Scope} {c : Expr} {v : Int} {s t : Stmt} {out : String}
      (test : c.eval (Scope.lookup ss) = some v) (holds : v ≠ 0) (run : Exec s ss ss' out) :
      Exec (.branch c s t) ss ss' out
  | no {ss ss' : List Scope} {c : Expr} {s t : Stmt} {out : String}
      (test : c.eval (Scope.lookup ss) = some 0) (run : Exec t ss ss' out) :
      Exec (.branch c s t) ss ss' out
  | done {ss : List Scope} {c : Expr} {s : Stmt} (test : c.eval (Scope.lookup ss) = some 0) :
      Exec (.whileLoop c s) ss ss ""
  | turn {ss ss₁ ss₂ : List Scope} {c : Expr} {v : Int} {s : Stmt} {out out' : String}
      (test : c.eval (Scope.lookup ss) = some v) (holds : v ≠ 0) (body : Exec s ss ss₁ out)
      (more : Exec (.whileLoop c s) ss₁ ss₂ out') :
      Exec (.whileLoop c s) ss ss₂ (out ++ out')
  | block {ss ss' : List Scope} {s : Scope} {body : Stmt} {out : String}
      (run : Exec body (Scope.empty :: ss) (s :: ss') out) :
      Exec (.block body) ss ss' out

/-- A statement does one thing. -/
theorem Exec.unique {s : Stmt} {ss ss₁ ss₂ : List Scope} {out out' : String}
    (h : Exec s ss ss₁ out) (h' : Exec s ss ss₂ out') : ss₁ = ss₂ ∧ out = out' := by
  induction h generalizing ss₂ out' with
  | skip => cases h'; exact ⟨rfl, rfl⟩
  | seq _ _ ihs iht =>
    cases h' with
    | seq hs ht =>
      obtain ⟨rfl, rfl⟩ := ihs hs
      obtain ⟨rfl, rfl⟩ := iht ht
      exact ⟨rfl, rfl⟩
  | declare _ value =>
    cases h' with
    | declare _ value' =>
      cases value.symm.trans value'
      exact ⟨rfl, rfl⟩
  | assign value changed =>
    cases h' with
    | assign value' changed' =>
      cases value.symm.trans value'
      cases changed.symm.trans changed'
      exact ⟨rfl, rfl⟩
  | print values written =>
    cases h' with
    | print values' written' =>
      cases values.symm.trans values'
      cases written.symm.trans written'
      exact ⟨rfl, rfl⟩
  | yes test holds _ ih =>
    cases h' with
    | yes _ _ run => exact ih run
    | no test' _ => exact absurd (Option.some.inj (test.symm.trans test')) holds
  | no test _ ih =>
    cases h' with
    | yes test' holds _ => exact absurd (Option.some.inj (test'.symm.trans test)) holds
    | no _ run => exact ih run
  | done test =>
    cases h' with
    | done => exact ⟨rfl, rfl⟩
    | turn test' holds _ _ => exact absurd (Option.some.inj (test'.symm.trans test)) holds
  | turn test holds _ _ ihbody ihmore =>
    cases h' with
    | done test' => exact absurd (Option.some.inj (test.symm.trans test')) holds
    | turn _ _ body more =>
      obtain ⟨rfl, rfl⟩ := ihbody body
      obtain ⟨rfl, rfl⟩ := ihmore more
      exact ⟨rfl, rfl⟩
  | block _ ih =>
    cases h' with
    | block run =>
      obtain ⟨hscopes, rfl⟩ := ih run
      cases hscopes
      exact ⟨rfl, rfl⟩

namespace Scope

theorem lookup_cons_of_none {s : Scope} {x : String} (h : s x = none) (ss : List Scope) :
    lookup (s :: ss) x = lookup ss x := by
  simp [lookup, h]

@[simp] theorem lookup_empty (ss : List Scope) : lookup (empty :: ss) = lookup ss :=
  funext fun _ => lookup_cons_of_none rfl ss

/-- A variable hides those of its name that were declared further out. -/
theorem lookup_set (s : Scope) (ss : List Scope) (id : String) (v : Int) (x : String) :
    lookup (s.set id v :: ss) x = if x = id then some v else lookup (s :: ss) x := by
  by_cases hx : x = id <;> simp [lookup, set, hx]

/-- The same variables as before, of which only those of `D` can have a new value. -/
inductive Keeps (D : String → Prop) : List Scope → List Scope → Prop
  | nil : Keeps D [] []
  | cons {s s' : Scope} {ss ss' : List Scope} (same : ∀ x, ¬ D x → s' x = s x)
      (declared : ∀ x, (s' x).isSome = (s x).isSome) (outer : Keeps D ss ss') :
      Keeps D (s :: ss) (s' :: ss')

namespace Keeps

variable {D : String → Prop}

theorem refl : (ss : List Scope) → Keeps D ss ss
  | [] => .nil
  | _ :: ss => .cons (fun _ _ => rfl) (fun _ => rfl) (refl ss)

theorem trans {ss ss₁ ss₂ : List Scope} (h : Keeps D ss ss₁) (h' : Keeps D ss₁ ss₂) :
    Keeps D ss ss₂ := by
  induction h generalizing ss₂ with
  | nil => exact h'
  | cons same declared _ ih =>
    cases h' with
    | cons same' declared' outer' =>
      exact .cons (fun x hx => (same' x hx).trans (same x hx))
        (fun x => (declared' x).trans (declared x)) (ih outer')

/-- A scope without variables of `D` is left as it was. -/
theorem of_disjoint {s : Scope} {ss scopes : List Scope} (h : Keeps D (s :: ss) scopes)
    (hs : ∀ x, D x → s x = none) : ∃ ss', scopes = s :: ss' ∧ Keeps D ss ss' := by
  cases h with
  | @cons _ s' _ ss' same declared outer =>
    have heq : s' = s := by
      funext x
      by_cases hx : D x
      · have hnone := declared x
        rw [hs x hx] at hnone ⊢
        simpa using hnone
      · exact same x hx
    exact ⟨ss', by rw [heq], outer⟩

end Keeps

/-- A variable that has a value can be assigned to. -/
theorem exists_assign? {D : String → Prop} {id : String} (hid : D id) (v : Int) :
    (ss : List Scope) → (lookup ss id).isSome = true →
      ∃ ss', assign? id v ss = some ss' ∧ Keeps D ss ss' ∧
        ∀ x, lookup ss' x = if x = id then some v else lookup ss x
  | [], h => by simp [lookup] at h
  | s :: ss, h => by
    by_cases hs : (s id).isSome = true
    · refine ⟨s.set id v :: ss, by simp [assign?, hs], .cons ?_ ?_ (.refl ss), lookup_set s ss id v⟩
      · intro x hx
        have hne : x ≠ id := fun heq => hx (heq ▸ hid)
        simp [set, hne]
      · intro x
        by_cases hx : x = id <;> simp [set, hx, hs]
    · have hnone : s id = none := by simpa using hs
      rw [lookup_cons_of_none hnone] at h
      obtain ⟨ss', hassign, hkeeps, hlookup⟩ := exists_assign? hid v ss h
      refine ⟨s :: ss', by simp [assign?, hnone, hassign],
        .cons (fun _ _ => rfl) (fun _ => rfl) hkeeps, fun x => ?_⟩
      by_cases hx : x = id
      · rw [hx, lookup_cons_of_none hnone, hlookup]
        simp
      · simp [lookup, hlookup x, hx]

end Scope

/-- The line that reports the time, which the clock may give as any text of `seconds`. -/
def elapsedLine (seconds : String) : String :=
  "Executed in " ++ seconds ++ " seconds.\n"

/-- The program with this text prints `out` when its clock measures `seconds`. -/
def Prints (seconds text out : String) : Prop :=
  ∃ body ss printed, parse text = some body ∧ Exec body [Scope.empty] ss printed ∧
    out = printed ++ elapsedLine seconds

end Scriptlet.C
