import Scriptlet.Proofs.Grammar.Phrase
import Scriptlet.Proofs.Tree.Parts

/-!
The trees that scripts have. Of all trees that can be built, the grammar reaches those where
values are sums, comparisons stand only in conditions, a choice only as the value of an
assignment, and nothing is shown but a statement. These are predicates on trees alone;
every derivation ends in a tree that satisfies the one for its kind of phrase.
-/
namespace Scriptlet

namespace Tree

/-- An expression of literals, names and arithmetic in which nothing is shown. -/
def IsQuiet : Tree → Prop
  | literal _ shown _ => shown = false
  | name _ shown _ => shown = false
  | arith _ l r shown _ => l.IsQuiet ∧ r.IsQuiet ∧ shown = false
  | _ => False

/-- An expression that is shown, with nothing shown inside it. -/
def IsShownSum : Tree → Prop
  | literal _ shown _ => shown = true
  | name _ shown _ => shown = true
  | arith _ l r shown _ => l.IsQuiet ∧ r.IsQuiet ∧ shown = true
  | _ => False

def IsTest : Tree → Prop
  | compare _ l r _ => l.IsQuiet ∧ r.IsQuiet
  | t => t.IsQuiet

def IsValue : Tree → Prop
  | choose c y n _ => c.IsTest ∧ y.IsQuiet ∧ n.IsQuiet
  | t => t.IsQuiet

def IsArith : Tree → Prop
  | literal _ _ _ => True
  | name _ _ _ => True
  | arith _ l r _ _ => l.IsArith ∧ r.IsArith
  | _ => False

theorem IsQuiet.isArith : {t : Tree} → t.IsQuiet → t.IsArith
  | literal _ _ _, _ => trivial
  | name _ _ _, _ => trivial
  | arith _ _ _ _ _, h => ⟨h.1.isArith, h.2.1.isArith⟩

theorem IsShownSum.isArith {t : Tree} (h : t.IsShownSum) : t.IsArith := by
  cases t with
  | literal n shown p => trivial
  | name id shown p => trivial
  | arith op l r shown p => exact ⟨h.1.isArith, h.2.1.isArith⟩
  | _ => exact h.elim

theorem IsQuiet.isTest {t : Tree} (h : t.IsQuiet) : t.IsTest := by
  cases t <;> simp_all [IsQuiet, IsTest]

theorem IsQuiet.isValue {t : Tree} (h : t.IsQuiet) : t.IsValue := by
  cases t <;> simp_all [IsQuiet, IsValue]

/-- A test is quiet or compares two quiet trees. -/
theorem IsTest.isQuiet_or_compare {t : Tree} (h : t.IsTest) :
    t.IsQuiet ∨ ∃ op l r p, t = compare op l r p ∧ l.IsQuiet ∧ r.IsQuiet := by
  cases t with
  | compare op l r p => exact .inr ⟨op, l, r, p, rfl, h⟩
  | _ => exact .inl h

/-- A value is quiet or chooses between two quiet trees by a test. -/
theorem IsValue.isQuiet_or_choose {t : Tree} (h : t.IsValue) :
    t.IsQuiet ∨ ∃ c y n p, t = choose c y n p ∧ c.IsTest ∧ y.IsQuiet ∧ n.IsQuiet := by
  cases t with
  | choose c y n p => exact .inr ⟨c, y, n, p, rfl, h⟩
  | _ => exact .inl h

theorem IsQuiet.not_isComparison {t : Tree} (h : t.IsQuiet) : t.isComparison = false := by
  cases t <;> simp_all [IsQuiet, isComparison]

theorem IsQuiet.isShownSum_asShown {t : Tree} (h : t.IsQuiet) : t.asShown.IsShownSum := by
  cases t with
  | literal n shown p => rfl
  | name id shown p => rfl
  | arith op l r shown p => exact ⟨h.1, h.2.1, rfl⟩
  | _ => exact h.elim

end Tree

/-- Values made of values only: no statement stands inside. -/
def Tree.IsExpression : Tree → Prop
  | .literal _ _ _ => True
  | .name _ _ _ => True
  | .arith _ l r _ _ => l.IsExpression ∧ r.IsExpression
  | .compare _ l r _ => l.IsExpression ∧ r.IsExpression
  | .choose c y n _ => c.IsExpression ∧ y.IsExpression ∧ n.IsExpression
  | _ => False

theorem Tree.IsArith.isExpression : {t : Tree} → t.IsArith → t.IsExpression
  | .literal _ _ _, _ => trivial
  | .name _ _ _, _ => trivial
  | .arith _ _ _ _ _, h => ⟨IsArith.isExpression h.1, IsArith.isExpression h.2⟩

theorem Tree.IsQuiet.isExpression {t : Tree} (h : t.IsQuiet) : t.IsExpression :=
  h.isArith.isExpression

theorem Tree.IsShownSum.isExpression {t : Tree} (h : t.IsShownSum) : t.IsExpression :=
  h.isArith.isExpression

theorem Tree.IsTest.isExpression {t : Tree} (h : t.IsTest) : t.IsExpression := by
  cases t with
  | compare op l r p => exact ⟨h.1.isExpression, h.2.isExpression⟩
  | _ => exact IsQuiet.isExpression h

theorem Tree.IsValue.isExpression {t : Tree} (h : t.IsValue) : t.IsExpression := by
  cases t with
  | choose c y n p => exact ⟨h.1.isExpression, h.2.1.isExpression, h.2.2.isExpression⟩
  | _ => exact IsQuiet.isExpression h

/-- What no expression has of its own is nowhere in an expression. -/
theorem Tree.IsExpression.gather_eq_nil {α : Type} {own : Tree → List α}
    (hown : ∀ t : Tree, t.IsExpression → own t = []) : {t : Tree} → t.IsExpression →
    t.gather own = []
  | .literal _ _ _, h => hown _ h
  | .name _ _ _, h => hown _ h
  | .arith _ _ _ _ _, h => by
    simp [hown _ h, IsExpression.gather_eq_nil hown h.1, IsExpression.gather_eq_nil hown h.2]
  | .compare _ _ _ _, h => by
    simp [hown _ h, IsExpression.gather_eq_nil hown h.1, IsExpression.gather_eq_nil hown h.2]
  | .choose _ _ _ _, h => by
    simp [hown _ h, IsExpression.gather_eq_nil hown h.1, IsExpression.gather_eq_nil hown h.2.1,
      IsExpression.gather_eq_nil hown h.2.2]

theorem Tree.IsExpression.targets_eq_nil {t : Tree} (h : t.IsExpression) : t.targets = [] := by
  refine h.gather_eq_nil fun u hu => ?_
  cases u with
  | assign id v p => exact hu.elim
  | _ => rfl

theorem Tree.IsExpression.bounds_eq_nil {t : Tree} (h : t.IsExpression) : t.bounds = [] := by
  refine h.gather_eq_nil fun u hu => ?_
  cases u with
  | loop b body p => exact hu.elim
  | _ => rfl

mutual

def Tree.IsStatement : Tree → Prop
  | .assign _ v _ => v.IsValue
  | .loop b body _ => b.IsQuiet ∧ Tree.AllStatements body
  | .branch c => c.IsChain
  | t => t.IsShownSum

def Tree.AllStatements : List Tree → Prop
  | [] => True
  | t :: ts => t.IsStatement ∧ Tree.AllStatements ts

def Branch.IsChain : Branch → Prop
  | .mk c body others last _ =>
    c.IsTest ∧ Tree.AllStatements body ∧ Branch.AllElifs others ∧ Tree.AllStatements last

def Branch.AllElifs : List Branch → Prop
  | [] => True
  | .mk c body others last _ :: bs =>
    (c.IsTest ∧ Tree.AllStatements body ∧ others = [] ∧ last = []) ∧ Branch.AllElifs bs

end

def Tree.IsScript : Tree → Prop
  | .program body => Tree.AllStatements body
  | _ => False

theorem Tree.IsShownSum.isStatement {t : Tree} (h : t.IsShownSum) : t.IsStatement := by
  cases t <;> simp_all [Tree.IsShownSum, Tree.IsStatement]

namespace Grammar.Phrase

mutual

/-- The tree of a factor is quiet. -/
theorem Factor.isQuiet {ts : List Token} {t : Tree} : Factor ts t → t.IsQuiet
  | .integer _ _ => rfl
  | .name _ _ => rfl
  | .parens _ _ inner => inner.isQuiet
  | .plus _ operand => operand.isQuiet
  | .minusLiteral _ operand _ => operand.isQuiet
  | .minus _ operand _ => ⟨rfl, operand.isQuiet, rfl⟩

theorem Product.isQuiet {ts : List Token} {t : Tree} : Product ts t → t.IsQuiet
  | .factor only => only.isQuiet
  | .step _ left _ right => ⟨left.isQuiet, right.isQuiet, rfl⟩

theorem Sum.isQuiet {ts : List Token} {t : Tree} : Sum ts t → t.IsQuiet
  | .product only => only.isQuiet
  | .step _ left _ right => ⟨left.isQuiet, right.isQuiet, rfl⟩

end

theorem Comparison.isTest {ts : List Token} {t : Tree} (h : Comparison ts t) : t.IsTest := by
  cases h with
  | sum only => exact only.isQuiet.isTest
  | compare op p left right => exact ⟨left.isQuiet, right.isQuiet⟩

theorem Value.isValue {ts : List Token} {t : Tree} (h : Value ts t) : t.IsValue := by
  cases h with
  | sum only => exact only.isQuiet.isValue
  | choice p q test yes no => exact ⟨test.isTest, yes.isQuiet, no.isQuiet⟩

mutual

/-- The tree of a statement has the shape of one. -/
theorem Statement.isStatement {ts : List Token} {t : Tree} : Statement ts t → t.IsStatement
  | .shown _ expression _ => expression.isQuiet.isShownSum_asShown.isStatement
  | .assign _ _ _ _ _ value => value.isValue
  | .loop _ bound block => ⟨bound.isQuiet, block.allStatements⟩
  | .branch _ test block elifs otherwise =>
    ⟨test.isTest, block.allStatements, elifs.allElifs, otherwise.allStatements⟩

theorem Statements.allStatements {ts : List Token} {body : List Tree} :
    Statements ts body → Tree.AllStatements body
  | .nil => trivial
  | .cons head tail => ⟨head.isStatement, tail.allStatements⟩

theorem Block.allStatements {ts : List Token} {body : List Tree} :
    Block ts body → Tree.AllStatements body
  | .braces _ _ inner => inner.allStatements

/-- The branches behind the first have no branches of their own. -/
theorem Elifs.allElifs {ts : List Token} {others : List Branch} :
    Elifs ts others → Branch.AllElifs others
  | .nil => trivial
  | .cons _ test block tail => ⟨⟨test.isTest, block.allStatements, rfl, rfl⟩, tail.allElifs⟩

theorem Otherwise.allStatements {ts : List Token} {last : List Tree} :
    Otherwise ts last → Tree.AllStatements last
  | .absent => trivial
  | .block _ block => block.allStatements

end

end Grammar.Phrase

end Scriptlet
