import Scriptlet.Proofs.Grammar.Phrase

/-!
Where the nodes of a tree come from. Each node that can fail while a script runs has the place
of a token: a name that of the identifier, an operator that of its mark or of the sign it
stands for, a loop that of its keyword. Every derivation builds trees whose nodes come from
its own tokens, and so from the tokens of any script it is a part of.
-/
namespace Scriptlet

/-- A token that can stand for the operator at `p`. A minus sign may stand for a product, because
negating is multiplying by minus one. -/
def ArithOp.IsRooted (ts : List Token) (p : Position) : ArithOp → Prop
  | div => ⟨.mark .slash, p⟩ ∈ ts
  | _ => ∃ m ∈ [Mark.plus, .minus, .star], ⟨.mark m, p⟩ ∈ ts

mutual

/-- The nodes that can fail stand where the tokens have what they are made from. -/
def Tree.IsRooted (ts : List Token) : Tree → Prop
  | .program body => Tree.AllRooted ts body
  | .literal _ _ _ => True
  | .name id _ p => ⟨.identifier id, p⟩ ∈ ts
  | .arith op l r _ p => l.IsRooted ts ∧ r.IsRooted ts ∧ op.IsRooted ts p
  | .compare _ l r _ => l.IsRooted ts ∧ r.IsRooted ts
  | .assign _ v _ => v.IsRooted ts
  | .choose c y n _ => c.IsRooted ts ∧ y.IsRooted ts ∧ n.IsRooted ts
  | .branch chain => chain.IsRooted ts
  | .loop b body p => b.IsRooted ts ∧ Tree.AllRooted ts body ∧ ⟨.keyword .repeatWord, p⟩ ∈ ts

def Tree.AllRooted (ts : List Token) : List Tree → Prop
  | [] => True
  | t :: more => t.IsRooted ts ∧ Tree.AllRooted ts more

def Branch.IsRooted (ts : List Token) : Branch → Prop
  | .mk c body others last _ =>
    c.IsRooted ts ∧ Tree.AllRooted ts body ∧ Branch.AllRooted ts others ∧ Tree.AllRooted ts last

def Branch.AllRooted (ts : List Token) : List Branch → Prop
  | [] => True
  | b :: bs => b.IsRooted ts ∧ Branch.AllRooted ts bs

end

theorem Tree.IsRooted.asShown {ts : List Token} {t : Tree} (h : t.IsRooted ts) :
    t.asShown.IsRooted ts := by
  cases t <;> exact h

theorem ArithOp.isRooted_mark {ts : List Token} {op : ArithOp} {p : Position}
    (h : ⟨.mark op.mark, p⟩ ∈ ts) : op.IsRooted ts p := by
  cases op with
  | div => exact h
  | add => exact ⟨.plus, by simp, h⟩
  | sub => exact ⟨.minus, by simp, h⟩
  | mul => exact ⟨.star, by simp, h⟩

namespace Grammar.Phrase

variable {all : List Token}

mutual

/-- The tree of a factor stands on tokens of it, and so does that of any expression. -/
theorem Factor.isRooted {ts : List Token} {t : Tree} : Factor ts t → ts ⊆ all → t.IsRooted all
  | .integer _ _, _ => trivial
  | .name _ _, hsub => hsub (by simp)
  | .parens _ _ inner, hsub => inner.isRooted fun k hk => hsub (by simp [hk])
  | .plus _ operand, hsub => operand.isRooted fun k hk => hsub (by simp [hk])
  | .minusLiteral _ _ _, _ => trivial
  | .minus p operand _, hsub =>
    ⟨trivial, operand.isRooted fun k hk => hsub (by simp [hk]), .minus, by simp, hsub (by simp)⟩

theorem Product.isRooted {ts : List Token} {t : Tree} : Product ts t → ts ⊆ all → t.IsRooted all
  | .factor only, hsub => only.isRooted hsub
  | .step _ left _ right, hsub =>
    ⟨left.isRooted fun k hk => hsub (by simp [hk]), right.isRooted fun k hk => hsub (by simp [hk]),
      ArithOp.isRooted_mark (hsub (by simp))⟩

theorem Sum.isRooted {ts : List Token} {t : Tree} : Sum ts t → ts ⊆ all → t.IsRooted all
  | .product only, hsub => only.isRooted hsub
  | .step _ left _ right, hsub =>
    ⟨left.isRooted fun k hk => hsub (by simp [hk]), right.isRooted fun k hk => hsub (by simp [hk]),
      ArithOp.isRooted_mark (hsub (by simp))⟩

end

theorem Comparison.isRooted {ts : List Token} {t : Tree} (h : Comparison ts t) (hsub : ts ⊆ all) :
    t.IsRooted all := by
  cases h with
  | sum only => exact only.isRooted hsub
  | compare op p left right =>
    have hleft := left.isRooted fun k hk => hsub (by simp [hk])
    have hright := right.isRooted fun k hk => hsub (by simp [hk])
    exact ⟨hleft, hright⟩

theorem Value.isRooted {ts : List Token} {t : Tree} (h : Value ts t) (hsub : ts ⊆ all) :
    t.IsRooted all := by
  cases h with
  | sum only => exact only.isRooted hsub
  | choice p q test yes no =>
    have htest := test.isRooted fun k hk => hsub (by simp [hk])
    have hyes := yes.isRooted fun k hk => hsub (by simp [hk])
    have hno := no.isRooted fun k hk => hsub (by simp [hk])
    exact ⟨htest, hyes, hno⟩

mutual

/-- The tree of a statement stands on tokens of it. -/
theorem Statement.isRooted {ts : List Token} {t : Tree} :
    Statement ts t → ts ⊆ all → t.IsRooted all
  | .shown _ expression _, hsub => by
    refine (expression.isRooted fun k hk => hsub ?_).asShown
    rw [← List.cons_append]
    exact List.mem_append_left _ hk
  | .assign _ _ _ _ _ value, hsub => value.isRooted fun k hk => hsub (by simp [hk])
  | .loop _ bound block, hsub =>
    ⟨bound.isRooted fun k hk => hsub (by simp [hk]),
      block.allRooted fun k hk => hsub (by simp [hk]), hsub (by simp)⟩
  | .branch _ test block elifs otherwise, hsub =>
    ⟨test.isRooted fun k hk => hsub (by simp [hk]),
      block.allRooted fun k hk => hsub (by simp [hk]),
      elifs.allRooted fun k hk => hsub (by simp [hk]),
      otherwise.allRooted fun k hk => hsub (by simp [hk])⟩

theorem Statements.allRooted {ts : List Token} {body : List Tree} :
    Statements ts body → ts ⊆ all → Tree.AllRooted all body
  | .nil, _ => trivial
  | .cons head tail, hsub =>
    ⟨head.isRooted fun k hk => hsub (by simp [hk]), tail.allRooted fun k hk => hsub (by simp [hk])⟩

theorem Block.allRooted {ts : List Token} {body : List Tree} :
    Block ts body → ts ⊆ all → Tree.AllRooted all body
  | .braces _ _ inner, hsub => inner.allRooted fun k hk => hsub (by simp [hk])

theorem Elifs.allRooted {ts : List Token} {others : List Branch} :
    Elifs ts others → ts ⊆ all → Branch.AllRooted all others
  | .nil, _ => trivial
  | .cons _ test block tail, hsub =>
    ⟨⟨test.isRooted fun k hk => hsub (by simp [hk]),
      block.allRooted fun k hk => hsub (by simp [hk]), trivial, trivial⟩,
      tail.allRooted fun k hk => hsub (by simp [hk])⟩

theorem Otherwise.allRooted {ts : List Token} {body : List Tree} :
    Otherwise ts body → ts ⊆ all → Tree.AllRooted all body
  | .absent, _ => trivial
  | .block _ block, hsub => block.allRooted fun k hk => hsub (by simp [hk])

end

end Grammar.Phrase

end Scriptlet
