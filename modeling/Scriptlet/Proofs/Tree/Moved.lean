import Scriptlet.Script
import Scriptlet.Proofs.Tree.Shape

/-!
Places moved by a function. Moving changes the places in tokens, trees and errors and nothing
else, so it says both what a text shifted down a page is and, with a function that is
constant, what it means to forget where things stand.
-/
namespace Scriptlet

variable (f : Position → Position)

def Token.moved (t : Token) : Token :=
  ⟨t.kind, f t.pos⟩

@[simp] theorem Token.moved_kind (t : Token) : (t.moved f).kind = t.kind := rfl

mutual

/-- A program has no place of its own to move. -/
def Tree.moved : Tree → Tree
  | .program body => .program (Tree.movedAll body)
  | .literal n shown p => .literal n shown (f p)
  | .name id shown p => .name id shown (f p)
  | .arith op l r shown p => .arith op l.moved r.moved shown (f p)
  | .compare op l r p => .compare op l.moved r.moved (f p)
  | .assign id v p => .assign id v.moved (f p)
  | .choose c y n p => .choose c.moved y.moved n.moved (f p)
  | .branch chain => .branch chain.moved
  | .loop b body p => .loop b.moved (Tree.movedAll body) (f p)

def Tree.movedAll : List Tree → List Tree
  | [] => []
  | t :: ts => t.moved :: Tree.movedAll ts

def Branch.moved : Branch → Branch
  | .mk c body others last p =>
    .mk c.moved (Tree.movedAll body) (Branch.movedAll others) (Tree.movedAll last) (f p)

def Branch.movedAll : List Branch → List Branch
  | [] => []
  | b :: bs => b.moved :: Branch.movedAll bs

end

theorem Tree.movedAll_eq_map (ts : List Tree) : Tree.movedAll f ts = ts.map (Tree.moved f) := by
  induction ts with
  | nil => rfl
  | cons t ts ih => rw [Tree.movedAll, ih, List.map_cons]

namespace Tree

@[simp] theorem asShown_moved (t : Tree) : (t.moved f).asShown = t.asShown.moved f := by
  cases t <;> simp [moved, asShown]

@[simp] theorem isComparison_moved (t : Tree) : (t.moved f).isComparison = t.isComparison := by
  cases t <;> simp [moved, isComparison]

/-- Negation folds into a literal wherever the literal stands. -/
@[simp] theorem negated_moved (p : Position) (t : Tree) :
    (t.moved f).negated (f p) = (t.negated p).moved f := by
  cases t <;> simp [moved, negated]

variable {f}

theorem IsExpression.pos_moved {t : Tree} (h : t.IsExpression) : (t.moved f).pos = f t.pos := by
  cases t with
  | literal n shown p => rfl
  | name id shown p => rfl
  | arith op l r shown p => rfl
  | compare op l r p => rfl
  | choose c y n p => rfl
  | _ => exact h.elim

end Tree

def ScanError.moved : ScanError → ScanError
  | strayCharacter c p => strayCharacter c (f p)
  | literalTooLarge digits p => literalTooLarge digits (f p)

def GrammarError.moved : GrammarError → GrammarError
  | unexpected expected t => unexpected expected (t.moved f)
  | endOfInput expected => endOfInput expected
  | noStatement => noStatement
  | notStatement t => notStatement (t.moved f)
  | comparisonAssigned id p => comparisonAssigned id (f p)
  | reserved t => reserved (t.moved f)

def RunError.moved : RunError → RunError
  | unbound id p => unbound id (f p)
  | arithmetic fault p => arithmetic fault (f p)
  | notCount bound p => notCount bound (f p)
  | noValue p => noValue (f p)
  | outputFull => outputFull

def ScriptError.moved : ScriptError → ScriptError
  | scan e => scan (e.moved f)
  | grammar e => grammar (e.moved f)
  | run e => run (e.moved f)

end Scriptlet
