import Scriptlet.Tree.Basic
import Scriptlet.Machine

/-!
Running a tree. Expressions give a value, statements give none. Operands run from left to
right before their operator, only the chosen side of a choice runs, and the bound of a loop
is fixed before its first turn.
-/
namespace Scriptlet

mutual

def Tree.run : Tree → Run (Option Value)
  | .program body => do
    Tree.runAll body
    return none
  | .literal n shown _ => Run.give (.integer n) shown
  | .name id shown p => do
    Run.give (← Run.resolve id p) shown
  | .arith op left right shown p => do
    let l ← Run.needed left.pos (← left.run)
    let r ← Run.needed right.pos (← right.run)
    match op.apply l r with
    | .ok v => Run.give v shown
    | .error fault => Run.fail (.arithmetic fault p)
  | .compare op left right _ => do
    let l ← Run.needed left.pos (← left.run)
    let r ← Run.needed right.pos (← right.run)
    return some (.truth (op.apply l r))
  | .assign id value _ => do
    Run.define id (← Run.needed value.pos (← value.run))
    return none
  | .choose test yes no _ => do
    if (← Run.needed test.pos (← test.run)).holds then yes.run else no.run
  | .branch chain => do
    let _ ← chain.run
    return none
  | .loop bound body p => do
    let n ← Attempt.ofExcept ((← Run.needed bound.pos (← bound.run)).count p)
    Run.times n (Tree.runAll body)
    return none

def Tree.runAll : List Tree → Run Unit
  | [] => pure ()
  | t :: ts => do
    let _ ← t.run
    Tree.runAll ts

/-- Whether a condition of the chain held, its own or that of a branch tried after it. -/
def Branch.run : Branch → Run Bool
  | .mk test body others otherwise _ => do
    if (← Run.needed test.pos (← test.run)).holds then
      Tree.runAll body
      return true
    else if ← Branch.runFirst others then
      return true
    else
      Tree.runAll otherwise
      return false

def Branch.runFirst : List Branch → Run Bool
  | [] => return false
  | b :: bs => do
    if ← b.run then return true else Branch.runFirst bs

end

def Tree.runValue (t : Tree) : Run Value := do
  Run.needed t.pos (← t.run)

end Scriptlet
