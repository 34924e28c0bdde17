import Scriptlet.Tree.Run
import Scriptlet.CSource.Code
import Scriptlet.CSource.Counters

/-!
Drafting the C code of a tree. A draft follows the text of the script from top to bottom and
keeps bindings on the way: each assignment is evaluated where it stands, so a name that is
used before any assignment to it is refused, the first assignment to a name declares
it, and the bound of a loop becomes the number it has there. Nothing that is evaluated
prints.
-/
namespace Scriptlet

namespace CSource

structure Draft where
  bindings : Bindings := .empty
  counters : Counters := {}

abbrev Drafting (α : Type) := Attempt Draft α

namespace Drafting

abbrev resolve (id : String) (p : Position) : Drafting Value :=
  Attempt.resolve Draft.bindings id p

def define (id : String) (v : Value) : Drafting Unit :=
  modify fun d => { d with bindings := d.bindings.define id v }

def evaluate (t : Tree) : Drafting Value := do
  let (result, machine) := t.runValue.run { bindings := (← get).bindings }
  modify fun d => { d with bindings := machine.bindings }
  Attempt.ofExcept result

def takeCounter : Drafting String := do
  let (name, counters) := (← get).counters.take (← get).bindings
  modify fun d => { d with counters := counters }
  return name

end Drafting

end CSource

open CSource

mutual

def Tree.draft : Tree → (place : Place) → Drafting Code
  | .program body, _ => return .main (← Tree.draftAll body)
  | .literal n shown _, place => return Code.shownAt place shown (.number n)
  | .name id shown p, place => do
    let _ ← Drafting.resolve id p
    return Code.shownAt place shown (.var id)
  | .arith op left right shown _, place => do
    let l ← left.draft .value
    let r ← right.draft .value
    return Code.shownAt place shown (.arith op l r)
  | .compare op left right _, _ => do
    let l ← left.draft .value
    let r ← right.draft .value
    return .compare op l r
  | .assign id value _, _ => do
    let declares := !(← get).bindings.contains id
    let v ← Drafting.evaluate value
    let code ← value.draft .value
    Drafting.define id v
    return .set declares id code
  | .choose test yes no _, _ => do
    let c ← test.draft .value
    let y ← yes.draft .value
    let n ← no.draft .value
    return .choose c y n
  | .branch chain, _ => return .branch (← chain.draft)
  | .loop bound body p, _ => do
    let turns ← Attempt.ofExcept ((← Drafting.evaluate bound).count p)
    let counter ← Drafting.takeCounter
    return .loop counter turns (← Tree.draftAll body)

def Tree.draftAll : List Tree → Drafting (List Code)
  | [] => return []
  | t :: ts => do
    let c ← t.draft .statement
    return c :: (← Tree.draftAll ts)

def Branch.draft : Branch → Drafting Chain
  | .mk test body others otherwise _ => do
    let c ← test.draft .value
    let b ← Tree.draftAll body
    let os ← Branch.draftAll others
    return ⟨c, b, os, ← Tree.draftAll otherwise⟩

def Branch.draftAll : List Branch → Drafting (List Chain)
  | [] => return []
  | b :: bs => do
    let c ← b.draft
    return c :: (← Branch.draftAll bs)

end

end Scriptlet
