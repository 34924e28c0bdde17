import Scriptlet.Operator

/-!
Syntax trees. One type holds programs, statements and expressions, because a tree may be
built by hand with a statement where a value belongs. Every node but a program knows its
place: operators and the question mark stand for the node they build.
An expression that is a statement of its own is marked as shown: running it prints its
value.
-/
namespace Scriptlet

mutual

inductive Tree
  | program (body : List Tree)
  | literal (value : Int64) (shown : Bool) (pos : Position)
  | name (id : String) (shown : Bool) (pos : Position)
  | arith (op : ArithOp) (left right : Tree) (shown : Bool) (pos : Position)
  | compare (op : CompareOp) (left right : Tree) (pos : Position)
  | assign (id : String) (value : Tree) (pos : Position)
  | choose (test yes no : Tree) (pos : Position)
  | branch (chain : Branch)
  | loop (bound : Tree) (body : List Tree) (pos : Position)

/-- A condition with its block, the branches tried after it, and the block for when none of
them holds. -/
inductive Branch
  | mk (test : Tree) (body : List Tree) (others : List Branch) (otherwise : List Tree)
      (pos : Position)

end

def Branch.pos : Branch → Position
  | mk _ _ _ _ p => p

namespace Tree

def pos : Tree → Position
  | program _ => .start
  | literal _ _ p => p
  | name _ _ p => p
  | arith _ _ _ _ p => p
  | compare _ _ _ p => p
  | assign _ _ p => p
  | choose _ _ _ p => p
  | branch c => c.pos
  | loop _ _ p => p

def isShown : Tree → Bool
  | literal _ shown _ => shown
  | name _ shown _ => shown
  | arith _ _ _ shown _ => shown
  | _ => false

/-- Marks an expression as a statement of its own; other nodes stay as they are. -/
def asShown : Tree → Tree
  | literal n _ p => literal n true p
  | name s _ p => name s true p
  | arith op l r _ p => arith op l r true p
  | t => t

def isComparison : Tree → Bool
  | compare _ _ _ _ => true
  | _ => false

/-- The tree of a minus sign at `p` before an operand. A literal takes the sign itself, any
other operand is multiplied by minus one. -/
def negated (p : Position) : Tree → Tree
  | literal n shown q => literal (-n) shown q
  | t => arith .mul (literal (-1) false p) t false p

end Tree

end Scriptlet
