import Scriptlet.Token.Basic

/-!
The binary operators, their spelling, and how tightly the arithmetic ones bind.
-/
namespace Scriptlet

inductive ArithOp
  | add
  | sub
  | mul
  | div
deriving DecidableEq, Repr

namespace ArithOp

def mark : ArithOp → Mark
  | add => .plus
  | sub => .minus
  | mul => .star
  | div => .slash

def symbol (op : ArithOp) : String :=
  op.mark.text

def precedence : ArithOp → Nat
  | add | sub => 1
  | mul | div => 2

def all : List ArithOp := [add, sub, mul, div]

def ofKind? (k : Token.Kind) : Option ArithOp :=
  all.find? fun op => k == .mark op.mark

/-- The operator a token stands for, if it is one of this precedence. -/
def ofKindAt? (level : Nat) (k : Token.Kind) : Option ArithOp :=
  (ofKind? k).filter fun op => op.precedence == level

end ArithOp

inductive CompareOp
  | less
  | greater
deriving DecidableEq, Repr

namespace CompareOp

def mark : CompareOp → Mark
  | less => .less
  | greater => .greater

def symbol (op : CompareOp) : String :=
  op.mark.text

def all : List CompareOp := [less, greater]

def ofKind? (k : Token.Kind) : Option CompareOp :=
  all.find? fun op => k == .mark op.mark

end CompareOp

end Scriptlet
