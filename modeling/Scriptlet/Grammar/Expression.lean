import Scriptlet.Grammar.Reply
import Scriptlet.Tree.Basic

/-!
The rules for expressions. One token of lookahead decides every step.

    comparison := sum (("<" | ">") sum)?
    sum        := product (("+" | "-") product)*
    product    := factor (("*" | "/") factor)*
    factor     := integer | identifier | "(" sum ")" | ("+" | "-") factor

Operators of one level group to the left.
-/
namespace Scriptlet.Grammar

def factorStart : List Token.Class :=
  [.integer, .identifier, .mark .openParen, .mark .plus, .mark .minus]

mutual

/-- A plus sign leaves no trace in the tree; for a minus sign see `Tree.negated`. -/
def factor : (ts : List Token) → Reply Tree ts.length
  | [] => .stuck (.endOfInput factorStart) []
  | t :: ts =>
    match t.kind with
    | .integer n => .done (.literal n false t.pos) ts (Nat.lt_succ_self _)
    | .identifier s => .done (.name s false t.pos) ts (Nat.lt_succ_self _)
    | .mark .openParen =>
      Reply.later <| (sum ts).andThen fun e rest _ =>
        (expectMark .closeParen rest).map fun _ => e
    | .mark .plus => (factor ts).later
    | .mark .minus => ((factor ts).map (Tree.negated t.pos)).later
    | .keyword .andWord | .keyword .orWord | .keyword .notWord => .stuck (.reserved t) ts
    | .keyword _ | .mark _ | .trivia _ => .stuck (.unexpected factorStart t) ts
termination_by ts => 3 * ts.length

def product (ts : List Token) : Reply Tree ts.length :=
  (factor ts).andMaybe fun left rest _ => productTail left rest
termination_by 3 * ts.length + 1

def productTail (left : Tree) : (ts : List Token) → Reply Tree (ts.length + 1)
  | [] => .done left [] (Nat.lt_succ_self _)
  | t :: ts =>
    match ArithOp.ofKindAt? 2 t.kind with
    | none => .done left (t :: ts) (Nat.lt_succ_self _)
    | some op =>
      Reply.later <| Reply.later <| (factor ts).andMaybe fun right rest _ =>
        productTail (.arith op left right false t.pos) rest
termination_by ts => 3 * ts.length

def sum (ts : List Token) : Reply Tree ts.length :=
  (product ts).andMaybe fun left rest _ => sumTail left rest
termination_by 3 * ts.length + 2

def sumTail (left : Tree) : (ts : List Token) → Reply Tree (ts.length + 1)
  | [] => .done left [] (Nat.lt_succ_self _)
  | t :: ts =>
    match ArithOp.ofKindAt? 1 t.kind with
    | none => .done left (t :: ts) (Nat.lt_succ_self _)
    | some op =>
      Reply.later <| Reply.later <| (product ts).andMaybe fun right rest _ =>
        sumTail (.arith op left right false t.pos) rest
termination_by ts => 3 * ts.length

end

def comparisonTail (left : Tree) : (ts : List Token) → Reply Tree (ts.length + 1)
  | [] => .done left [] (Nat.lt_succ_self _)
  | t :: ts =>
    match CompareOp.ofKind? t.kind with
    | none => .done left (t :: ts) (Nat.lt_succ_self _)
    | some op => Reply.later <| Reply.later <| (sum ts).map fun right =>
        .compare op left right t.pos

def comparison (ts : List Token) : Reply Tree ts.length :=
  (sum ts).andMaybe fun left rest _ => comparisonTail left rest

end Scriptlet.Grammar
