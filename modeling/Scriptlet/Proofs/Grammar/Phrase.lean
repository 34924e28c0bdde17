import Scriptlet.Tree.Basic

/-!
The grammar of scripts as a relation between tokens and trees.

    program   := statement*
    statement := sum ";"                       where it starts with an integer, a name or "("
               | "let" identifier "=" value ";"
               | "repeat" sum block
               | "if" comparison block ("elif" comparison block)* ("else" block)?
    value      := sum | comparison "?" sum ":" sum
    block      := "{" statement* "}"
    comparison := sum (("<" | ">") sum)?
    sum        := product | sum ("+" | "-") product
    product    := factor | product ("*" | "/") factor
    factor     := integer | identifier | "(" sum ")" | ("+" | "-") factor

Nothing here looks ahead or prefers one reading to another: a derivation is any way to
split the tokens, and its tree has the places of the tokens it was built from.
-/
namespace Scriptlet

def Mark.isOperator : Mark → Bool
  | plus | minus | star | slash | less | greater => true
  | _ => false

theorem ArithOp.isOperator_mark (op : ArithOp) : op.mark.isOperator = true := by
  cases op <;> rfl

theorem CompareOp.isOperator_mark (op : CompareOp) : op.mark.isOperator = true := by
  cases op <;> rfl

end Scriptlet

namespace Scriptlet.Grammar.Phrase

/-- What an expression that is a statement may start with. -/
def StartsShown : Token.Kind → Prop
  | .integer _ | .identifier _ | .mark .openParen => True
  | _ => False

mutual

inductive Factor : List Token → Tree → Prop
  | integer (n : Int64) (p : Position) : Factor [⟨.integer n, p⟩] (.literal n false p)
  | name (s : String) (p : Position) : Factor [⟨.identifier s, p⟩] (.name s false p)
  | parens {ts : List Token} {t : Tree} (p q : Position) (inner : Sum ts t) :
      Factor (⟨.mark .openParen, p⟩ :: (ts ++ [⟨.mark .closeParen, q⟩])) t
  | plus {ts : List Token} {t : Tree} (p : Position) (operand : Factor ts t) :
      Factor (⟨.mark .plus, p⟩ :: ts) t
  /-- A literal takes the sign itself and stays where it is. -/
  | minusLiteral {ts : List Token} {n m : Int64} {shown : Bool} {q : Position} (p : Position)
      (operand : Factor ts (.literal n shown q)) (opposite : m.toInt = -n.toInt) :
      Factor (⟨.mark .minus, p⟩ :: ts) (.literal m shown q)
  | minus {ts : List Token} {t : Tree} (p : Position) (operand : Factor ts t)
      (compound : ∀ n shown q, t ≠ .literal n shown q) :
      Factor (⟨.mark .minus, p⟩ :: ts) (.arith .mul (.literal (-1) false p) t false p)

inductive Product : List Token → Tree → Prop
  | factor {ts : List Token} {t : Tree} (only : Factor ts t) : Product ts t
  | step {ts us : List Token} {l r : Tree} {op : ArithOp} (p : Position)
      (left : Product ts l) (level : op = .mul ∨ op = .div) (right : Factor us r) :
      Product (ts ++ ⟨.mark op.mark, p⟩ :: us) (.arith op l r false p)

inductive Sum : List Token → Tree → Prop
  | product {ts : List Token} {t : Tree} (only : Product ts t) : Sum ts t
  | step {ts us : List Token} {l r : Tree} {op : ArithOp} (p : Position)
      (left : Sum ts l) (level : op = .add ∨ op = .sub) (right : Product us r) :
      Sum (ts ++ ⟨.mark op.mark, p⟩ :: us) (.arith op l r false p)

end

inductive Comparison : List Token → Tree → Prop
  | sum {ts : List Token} {t : Tree} (only : Sum ts t) : Comparison ts t
  | compare {ts us : List Token} {l r : Tree} (op : CompareOp) (p : Position)
      (left : Sum ts l) (right : Sum us r) :
      Comparison (ts ++ ⟨.mark op.mark, p⟩ :: us) (.compare op l r p)

inductive Value : List Token → Tree → Prop
  | sum {ts : List Token} {t : Tree} (only : Sum ts t) : Value ts t
  | choice {ts us vs : List Token} {c y n : Tree} (p q : Position)
      (test : Comparison ts c) (yes : Sum us y) (no : Sum vs n) :
      Value (ts ++ ⟨.mark .question, p⟩ :: (us ++ ⟨.mark .colon, q⟩ :: vs)) (.choose c y n p)

mutual

inductive Statement : List Token → Tree → Prop
  | shown {k : Token} {ts : List Token} {t : Tree} (q : Position)
      (expression : Sum (k :: ts) t) (start : StartsShown k.kind) :
      Statement (k :: (ts ++ [⟨.mark .semicolon, q⟩])) t.asShown
  | assign {ts : List Token} {v : Tree} (id : String) (p q r s : Position)
      (value : Value ts v) :
      Statement (⟨.keyword .letWord, p⟩ :: ⟨.identifier id, q⟩ :: ⟨.mark .equals, r⟩ ::
        (ts ++ [⟨.mark .semicolon, s⟩])) (.assign id v p)
  | loop {ts us : List Token} {b : Tree} {body : List Tree} (p : Position)
      (bound : Sum ts b) (block : Block us body) :
      Statement (⟨.keyword .repeatWord, p⟩ :: (ts ++ us)) (.loop b body p)
  | branch {ts us vs ws : List Token} {c : Tree} {body last : List Tree}
      {others : List Branch} (p : Position) (test : Comparison ts c) (block : Block us body)
      (elifs : Elifs vs others) (otherwise : Otherwise ws last) :
      Statement (⟨.keyword .ifWord, p⟩ :: (ts ++ (us ++ (vs ++ ws))))
        (.branch ⟨c, body, others, last, p⟩)

inductive Statements : List Token → List Tree → Prop
  | nil : Statements [] []
  | cons {ts us : List Token} {t : Tree} {more : List Tree}
      (head : Statement ts t) (tail : Statements us more) :
      Statements (ts ++ us) (t :: more)

inductive Block : List Token → List Tree → Prop
  | braces {ts : List Token} {body : List Tree} (p q : Position)
      (inner : Statements ts body) :
      Block (⟨.mark .openBrace, p⟩ :: (ts ++ [⟨.mark .closeBrace, q⟩])) body

/-- The branches after the first. None of them has branches of its own. -/
inductive Elifs : List Token → List Branch → Prop
  | nil : Elifs [] []
  | cons {ts us vs : List Token} {c : Tree} {body : List Tree} {others : List Branch}
      (p : Position) (test : Comparison ts c) (block : Block us body)
      (tail : Elifs vs others) :
      Elifs (⟨.keyword .elifWord, p⟩ :: (ts ++ (us ++ vs))) (⟨c, body, [], [], p⟩ :: others)

inductive Otherwise : List Token → List Tree → Prop
  | absent : Otherwise [] []
  | block {ts : List Token} {body : List Tree} (p : Position) (block : Block ts body) :
      Otherwise (⟨.keyword .elseWord, p⟩ :: ts) body

end

inductive Program : List Token → Tree → Prop
  | statements {ts : List Token} {body : List Tree} (all : Statements ts body) :
      Program ts (.program body)

end Scriptlet.Grammar.Phrase
