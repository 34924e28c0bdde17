import Scriptlet.Token.Basic
import Scriptlet.Text.Quoted

/-!
What a grammar rule answers: a value with the tokens left over, or the reason it is stuck.
The bound in the type says how many tokens may be left after a success. It makes every
rule's progress visible where rules call each other, so that recursion over the
remaining tokens ends.
-/
namespace Scriptlet

inductive GrammarError
  | unexpected (expected : List Token.Class) (found : Token)
  | endOfInput (expected : List Token.Class)
  /-- The tokens end where a statement is asked for. -/
  | noStatement
  | notStatement (found : Token)
  | comparisonAssigned (id : String) (pos : Position)
  /-- A keyword stands where only an identifier or a value can. -/
  | reserved (found : Token)
deriving DecidableEq, Repr

namespace GrammarError

def pos? : GrammarError → Option Position
  | unexpected _ t => some t.pos
  | endOfInput _ => none
  | noStatement => none
  | notStatement t => some t.pos
  | comparisonAssigned _ p => some p
  | reserved t => some t.pos

def alternatives (expected : List Token.Class) : String :=
  Text.alternatives "or" (expected.map Token.Class.name)

def message : GrammarError → String
  | unexpected expected t =>
    "Expected " ++ alternatives expected ++ ", got " ++ Text.quoted t.kind.text ++
      " (" ++ t.pos.text ++ ")"
  | endOfInput expected => "Expected " ++ alternatives expected ++ ", reached end of file"
  | noStatement => "Expected " ++ Text.quoted "statement" ++ ", reached end of file"
  | notStatement t =>
    "Statement must be an assignment, a conditional or an expression, got " ++
      Text.quoted t.kind.text ++ " (" ++ t.pos.text ++ ")"
  | comparisonAssigned id p =>
    "Can't assign a comparison to " ++ Text.quoted id ++ " (" ++ p.text ++ ")"
  | reserved t => "Identifier " ++ Text.quoted t.kind.text ++ " is reserved (" ++ t.pos.text ++ ")"

end GrammarError

namespace Grammar

/-- After a success fewer than `limit` tokens are left. A rule that is stuck leaves the
tokens it has not taken; the one it refused is taken, unless it was only looked at. -/
inductive Reply (α : Type) (limit : Nat)
  | done (value : α) (rest : List Token) (shorter : rest.length < limit)
  | stuck (error : GrammarError) (rest : List Token)

namespace Reply

variable {α β : Type} {n : Nat}

def rest : Reply α n → List Token
  | done _ rest _ => rest
  | stuck _ rest => rest

def toExcept : Reply α n → Except GrammarError α
  | done a _ _ => .ok a
  | stuck e _ => .error e

def map (f : α → β) : Reply α n → Reply β n
  | done a rest h => done (f a) rest h
  | stuck e rest => stuck e rest

/-- The same reply, seen by a rule that took one more token before. -/
def later : Reply α n → Reply α (n + 1)
  | done a rest h => done a rest (Nat.lt_succ_of_lt h)
  | stuck e rest => stuck e rest

/-- Goes on with the tokens left over, by a rule that takes at least one of them. -/
def andThen (r : Reply α n)
    (f : α → (rest : List Token) → rest.length < n → Reply β rest.length) : Reply β n :=
  match r with
  | done a rest h =>
    match f a rest h with
    | done b rest' h' => done b rest' (Nat.lt_trans h' h)
    | stuck e rest' => stuck e rest'
  | stuck e rest => stuck e rest

/-- Goes on with the tokens left over, by a rule that may take none of them. -/
def andMaybe (r : Reply α n)
    (f : α → (rest : List Token) → rest.length < n → Reply β (rest.length + 1)) : Reply β n :=
  match r with
  | done a rest h =>
    match f a rest h with
    | done b rest' h' => done b rest' (Nat.lt_of_lt_of_le h' h)
    | stuck e rest' => stuck e rest'
  | stuck e rest => stuck e rest

end Reply

def expect (c : Token.Class) : (ts : List Token) → Reply Token ts.length
  | [] => .stuck (.endOfInput [c]) []
  | t :: ts =>
    if t.kind.toClass = c then .done t ts (Nat.lt_succ_self _)
    else .stuck (.unexpected [c] t) ts

def expectMark (m : Mark) (ts : List Token) : Reply Token ts.length :=
  expect (.mark m) ts

/-- Takes the name of a variable, which no keyword can be. -/
def expectName : (ts : List Token) → Reply String ts.length
  | [] => .stuck (.endOfInput [.identifier]) []
  | t :: ts =>
    match t.kind with
    | .identifier s => .done s ts (Nat.lt_succ_self _)
    | .keyword _ => .stuck (.reserved t) ts
    | _ => .stuck (.unexpected [.identifier] t) ts

end Grammar

end Scriptlet
