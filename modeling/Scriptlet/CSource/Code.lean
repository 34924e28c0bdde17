import Scriptlet.Operator

/-!
The C programs that scripts become, before they are laid out as text. As with trees, one type
holds values and statements.
-/
namespace Scriptlet.CSource

mutual

inductive Code
  /-- The function `main` with the headers before it and a clock around the body. -/
  | main (body : List Code)
  | number (n : Int64)
  | var (id : String)
  | arith (op : ArithOp) (left right : Code)
  | compare (op : CompareOp) (left right : Code)
  | choose (test yes no : Code)
  | printNumber (n : Int64)
  | print (value : Code)
  /-- An assignment, which declares the variable if this is its first. -/
  | set (declares : Bool) (id : String) (value : Code)
  | branch (chain : Chain)
  | loop (counter : String) (turns : Nat) (body : List Code)

inductive Chain
  | mk (test : Code) (body : List Code) (others : List Chain) (otherwise : List Code)

end

/-- Where a node of a script stands: as a statement of its own or inside another node. -/
inductive Place
  | statement
  | value
deriving DecidableEq, Repr

/-- The code of an expression: printed where it is a statement that is shown. -/
def Code.shownAt (place : Place) (shown : Bool) (code : Code) : Code :=
  if place = .statement && shown then
    match code with
    | .number n => .printNumber n
    | _ => .print code
  else code

end Scriptlet.CSource
