import Scriptlet.Operator
import Scriptlet.Proofs.C.Token

/-!
The part of C that scripts are translated to, and how it is read from tokens. Statements are
declarations of integers, assignments, calls of `printf`, branches and counted loops; a
program is one function around them that measures the time. Expressions are read by
precedence: a choice binds loosest, then comparisons, sums and products, each grouping to
the left, then signs.
-/
namespace Scriptlet.C

inductive Expr
  | number (n : Nat)
  | var (id : String)
  | neg (e : Expr)
  | arith (op : ArithOp) (left right : Expr)
  | compare (op : CompareOp) (left right : Expr)
  | choose (test yes no : Expr)

/-- Statements. A counted loop is read as the block that declares its counter and then runs
the loop with the step after the body. -/
inductive Stmt
  | skip
  | seq (first rest : Stmt)
  | declare (id : String) (value : Expr)
  | assign (id : String) (value : Expr)
  | print (format : String) (args : List Expr)
  | branch (test : Expr) (yes no : Stmt)
  | whileLoop (test : Expr) (body : Stmt)
  | block (body : Stmt)

def keywords : List String :=
  ["auto", "break", "case", "char", "const", "continue", "default", "do", "double", "else",
   "enum", "extern", "float", "for", "goto", "if", "inline", "int", "long", "register",
   "restrict", "return", "short", "signed", "sizeof", "static", "struct", "switch", "typedef",
   "union", "unsigned", "void", "volatile", "while", "_Alignas", "_Alignof", "_Atomic", "_Bool",
   "_Complex", "_Generic", "_Imaginary", "_Noreturn", "_Static_assert", "_Thread_local"]

def frameNames : List String :=
  ["main", "printf", "clock", "clock_t", "start_time", "elapsed_time", "CLOCKS_PER_SEC"]

def isFree (s : String) : Bool :=
  !keywords.contains s && !frameNames.contains s

/-- The operators of a level, from comparisons to products, as they build an expression. -/
def operator? : (level : Nat) → Token → Option (Expr → Expr → Expr)
  | 0, .mark '<' => some (.compare .less)
  | 0, .mark '>' => some (.compare .greater)
  | 1, .mark '+' => some (.arith .add)
  | 1, .mark '-' => some (.arith .sub)
  | 2, .mark '*' => some (.arith .mul)
  | 2, .mark '/' => some (.arith .div)
  | _, _ => none

def andThen {α β : Type} (ts : List Token) (r : Option (α × List Token))
    (next : α → (rest : List Token) → rest.length < ts.length → Option β) : Option β :=
  match r with
  | some (a, rest) => if h : rest.length < ts.length then next a rest h else none
  | none => none

def expect (t : Token) : List Token → Option (List Token)
  | [] => none
  | k :: ts => if k = t then some ts else none

mutual

def expression (ts : List Token) : Option (Expr × List Token) :=
  andThen ts (operand 0 ts) fun test rest _ =>
    if rest.head? = some (.mark '?') then
      andThen rest.tail (expression rest.tail) fun yes rest' _ =>
        if rest'.head? = some (.mark ':') then
          (expression rest'.tail).map fun (no, rest'') => (.choose test yes no, rest'')
        else none
    else some (test, rest)
termination_by 8 * ts.length + 5
decreasing_by
  · omega
  all_goals
    simp only [List.length_tail] at *
    omega

/-- An operand of the level: operations of this level on operands of the next, or past the
last level a factor. -/
def operand (level : Nat) (ts : List Token) : Option (Expr × List Token) :=
  if level < 3 then
    andThen ts (operand (level + 1) ts) fun e rest _ => operations level e rest
  else factor ts
termination_by 8 * ts.length + (3 - level) + 1

def operations (level : Nat) (left : Expr) : List Token → Option (Expr × List Token)
  | [] => some (left, [])
  | t :: ts =>
    match operator? level t with
    | none => some (left, t :: ts)
    | some op =>
      andThen ts (operand (level + 1) ts) fun right rest _ => operations level (op left right) rest
termination_by ts => 8 * ts.length

def factor : List Token → Option (Expr × List Token)
  | .number n :: ts => some (.number n, ts)
  | .word s :: ts => if isFree s then some (.var s, ts) else none
  | .mark c :: ts =>
    if c = '-' then (factor ts).map fun (e, rest) => (.neg e, rest)
    else if c = '(' then
      (expression ts).bind fun (e, rest) => (expect (.mark ')') rest).map fun rest => (e, rest)
    else none
  | _ => none
termination_by ts => 8 * ts.length

end

def identifier? : List Token → Option (String × List Token)
  | .word s :: ts => if isFree s then some (s, ts) else none
  | _ => none

def assignment (ts : List Token) : Option ((String × Expr) × List Token) := do
  let (id, ts) ← identifier? ts
  let ts ← expect (.mark '=') ts
  let (value, ts) ← expression ts
  return ((id, value), ts)

def printed (ts : List Token) : Option (Stmt × List Token) := do
  let ts ← expect (.mark '(') ts
  let .text format :: ts := ts | none
  match expect (.mark ',') ts with
  | none =>
    let ts ← expect (.mark ')') ts
    return (.print format [], ts)
  | some ts =>
    let (value, ts) ← expression ts
    let ts ← expect (.mark ')') ts
    return (.print format [value], ts)

def condition (ts : List Token) : Option (Expr × List Token) := do
  let ts ← expect (.mark '(') ts
  let (test, ts) ← expression ts
  let ts ← expect (.mark ')') ts
  return (test, ts)

/-- The loop with a body, by the three parts of its head: the counter with its first value,
the test, and the variable that is stepped. -/
def counted (head : (String × Expr) × Expr × String) (body : Stmt) : Stmt :=
  .block (.seq (.declare head.1.1 head.1.2)
    (.whileLoop head.2.1
      (.seq body (.assign head.2.2 (.arith .add (.var head.2.2) (.number 1))))))

def loopHead (ts : List Token) : Option (((String × Expr) × Expr × String) × List Token) := do
  let ts ← expect (.mark '(') ts
  let ts ← expect (.word "int") ts
  let (start, ts) ← assignment ts
  let ts ← expect (.mark ';') ts
  let (test, ts) ← expression ts
  let ts ← expect (.mark ';') ts
  let (id, ts) ← identifier? ts
  let ts ← expect (.pair '+' '+') ts
  let ts ← expect (.mark ')') ts
  return ((start, test, id), ts)

def simple (w : String) (ts : List Token) : Option (Stmt × List Token) :=
  if w = "int" then (assignment ts).map fun ((id, value), rest) => (.declare id value, rest)
  else if w = "printf" then printed ts
  else (assignment (.word w :: ts)).map fun ((id, value), rest) => (.assign id value, rest)

def startsStatement : Token → Bool
  | .word w => isFree w || ["int", "printf", "if", "for"].contains w
  | _ => false

mutual

def items : List Token → Option (Stmt × List Token)
  | [] => some (.skip, [])
  | t :: ts =>
    if startsStatement t then
      andThen (t :: ts) (statement (t :: ts)) fun s rest _ =>
        (items rest).map fun (more, rest') => (.seq s more, rest')
    else some (.skip, t :: ts)
termination_by ts => 2 * ts.length + 1
decreasing_by
  all_goals omega

def statement : List Token → Option (Stmt × List Token)
  | .word w :: ts =>
    if w = "if" then
      andThen ts (condition ts) fun test rest _ =>
        andThen rest (block rest) fun yes rest' _ =>
          (otherwise rest').map fun (no, rest'') => (.branch test yes no, rest'')
    else if w = "for" then
      andThen ts (loopHead ts) fun head rest _ =>
        (block rest).map fun (body, rest') => (counted head body, rest')
    else
      (simple w ts).bind fun (s, rest) => (expect (.mark ';') rest).map fun rest => (s, rest)
  | _ => none
termination_by ts => 2 * ts.length

def otherwise (ts : List Token) : Option (Stmt × List Token) :=
  if ts.head? = some (.word "else") then
    if ts.tail.head? = some (.word "if") then statement ts.tail else block ts.tail
  else some (.skip, ts)
termination_by 2 * ts.length
decreasing_by
  all_goals
    cases ts
    · contradiction
    · simp

def block (ts : List Token) : Option (Stmt × List Token) :=
  if ts.head? = some (.mark '\x7b') then
    (items ts.tail).bind fun (body, rest) =>
      (expect (.mark '\x7d') rest).map fun rest => (.block body, rest)
  else none
termination_by 2 * ts.length
decreasing_by
  cases ts
  · contradiction
  · simp
    omega

end

def opening : List Token :=
  [.directive "include <stdio.h>", .directive "include <time.h>",
   .word "int", .word "main", .mark '(', .mark ')', .mark '\x7b',
   .word "clock_t", .word "start_time", .mark '=', .word "clock", .mark '(', .mark ')', .mark ';']

def closing : List Token :=
  [.word "double", .word "elapsed_time", .mark '=', .mark '(', .word "double", .mark ')',
   .mark '(', .word "clock", .mark '(', .mark ')', .mark '-', .word "start_time", .mark ')',
   .mark '/', .word "CLOCKS_PER_SEC", .mark ';',
   .word "printf", .mark '(', .text "Executed in %f seconds.\n", .mark ',', .word "elapsed_time",
   .mark ')', .mark ';', .word "return", .number 0, .mark ';', .mark '\x7d']

/-- The statements that a program times. -/
def parse (text : String) : Option Stmt := do
  let ts ← Token.scan text.toList
  if opening <+: ts then
    let (body, rest) ← items (ts.drop opening.length)
    if rest = closing then return body else none
  else none

end Scriptlet.C
