import Scriptlet.CSource.Code

/-!
The text of C code. Every statement starts on a line of its own, indented by one step for
each block around it, and a closing brace is indented like the line that opened it.
Parentheses stand around an operand only where it would be grouped otherwise.
-/
namespace Scriptlet.CSource

def pad (n : Nat) : String :=
  String.ofList (List.replicate n ' ')

/-- Whether an operand of `parent` needs parentheses: it binds less tightly, or as tightly
and stands on the right. -/
def Code.needsParens (parent : ArithOp) (onRight : Bool) : Code → Bool
  | .arith op _ _ =>
    op.precedence < parent.precedence || (onRight && op.precedence == parent.precedence)
  | _ => false

def parenthesized (needed : Bool) (s : String) : String :=
  if needed then "(" ++ s ++ ")" else s

def opening (inner : String) : String :=
  "#include <stdio.h>\n#include <time.h>\n\nint main() \x7b\n" ++
    inner ++ "clock_t start_time = clock();\n"

def closing (inner : String) : String :=
  inner ++ "double elapsed_time = (double)(clock() - start_time) / CLOCKS_PER_SEC;\n" ++
    inner ++ "printf(\"Executed in %f seconds.\\n\", elapsed_time);\n" ++
    inner ++ "return 0;\n"

def countedFor (counter : String) (turns : Nat) : String :=
  "for (int " ++ counter ++ " = 0; " ++ counter ++ " < " ++ turns.repr ++ "; " ++ counter ++ "++)"

mutual

/-- The text of code whose line is indented by `indent`. Code inside another expression has
no line of its own, and nothing before it. -/
def Code.text (step : Nat) : Code → (indent : Nat) → String
  | .main body, indent =>
    opening (pad (indent + step)) ++ Code.lines step body (indent + step) ++
      closing (pad (indent + step)) ++ pad indent ++ "\x7d"
  | .number n, _ => n.toInt.repr
  | .var id, _ => id
  | .arith op left right, _ =>
    parenthesized (left.needsParens op false) (left.text step 0) ++ " " ++ op.symbol ++ " " ++
      parenthesized (right.needsParens op true) (right.text step 0)
  | .compare op left right, _ =>
    left.text step 0 ++ " " ++ op.symbol ++ " " ++ right.text step 0
  | .choose test yes no, _ =>
    test.text step 0 ++ " ? " ++ yes.text step 0 ++ " : " ++ no.text step 0
  | .printNumber n, indent => pad indent ++ "printf(\"" ++ n.toInt.repr ++ "\\n\");"
  | .print value, indent => pad indent ++ "printf(\"%i\\n\", " ++ value.text step 0 ++ ");"
  | .set declares id value, indent =>
    pad indent ++ (if declares then "int " else "") ++ id ++ " = " ++ value.text step 0 ++ ";"
  | .branch chain, indent => pad indent ++ chain.text step indent
  | .loop counter turns body, indent =>
    pad indent ++ countedFor counter turns ++ " \x7b" ++ Code.block step body (indent + step) ++
      "\n" ++ pad indent ++ "\x7d"

def Code.lines (step : Nat) : List Code → (indent : Nat) → String
  | [], _ => ""
  | c :: cs, indent => c.text step indent ++ "\n" ++ Code.lines step cs indent

def Code.block (step : Nat) : List Code → (indent : Nat) → String
  | [], _ => ""
  | c :: cs, indent => "\n" ++ c.text step indent ++ Code.block step cs indent

/-- A chain of branches without the indentation of its first line. A last block without
statements is not written. -/
def Chain.text (step : Nat) : Chain → (indent : Nat) → String
  | .mk test body others otherwise, indent =>
    let close := "\n" ++ pad indent ++ "\x7d"
    "if (" ++ test.text step 0 ++ ") \x7b" ++ Code.block step body (indent + step) ++ close ++
      Chain.elses step others indent ++
      (if otherwise.isEmpty then ""
       else "\n" ++ pad indent ++ "else \x7b" ++ Code.block step otherwise (indent + step) ++ close)

def Chain.elses (step : Nat) : List Chain → (indent : Nat) → String
  | [], _ => ""
  | c :: cs, indent =>
    "\n" ++ pad indent ++ "else " ++ c.text step indent ++ Chain.elses step cs indent

end

end Scriptlet.CSource
