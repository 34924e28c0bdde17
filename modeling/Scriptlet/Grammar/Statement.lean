import Scriptlet.Grammar.Expression

/-!
The rules for statements and programs.

    program   := statement*
    statement := sum ";"                       where it starts with an integer, a name or "("
               | "let" identifier "=" value ";"
               | "repeat" sum block
               | "if" comparison block ("elif" comparison block)* ("else" block)?
    value     := sum | comparison "?" sum ":" sum
    block     := "{" statement* "}"
-/
namespace Scriptlet.Grammar

def choice (test : Tree) (p : Position) (ts : List Token) : Reply Tree ts.length :=
  (sum ts).andThen fun yes rest _ =>
    (expectMark .colon rest).andThen fun _ rest _ =>
      (sum rest).map fun no => .choose test yes no p

theorem length_cons_lt_succ (t : Token) (ts : List Token) :
    (t :: ts).length < (t :: ts).length + 1 :=
  Nat.lt_succ_self _

/-- What makes `value` the value of an assignment to `id` at `p`: a choice after it, or that
it is not a comparison. -/
def valueTail (id : String) (p : Position) (value : Tree) :
    (ts : List Token) → Reply Tree (ts.length + 1)
  | [] =>
    if value.isComparison then .stuck (.comparisonAssigned id p) []
    else .done value [] Nat.zero_lt_one
  | t :: ts =>
    if t.kind = .mark .question then (choice value t.pos ts).later.later
    else if value.isComparison then .stuck (.comparisonAssigned id p) (t :: ts)
    else .done value (t :: ts) (length_cons_lt_succ t ts)

def assignment (p : Position) (ts : List Token) : Reply Tree ts.length :=
  (expectName ts).andThen fun id rest _ =>
    (expectMark .equals rest).andThen fun _ rest _ =>
      ((comparison rest).andMaybe fun value rest _ => valueTail id p value rest).map fun value =>
        .assign id value p

mutual

def statement : (ts : List Token) → Reply Tree ts.length
  | [] => .stuck .noStatement []
  | t :: ts =>
    match t.kind with
    | .integer _ | .identifier _ | .mark .openParen =>
      (sum (t :: ts)).andThen fun e rest _ =>
        (expectMark .semicolon rest).map fun _ => e.asShown
    | .keyword .letWord =>
      Reply.later <| (assignment t.pos ts).andThen fun a rest _ =>
        (expectMark .semicolon rest).map fun _ => a
    | .keyword .repeatWord =>
      Reply.later <| (sum ts).andThen fun bound rest _ =>
        (block rest).map fun body => .loop bound body t.pos
    | .keyword .ifWord =>
      Reply.later <| (comparison ts).andThen fun test rest _ =>
        (block rest).andMaybe fun body rest _ =>
          (elifs rest).andMaybe fun others rest _ =>
            (otherwise rest).map fun last => .branch ⟨test, body, others, last, t.pos⟩
    | .keyword _ | .mark _ | .trivia _ => .stuck (.notStatement t) (t :: ts)
termination_by ts => 3 * ts.length + 1

def block (ts : List Token) : Reply (List Tree) ts.length :=
  (expectMark .openBrace ts).andThen fun _ rest _ => body rest
termination_by 3 * ts.length

def body : (ts : List Token) → Reply (List Tree) ts.length
  | [] => .stuck (.endOfInput [.mark .closeBrace]) []
  | t :: ts =>
    if t.kind = .mark .closeBrace then .done [] ts (Nat.lt_succ_self _)
    else (statement (t :: ts)).andThen fun s rest _ => (body rest).map fun more => s :: more
termination_by ts => 3 * ts.length + 2
decreasing_by
  all_goals
    try simp only [List.length_cons] at *
    omega

def elifs : (ts : List Token) → Reply (List Branch) (ts.length + 1)
  | [] => .done [] [] (Nat.lt_succ_self _)
  | t :: ts =>
    if t.kind = .keyword .elifWord then
      Reply.later <| Reply.later <| (comparison ts).andThen fun test rest _ =>
        (block rest).andMaybe fun body rest _ =>
          (elifs rest).map fun more => ⟨test, body, [], [], t.pos⟩ :: more
    else .done [] (t :: ts) (Nat.lt_succ_self _)
termination_by ts => 3 * ts.length

def otherwise : (ts : List Token) → Reply (List Tree) (ts.length + 1)
  | [] => .done [] [] (Nat.lt_succ_self _)
  | t :: ts =>
    if t.kind = .keyword .elseWord then (block ts).later.later
    else .done [] (t :: ts) (Nat.lt_succ_self _)
termination_by ts => 3 * ts.length

end

def statements : List Token → Except GrammarError (List Tree)
  | [] => .ok []
  | t :: ts =>
    match statement (t :: ts) with
    | .stuck e _ => .error e
    | .done s rest _ => (s :: ·) <$> statements rest
termination_by ts => ts.length
decreasing_by
  all_goals
    try simp only [List.length_cons] at *
    omega

def program (ts : List Token) : Except GrammarError Tree :=
  .program <$> statements ts

end Scriptlet.Grammar
