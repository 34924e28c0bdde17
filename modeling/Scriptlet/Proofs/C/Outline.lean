import Scriptlet.Proofs.C.Syntax

/-!
What stands in the statements of a C text, in the order of the text: where variables are used
and set, where blocks open and close, and the heads of counted loops. The reading goes by the
tokens alone and asks nothing of the names, so it also reads texts that C would refuse.
-/
namespace Scriptlet.C

inductive Event
  | opens
  | closes
  /-- The head of a counted loop. The uses of its counter there are not listed apart. -/
  | loops (counter : String) (turns : Nat)
  | uses (id : String)
  /-- The end of a statement that sets a variable, and whether it declares it too. -/
  | sets (declares : Bool) (id : String)
deriving DecidableEq, Repr

namespace Event

def block (es : List Event) : List Event :=
  .opens :: (es ++ [.closes])

def depth : Event → Int
  | opens => 1
  | closes => -1
  | _ => 0

def turns? : Event → Option Nat
  | loops _ n => some n
  | _ => none

def counter? : Event → Option String
  | loops counter _ => some counter
  | _ => none

def target? : Event → Option String
  | sets _ id => some id
  | _ => none

def needs? : Event → Option String
  | uses id => some id
  | sets false id => some id
  | _ => none

end Event

inductive Inside
  | statement
  | loopHead
  | setting (declares : Bool) (id : String)

def Inside.ended : Inside → List Event
  | setting declares id => [.sets declares id]
  | _ => []

def loopEvent? (ts : List Token) : Option Event :=
  match ts[2]?, ts[8]? with
  | some (Token.word counter), some (Token.number turns) => some (.loops counter turns)
  | _, _ => none

/-- Reads tokens one by one. A word is a variable unless a word, a parenthesis or a brace
follows: then it is a type, a keyword or a function. A variable with a type before it is
declared. -/
def events : Inside → (typed : Bool) → List Token → List Event
  | _, _, [] => []
  | .loopHead, _, t :: ts => events (if t = .mark ')' then .statement else .loopHead) false ts
  | inside, typed, .word w :: ts =>
    match ts.head? with
    | some (.word _) => events inside true ts
    | some (.mark '(') =>
      if w = "for" then (loopEvent? ts).toList ++ events .loopHead false ts
      else events inside false ts
    | some (.mark '\x7b') => events inside false ts
    | some (.mark '=') => events (.setting typed w) false ts
    | _ => .uses w :: events inside false ts
  | inside, _, .mark c :: ts =>
    if c = '\x7b' then .opens :: events .statement false ts
    else if c = '\x7d' then .closes :: events .statement false ts
    else if c = ';' then inside.ended ++ events .statement false ts
    else events inside false ts
  | inside, _, _ :: ts => events inside false ts

/-- The events between the fixed start and end of a program. -/
def outline (text : String) : Option (List Event) :=
  (Token.scan text.toList).bind fun ts =>
    let body := (ts.drop opening.length).take (ts.length - opening.length - closing.length)
    if ts = opening ++ body ++ closing then some (events .statement false body) else none

/-- Only what stands between the fixed start and end of a program is read. -/
theorem outline_eq {text : String} {body : List Token}
    (h : Token.scan text.toList = some (opening ++ body ++ closing)) :
    outline text = some (events .statement false body) := by
  have hbody : ((opening ++ body ++ closing).drop opening.length).take
      ((opening ++ body ++ closing).length - opening.length - closing.length) = body := by
    rw [List.append_assoc, List.drop_left]
    have hlength : (opening ++ (body ++ closing)).length - opening.length - closing.length =
        body.length := by
      simp only [List.length_append]
      omega
    rw [hlength, List.take_left]
  rw [outline, h, Option.bind_some]
  simp only [hbody, if_true]

def isSeparator (c : Char) : Bool :=
  [')', ';', ',', '?', ':', '<', '>', '+', '-', '*', '/'].contains c

attribute [local simp] events

section Tokens

variable {inside : Inside} (h : inside ≠ .loopHead) (typed : Bool) (ts : List Token)
include h

theorem events_variable (w : String) {c : Char} (hc : isSeparator c = true) :
    events inside typed (.word w :: .mark c :: ts) =
      .uses w :: events inside false (.mark c :: ts) := by
  have hmem : c ∈ [')', ';', ',', '?', ':', '<', '>', '+', '-', '*', '/'] := by
    simpa [isSeparator] using hc
  cases inside with
  | loopHead => exact absurd rfl h
  | _ =>
    simp only [events, List.head?_cons]
    split <;> simp_all

theorem events_mark {c : Char} (hc : c ∉ ['\x7b', '\x7d', ';']) :
    events inside typed (.mark c :: ts) = events inside false ts := by
  simp only [List.mem_cons, List.not_mem_nil, or_false, not_or] at hc
  cases inside with
  | loopHead => exact absurd rfl h
  | _ => simp [hc]

theorem events_semicolon :
    events inside typed (.mark ';' :: ts) = inside.ended ++ events .statement false ts := by
  cases inside with
  | loopHead => exact absurd rfl h
  | _ => simp

theorem events_number (n : Nat) :
    events inside typed (.number n :: ts) = events inside false ts := by
  cases inside with
  | loopHead => exact absurd rfl h
  | _ => simp

end Tokens

section Words

variable (typed : Bool) (ts : List Token) (w : String)

theorem events_opens : events .statement typed (.mark '\x7b' :: ts) =
    .opens :: events .statement false ts := by
  simp

theorem events_closes : events .statement typed (.mark '\x7d' :: ts) =
    .closes :: events .statement false ts := by
  simp

theorem events_text (s : String) : events .statement typed (.text s :: ts) =
    events .statement false ts := by
  simp

theorem events_type (v : String) : events .statement typed (.word w :: .word v :: ts) =
    events .statement true (.word v :: ts) := by
  simp

theorem events_call (hw : w ≠ "for") : events .statement typed (.word w :: .mark '(' :: ts) =
    events .statement false ts := by
  simp [hw]

theorem events_else : events .statement typed (.word w :: .mark '\x7b' :: ts) =
    .opens :: events .statement false ts := by
  simp

theorem events_set : events .statement typed (.word w :: .mark '=' :: ts) =
    events (.setting typed w) false ts := by
  simp

theorem events_for (counter : String) (turns : Nat) :
    events .statement typed ([.word "for", .mark '(', .word "int", .word counter, .mark '=',
      .number 0, .mark ';', .word counter, .mark '<', .number turns, .mark ';', .word counter,
      .pair '+' '+', .mark ')'] ++ ts) = .loops counter turns :: events .statement false ts := by
  simp [loopEvent?]

end Words

end Scriptlet.C
