import Scriptlet.Position

/-!
Cutting a text into lexemes. The first character of a lexeme fixes its class, the class
says which characters may follow, and the lexeme runs as far as they do. Nothing is lost:
the lexemes of a text, put together again, are the text.

That a lexeme is the longest one that can start at its first character is an assumption about
the language, made by `cut` and proved nowhere: `letx` is one word and not a keyword with a
name after it, and `12ab` is a number and then a word.
-/
namespace Scriptlet

namespace Lexeme

def isDigit (c : Char) : Bool :=
  '0' ≤ c && c ≤ '9'

def isLetter (c : Char) : Bool :=
  ('a' ≤ c && c ≤ 'z') || ('A' ≤ c && c ≤ 'Z') || c == '_'

/-- The spaces that may stand within a line: space, tab, return, form feed, vertical tab. -/
def isSpace (c : Char) : Bool :=
  c == ' ' || c == '\t' || c == '\r' || c == '\x0c' || c == '\x0b'

inductive Class
  | newline
  | spaces
  | comment
  | digits
  | word
  | sign
deriving DecidableEq, Repr

namespace Class

def ofChar (c : Char) : Class :=
  if c = '\n' then newline
  else if isSpace c then spaces
  else if c = '#' then comment
  else if isDigit c then digits
  else if isLetter c then word
  else sign

def continues : Class → Char → Bool
  | newline, _ => false
  | spaces, c => isSpace c
  | comment, c => c != '\n'
  | digits, c => isDigit c
  | word, c => isLetter c || isDigit c
  | sign, _ => false

end Class

end Lexeme

/-- A lexeme is never empty. -/
structure Lexeme where
  first : Char
  rest : List Char
deriving DecidableEq, Repr

namespace Lexeme

def chars (l : Lexeme) : List Char :=
  l.first :: l.rest

def text (l : Lexeme) : String :=
  String.ofList l.chars

def toClass (l : Lexeme) : Class :=
  Class.ofChar l.first

def cut : List Char → List Lexeme
  | [] => []
  | c :: cs =>
    let more := (Class.ofChar c).continues
    ⟨c, cs.takeWhile more⟩ :: cut (cs.dropWhile more)
termination_by cs => cs.length
decreasing_by
  have := (List.dropWhile_suffix (l := cs) (Class.ofChar c).continues).length_le
  simp only [List.length_cons]
  omega

/-- Cutting loses no character. -/
theorem flatMap_chars_cut (cs : List Char) : (cut cs).flatMap chars = cs := by
  fun_induction cut cs with
  | case1 => rfl
  | case2 c cs more ih =>
    simp only [List.flatMap_cons, chars, List.cons_append, ih, List.takeWhile_append_dropWhile]

end Lexeme

end Scriptlet
