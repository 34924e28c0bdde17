import Scriptlet.Position

/-!
The words of the language. A token is a kind at a place. Kinds with a payload are integers
and identifiers; keywords, marks and the three sorts of trivia are spelled in one way only.
Forgetting the payload gives the class of a token, which is what a grammar rule asks for
and what an error message names.
-/
namespace Scriptlet

inductive Keyword
  | letWord
  | ifWord
  | elifWord
  | elseWord
  | andWord
  | orWord
  | notWord
  | repeatWord
deriving DecidableEq, Repr

namespace Keyword

def text : Keyword → String
  | letWord => "let"
  | ifWord => "if"
  | elifWord => "elif"
  | elseWord => "else"
  | andWord => "and"
  | orWord => "or"
  | notWord => "not"
  | repeatWord => "repeat"

def all : List Keyword :=
  [letWord, ifWord, elifWord, elseWord, andWord, orWord, notWord, repeatWord]

def ofText? (s : String) : Option Keyword :=
  all.find? fun k => k.text == s

theorem ofText?_text (k : Keyword) : ofText? k.text = some k := by
  cases k <;> decide

end Keyword

inductive Mark
  | openBrace
  | closeBrace
  | openParen
  | closeParen
  | less
  | greater
  | equals
  | plus
  | minus
  | star
  | slash
  | semicolon
  | colon
  | question
deriving DecidableEq, Repr

namespace Mark

def char : Mark → Char
  | openBrace => '{'
  | closeBrace => '}'
  | openParen => '('
  | closeParen => ')'
  | less => '<'
  | greater => '>'
  | equals => '='
  | plus => '+'
  | minus => '-'
  | star => '*'
  | slash => '/'
  | semicolon => ';'
  | colon => ':'
  | question => '?'

def text (m : Mark) : String :=
  String.singleton m.char

def all : List Mark :=
  [openBrace, closeBrace, openParen, closeParen, less, greater, equals, plus, minus, star,
   slash, semicolon, colon, question]

def ofChar? (c : Char) : Option Mark :=
  all.find? fun m => m.char == c

theorem ofChar?_char (m : Mark) : ofChar? m.char = some m := by
  cases m <;> decide

end Mark

/-- What separates words and carries no meaning. Scanning drops it, but a token list made
by hand may hold it. -/
inductive Trivia
  | comment
  | newline
  | whitespace
deriving DecidableEq, Repr

namespace Trivia

def text : Trivia → String
  | comment => "comment"
  | newline => "newline"
  | whitespace => "whitespace"

def all : List Trivia := [comment, newline, whitespace]

end Trivia

namespace Token

inductive Class
  | integer
  | identifier
  | keyword (k : Keyword)
  | mark (m : Mark)
  | trivia (t : Trivia)
deriving DecidableEq, Repr

def Class.name : Class → String
  | integer => "integer"
  | identifier => "identifier"
  | keyword k => k.text
  | mark m => m.text
  | trivia t => t.text

def Class.all : List Class :=
  [integer, identifier] ++ Keyword.all.map keyword ++ Mark.all.map mark ++ Trivia.all.map trivia

def Class.ofName? (s : String) : Option Class :=
  all.find? fun c => c.name == s

inductive Kind
  | integer (value : Int64)
  | identifier (name : String)
  | keyword (k : Keyword)
  | mark (m : Mark)
  | trivia (t : Trivia)
deriving DecidableEq, Repr

namespace Kind

def toClass : Kind → Class
  | integer _ => .integer
  | identifier _ => .identifier
  | keyword k => .keyword k
  | mark m => .mark m
  | trivia t => .trivia t

/-- How the token itself is shown: an integer by its value, an identifier by its name. -/
def text : Kind → String
  | integer n => n.toInt.repr
  | identifier s => s
  | keyword k => k.text
  | mark m => m.text
  | trivia t => t.text

def isKeyword : Kind → Bool
  | keyword _ => true
  | _ => false

end Kind

end Token

structure Token where
  kind : Token.Kind
  pos : Position
deriving DecidableEq, Repr

end Scriptlet
