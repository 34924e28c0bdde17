import Scriptlet.Token.Basic
import Scriptlet.Token.Lexeme
import Scriptlet.Number.Integer

/-!
From text to tokens. Each lexeme yields a token, yields nothing, or is refused; the place of
a token is the place after the text before it. The first refused lexeme is the answer for
the whole text.

Two more assumptions about the language are made here. A word that spells a keyword, letter
for letter, is that keyword and never a name; any other word is a name, whatever keyword it
begins with (`wordKind`). And the error for a refused lexeme carries the text of that lexeme
alone: a stray character by itself, or all digits of a literal with its leading zeros
(`kind?`).
-/
namespace Scriptlet

inductive ScanError
  | strayCharacter (c : Char) (pos : Position)
  | literalTooLarge (digits : String) (pos : Position)
deriving DecidableEq, Repr

namespace ScanError

def pos : ScanError → Position
  | strayCharacter _ p => p
  | literalTooLarge _ p => p

def message : ScanError → String
  | strayCharacter c p => "'" ++ c.toString ++ "' not accepted (" ++ p.text ++ ")"
  | literalTooLarge digits p =>
    "Integer literal " ++ digits ++ " is too large (" ++ p.text ++ ")"

end ScanError

namespace Lexeme

def wordKind (s : String) : Token.Kind :=
  match Keyword.ofText? s with
  | some k => .keyword k
  | none => .identifier s

/-- The kind of token a lexeme at `p` stands for, nothing where it only separates. -/
def kind? (l : Lexeme) (p : Position) : Except ScanError (Option Token.Kind) :=
  match l.toClass with
  | .newline | .spaces | .comment => .ok none
  | .digits =>
    match Integer.ofInt? (Integer.ofDigits l.chars) with
    | some n => .ok (some (.integer n))
    | none => .error (.literalTooLarge l.text p)
  | .word => .ok (some (wordKind l.text))
  | .sign =>
    match Mark.ofChar? l.first with
    | some m => .ok (some (.mark m))
    | none => .error (.strayCharacter l.first p)

def tokens (p : Position) : List Lexeme → Except ScanError (List Token)
  | [] => .ok []
  | l :: ls => do
    let kind ← l.kind? p
    let rest ← tokens (p.after l.chars) ls
    match kind with
    | none => return rest
    | some k => return ⟨k, p⟩ :: rest

end Lexeme

def Token.scan (source : String) : Except ScanError (List Token) :=
  Lexeme.tokens .start (Lexeme.cut source.toList)

end Scriptlet
