import Scriptlet.Proofs.Token.Layout
import Scriptlet.Proofs.Tree.Moved

/-!
Texts joined by a newline. No lexeme goes on over a newline, so the lexemes of the joined text
are those of the first, the newline, and those of the second. The second text then starts
at the beginning of a line further down, and scanning it there shifts the lines of its tokens
and of its error.
-/
namespace Scriptlet

def Position.down (n : Nat) (p : Position) : Position :=
  ⟨p.line + n, p.column⟩

theorem Position.down_after (n : Nat) (p : Position) (cs : List Char) :
    (p.down n).after cs = (p.after cs).down n := by
  induction cs generalizing p with
  | nil => rfl
  | cons c cs ih =>
    have hnext : (p.down n).next c = (p.next c).down n := by
      unfold next down
      by_cases hc : c = '\n'
      · simp only [if_pos hc, Position.mk.injEq, and_true]
        omega
      · simp only [if_neg hc]
    rw [after_cons, after_cons, hnext, ih]

namespace Lexeme

theorem Class.continues_newline (sort : Class) : sort.continues '\n' = false := by
  cases sort <;> decide

theorem EndsBefore.append_newline {l : Lexeme} {cs : List Char} (h : l.EndsBefore cs)
    (ds : List Char) : l.EndsBefore (cs ++ '\n' :: ds) := by
  intro c hc
  cases cs with
  | nil =>
    obtain rfl : '\n' = c := by simpa using hc
    exact l.toClass.continues_newline
  | cons d cs => exact h c hc

/-- No lexeme goes over the end of a line, so texts are cut line by line. -/
theorem cut_append_newline (cs ds : List Char) :
    cut (cs ++ '\n' :: ds) = cut cs ++ ⟨'\n', []⟩ :: cut ds := by
  generalize hcut : cut cs = ls
  induction ls generalizing cs with
  | nil =>
    have hnil := flatMap_chars_cut cs
    rw [hcut, List.flatMap_nil] at hnil
    subst hnil
    have hl : WellFormed ⟨'\n', []⟩ := by simp [WellFormed]
    exact cut_append hl fun _ _ => rfl
  | cons l ls ih =>
    obtain ⟨rest, rfl, hrest, hl, hend⟩ := cut_eq_cons hcut
    rw [List.append_assoc, cut_append hl (hend.append_newline ds), ih rest hrest, List.cons_append]

/-- The tokens of both parts, or the error of the first part that has one. -/
theorem tokens_append (p : Position) (ls ms : List Lexeme) :
    tokens p (ls ++ ms) = do
      let ts ← tokens p ls
      let us ← tokens (p.after (ls.flatMap chars)) ms
      return ts ++ us := by
  induction ls generalizing p with
  | nil =>
    rw [List.nil_append, tokens, List.flatMap_nil, Position.after_nil]
    cases tokens p ms <;> rfl
  | cons l ls ih =>
    rw [List.cons_append, tokens, tokens, ih, List.flatMap_cons, Position.after_append]
    cases l.kind? p with
    | error e => rfl
    | ok kind =>
      cases tokens (p.after l.chars) ls with
      | error e => rfl
      | ok ts =>
        cases kind <;> cases tokens ((p.after l.chars).after (ls.flatMap chars)) ms <;> rfl

/-- What a lexeme stands for does not depend on where it is. -/
theorem kind?_moved (f : Position → Position) (l : Lexeme) (p : Position) :
    l.kind? (f p) = (l.kind? p).mapError (ScanError.moved f) := by
  unfold kind?
  cases l.toClass with
  | digits => cases Integer.ofInt? (Integer.ofDigits l.chars) <;> rfl
  | sign => cases Mark.ofChar? l.first <;> rfl
  | _ => rfl

/-- Further down, the same lexemes are the same tokens, further down. -/
theorem tokens_down (n : Nat) (p : Position) (ls : List Lexeme) :
    tokens (p.down n) ls = ((tokens p ls).map (List.map (Token.moved (.down n)))).mapError
      (ScanError.moved (.down n)) := by
  induction ls generalizing p with
  | nil => rfl
  | cons l ls ih =>
    rw [tokens, tokens, kind?_moved, Position.down_after, ih]
    cases l.kind? p with
    | error e => rfl
    | ok kind =>
      cases tokens (p.after l.chars) ls with
      | error e => rfl
      | ok ts => cases kind <;> rfl

end Lexeme

namespace Token

/-- How many lines a text takes up with the newline after it. -/
def linesOf (s : String) : Nat :=
  1 + s.toList.count '\n'

/-- Behind a text and a newline the position is down by the lines of the text. -/
theorem start_after_newline (s : String) :
    (Position.start.after s.toList).next '\n' = Position.start.down (linesOf s) := by
  rw [Position.start_after, Position.next, if_pos rfl]
  simp only [Position.ofText, Position.down, Position.start, linesOf, Position.mk.injEq, and_true]
  omega

/-- Scanning joined texts: the second one is scanned only if the first one is accepted, and
further down. -/
theorem scan_append_newline (s s' : String) :
    scan (s ++ "\n" ++ s') = do
      let ts ← scan s
      let us ← ((scan s').map (List.map (Token.moved (.down (linesOf s))))).mapError
        (ScanError.moved (.down (linesOf s)))
      return ts ++ us := by
  have hchars : (s ++ "\n" ++ s').toList = s.toList ++ '\n' :: s'.toList := by simp
  have hnewline : Lexeme.tokens (Position.start.after s.toList)
      (⟨'\n', []⟩ :: Lexeme.cut s'.toList) =
        Lexeme.tokens (Position.start.down (linesOf s)) (Lexeme.cut s'.toList) := by
    rw [Lexeme.tokens_cons_of_none rfl, ← start_after_newline]
    rfl
  unfold scan
  rw [hchars, Lexeme.cut_append_newline, Lexeme.tokens_append, Lexeme.flatMap_chars_cut, hnewline,
    Lexeme.tokens_down]

end Token

end Scriptlet
