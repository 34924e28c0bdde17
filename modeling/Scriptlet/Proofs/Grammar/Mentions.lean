import Scriptlet.Proofs.Grammar.Phrase
import Scriptlet.Proofs.Tree.Outline

/-!
Where names stand in the text of a script. The tokens alone say which names are used and which
are assigned: the identifier after `let` is assigned where its statement ends, and every
other identifier is used where it stands. The outline of a script mentions the names in
that order.
-/
namespace Scriptlet

namespace Token

inductive Part
  | none
  | target
  | value (id : String)

/-- What tokens say of names, read one after another. -/
def mentionsFrom : Part → List Token → List Mention
  | _, [] => []
  | part, t :: ts =>
    match part, t.kind with
    | _, .keyword .letWord => mentionsFrom .target ts
    | .target, .identifier id => mentionsFrom (.value id) ts
    | .value id, .mark .semicolon => .assigns id :: mentionsFrom .none ts
    | part, .identifier id => .uses id t.pos :: mentionsFrom part ts
    | part, _ => mentionsFrom part ts

def mentions (ts : List Token) : List Mention :=
  mentionsFrom .none ts

section Steps

variable (part : Part) (ts : List Token) (p : Position)

theorem mentionsFrom_integer (n : Int64) :
    mentionsFrom part (⟨.integer n, p⟩ :: ts) = mentionsFrom part ts := by
  cases part <;> rfl

theorem mentionsFrom_mark {m : Mark} (h : m ≠ .semicolon) :
    mentionsFrom part (⟨.mark m, p⟩ :: ts) = mentionsFrom part ts := by
  cases part <;> simp [mentionsFrom, h]

theorem mentionsFrom_semicolon :
    mentionsFrom .none (⟨.mark .semicolon, p⟩ :: ts) = mentionsFrom .none ts := rfl

theorem mentionsFrom_keyword {k : Keyword} (h : k ≠ .letWord) :
    mentionsFrom part (⟨.keyword k, p⟩ :: ts) = mentionsFrom part ts := by
  cases part <;> simp [mentionsFrom, h]

/-- An identifier is used, unless it is the target of an assignment. -/
theorem mentionsFrom_identifier {part : Part} (h : part ≠ .target) (id : String) :
    mentionsFrom part (⟨.identifier id, p⟩ :: ts) = .uses id p :: mentionsFrom part ts := by
  cases part with
  | target => exact absurd rfl h
  | _ => rfl

end Steps

/-- The places at which names are used are places of tokens, in the same order. -/
theorem sublist_places (part : Part) (ts : List Token) :
    ((mentionsFrom part ts).filterMap Mention.pos?).Sublist (ts.map Token.pos) := by
  induction ts generalizing part with
  | nil => exact .slnil
  | cons t ts ih =>
    unfold mentionsFrom
    split
    · exact (ih _).cons _
    · exact (ih _).cons _
    · exact (ih _).cons _
    · exact (ih _).cons_cons _
    · exact (ih _).cons _

end Token

namespace Grammar.Phrase

open Token

/-- The tokens of an expression with the references, in any part of an assignment. -/
def Mentions (ts : List Token) (rs : List (String × Position)) : Prop :=
  ∀ part rest, part ≠ .target →
    mentionsFrom part (ts ++ rest) = Mention.ofReferences rs ++ mentionsFrom part rest

theorem Mentions.followed {ts us : List Token} {rs rs' : List (String × Position)}
    (h : Mentions ts rs) {m : Mark} (hm : m ≠ .semicolon) (p : Position) (h' : Mentions us rs') :
    Mentions (ts ++ ⟨.mark m, p⟩ :: us) (rs ++ rs') := by
  intro part rest hpart
  rw [List.append_assoc, List.cons_append, h part _ hpart, mentionsFrom_mark part _ p hm,
    h' part rest hpart]
  simp [Mention.ofReferences]

theorem Mentions.preceded {ts : List Token} {rs : List (String × Position)} {m : Mark}
    (hm : m ≠ .semicolon) (p : Position) (h : Mentions ts rs) :
    Mentions (⟨.mark m, p⟩ :: ts) rs := by
  intro part rest hpart
  rw [List.cons_append, mentionsFrom_mark part _ p hm, h part rest hpart]

theorem operator_ne_semicolon {m : Mark} (h : m.isOperator = true) : m ≠ .semicolon := by
  rintro rfl
  cases h

mutual

theorem Factor.mentions {ts : List Token} {t : Tree} : Factor ts t → Mentions ts t.references
  | .integer n p => fun part rest _ => mentionsFrom_integer part rest p n
  | .name s p => fun part rest hpart => mentionsFrom_identifier rest p hpart s
  | .parens p q inner => by
    have hinner := inner.mentions
    refine .preceded (by decide) p fun part rest hpart => ?_
    rw [List.append_assoc, hinner part _ hpart, List.singleton_append,
      mentionsFrom_mark part rest q (by decide)]
  | .plus p operand => .preceded (by decide) p operand.mentions
  | .minusLiteral p operand _ => .preceded (by decide) p operand.mentions
  | .minus p operand _ => .preceded (by decide) p operand.mentions

theorem Product.mentions {ts : List Token} {t : Tree} : Product ts t → Mentions ts t.references
  | .factor only => only.mentions
  | @Product.step _ _ _ _ op p left _ right =>
    left.mentions.followed (operator_ne_semicolon op.isOperator_mark) p right.mentions

/-- The tokens of a sum mention the names of its tree, in order. -/
theorem Sum.mentions {ts : List Token} {t : Tree} : Sum ts t → Mentions ts t.references
  | .product only => only.mentions
  | @Sum.step _ _ _ _ op p left _ right =>
    left.mentions.followed (operator_ne_semicolon op.isOperator_mark) p right.mentions

end

theorem Comparison.mentions {ts : List Token} {t : Tree} (h : Comparison ts t) :
    Mentions ts t.references := by
  cases h with
  | sum only => exact only.mentions
  | compare op p left right =>
    exact left.mentions.followed (operator_ne_semicolon op.isOperator_mark) p right.mentions

theorem Value.mentions {ts : List Token} {t : Tree} (h : Value ts t) :
    Mentions ts t.references := by
  cases h with
  | sum only => exact only.mentions
  | choice p q test yes no =>
    have hchoices := yes.mentions.followed (m := .colon) (by decide) q no.mentions
    have hall := test.mentions.followed (m := .question) (by decide) p hchoices
    simpa [Tree.references] using hall

theorem references_asShown (t : Tree) : t.asShown.references = t.references := by
  cases t <;> rfl

mutual

/-- The tokens of a statement say of names what its outline does. -/
theorem Statement.mentionsFrom_eq {ts : List Token} {t : Tree} : Statement ts t →
    (rest : List Token) →
    mentionsFrom .none (ts ++ rest) = mentions t.outline ++ mentionsFrom .none rest
  | @Statement.shown k ts t q expression _, rest => by
    have hsum := expression.mentions .none (⟨.mark .semicolon, q⟩ :: rest) (by simp)
    rw [expression.isQuiet.isShownSum_asShown.outline_eq, references_asShown]
    simpa [mentionsFrom_semicolon] using hsum
  | .assign id p q r s value, rest => by
    have hvalue := value.mentions (.value id) (⟨.mark .semicolon, s⟩ :: rest) (by simp)
    have hstart (us : List Token) : mentionsFrom .none (⟨.keyword .letWord, p⟩ ::
        ⟨.identifier id, q⟩ :: ⟨.mark .equals, r⟩ :: us) = mentionsFrom (.value id) us := rfl
    have hend : mentionsFrom (.value id) (⟨.mark .semicolon, s⟩ :: rest) =
        .assigns id :: mentionsFrom .none rest := rfl
    rw [hend] at hvalue
    simpa [hstart, Tree.outline, Entry.mentions] using hvalue
  | .loop p bound block, rest => by
    rw [List.cons_append, mentionsFrom_keyword _ _ p (by decide), List.append_assoc,
      bound.mentions .none _ (by simp), block.mentionsFrom_eq]
    simp [Tree.outline, Entry.mentions]
  | .branch p test block elifs otherwise, rest => by
    rw [List.cons_append, mentionsFrom_keyword _ _ p (by decide), List.append_assoc,
      test.mentions .none _ (by simp), List.append_assoc, block.mentionsFrom_eq,
      List.append_assoc, elifs.mentionsFrom_eq, otherwise.mentionsFrom_eq]
    simp [Tree.outline]

theorem Statements.mentionsFrom_eq {ts : List Token} {body : List Tree} : Statements ts body →
    (rest : List Token) → mentionsFrom .none (ts ++ rest) =
      mentions (Tree.outlineAll body) ++ mentionsFrom .none rest
  | .nil, rest => rfl
  | .cons head tail, rest => by
    rw [List.append_assoc, head.mentionsFrom_eq, tail.mentionsFrom_eq, Tree.outlineAll,
      mentions_append, List.append_assoc]

theorem Block.mentionsFrom_eq {ts : List Token} {body : List Tree} : Block ts body →
    (rest : List Token) → mentionsFrom .none (ts ++ rest) =
      mentions (Tree.outlineAll body) ++ mentionsFrom .none rest
  | .braces p q inner, rest => by
    rw [List.cons_append, mentionsFrom_mark _ _ p (by decide), List.append_assoc,
      inner.mentionsFrom_eq, List.singleton_append, mentionsFrom_mark _ _ q (by decide)]

theorem Elifs.mentionsFrom_eq {ts : List Token} {others : List Branch} : Elifs ts others →
    (rest : List Token) → mentionsFrom .none (ts ++ rest) =
      mentions (Branch.outlineAll others) ++ mentionsFrom .none rest
  | .nil, rest => rfl
  | .cons p test block tail, rest => by
    rw [List.cons_append, mentionsFrom_keyword _ _ p (by decide), List.append_assoc,
      test.mentions .none _ (by simp), List.append_assoc, block.mentionsFrom_eq,
      tail.mentionsFrom_eq]
    simp [Branch.outlineAll, Tree.outlineAll]

theorem Otherwise.mentionsFrom_eq {ts : List Token} {last : List Tree} : Otherwise ts last →
    (rest : List Token) → mentionsFrom .none (ts ++ rest) =
      mentions (Tree.outlineAll last) ++ mentionsFrom .none rest
  | .absent, rest => rfl
  | .block p block, rest => by
    rw [List.cons_append, mentionsFrom_keyword _ _ p (by decide), block.mentionsFrom_eq]

end

/-- The tokens of a script say of names what its outline says. -/
theorem Program.mentions_eq {ts : List Token} {body : List Tree} (h : Program ts (.program body)) :
    Token.mentions ts = mentions (Tree.outlineAll body) := by
  cases h with
  | statements all =>
    have hall := all.mentionsFrom_eq []
    rwa [List.append_nil, show mentionsFrom .none [] = [] from rfl, List.append_nil] at hall

end Grammar.Phrase

end Scriptlet
