import Scriptlet.Proofs.Script

/-!
Signs before literals. A minus sign is folded into the literal after it, and the least integer is
the only one that has no opposite. It is never met: digits are read without a sign, so what a sign
finds is an unsigned literal, or the opposite of one that other signs have made. That holds at
every sign of a scanned text, also where the text is refused later on, and so the literals of
a script lie between two bounds that are opposite to each other.
-/
namespace Scriptlet

mutual

def Tree.literals : Tree → List Int64
  | .program body => Tree.literalsAll body
  | .literal n _ _ => [n]
  | .name _ _ _ => []
  | .arith _ l r _ _ => l.literals ++ r.literals
  | .compare _ l r _ => l.literals ++ r.literals
  | .assign _ v _ => v.literals
  | .choose c y n _ => c.literals ++ y.literals ++ n.literals
  | .branch c => c.literals
  | .loop b body _ => b.literals ++ Tree.literalsAll body

def Tree.literalsAll : List Tree → List Int64
  | [] => []
  | t :: ts => t.literals ++ Tree.literalsAll ts

def Branch.literals : Branch → List Int64
  | .mk c body others last _ =>
    c.literals ++ Tree.literalsAll body ++ Branch.literalsAll others ++ Tree.literalsAll last

def Branch.literalsAll : List Branch → List Int64
  | [] => []
  | b :: bs => b.literals ++ Branch.literalsAll bs

end

theorem Tree.literals_asShown (t : Tree) : t.asShown.literals = t.literals := by
  cases t <;> rfl

def Integer.HasOpposite (n : Int64) : Prop :=
  -2 ^ 63 < n.toInt

/-- The opposite is the negation, without a turn around the word. -/
theorem Integer.HasOpposite.toInt_neg {n : Int64} (h : HasOpposite n) :
    (-n).toInt = -n.toInt :=
  Grammar.Phrase.toInt_neg_of_gt h

theorem Integer.HasOpposite.bounds {n : Int64} (h : HasOpposite n) :
    -(2 ^ 63 - 1) ≤ n.toInt ∧ n.toInt ≤ 2 ^ 63 - 1 := by
  have hlt := n.toInt_lt
  unfold HasOpposite at h
  omega

namespace Grammar

namespace Phrase

open Integer List

mutual

/-- Every literal in a factor has an opposite, since its own sign was a token. -/
theorem Factor.hasOpposite {ts : List Token} {t : Tree} :
    Factor ts t → Unsigned ts → ∀ n ∈ t.literals, HasOpposite n
  | .integer m p, hu => forall_mem_singleton.mpr <| by
    have hunsigned := hu _ (mem_singleton.mpr rfl) m rfl
    unfold HasOpposite
    omega
  | .name _ _, _ => forall_mem_nil _
  | .parens _ _ inner, hu => inner.hasOpposite hu.tail.left
  | .plus _ operand, hu => operand.hasOpposite hu.tail
  | .minusLiteral (n := k) _ _ opposite, _ => forall_mem_singleton.mpr <| by
    have hlt := k.toInt_lt
    unfold HasOpposite
    omega
  | .minus _ operand _, hu =>
    forall_mem_cons.mpr ⟨by unfold HasOpposite; decide, operand.hasOpposite hu.tail⟩

theorem Product.hasOpposite {ts : List Token} {t : Tree} :
    Product ts t → Unsigned ts → ∀ n ∈ t.literals, HasOpposite n
  | .factor only, hu => only.hasOpposite hu
  | .step _ left _ right, hu =>
    forall_mem_append.mpr ⟨left.hasOpposite hu.left, right.hasOpposite hu.right.tail⟩

theorem Sum.hasOpposite {ts : List Token} {t : Tree} :
    Sum ts t → Unsigned ts → ∀ n ∈ t.literals, HasOpposite n
  | .product only, hu => only.hasOpposite hu
  | .step _ left _ right, hu =>
    forall_mem_append.mpr ⟨left.hasOpposite hu.left, right.hasOpposite hu.right.tail⟩

end

theorem Comparison.hasOpposite {ts : List Token} {t : Tree} (h : Comparison ts t)
    (hu : Unsigned ts) : ∀ n ∈ t.literals, HasOpposite n := by
  cases h with
  | sum only => exact only.hasOpposite hu
  | compare op p left right =>
    exact forall_mem_append.mpr ⟨left.hasOpposite hu.left, right.hasOpposite hu.right.tail⟩

theorem Value.hasOpposite {ts : List Token} {t : Tree} (h : Value ts t) (hu : Unsigned ts) :
    ∀ n ∈ t.literals, HasOpposite n := by
  cases h with
  | sum only => exact only.hasOpposite hu
  | choice p q test yes no =>
    have hyes := yes.hasOpposite hu.right.tail.left
    have hno := no.hasOpposite hu.right.tail.right.tail
    exact forall_mem_append.mpr ⟨forall_mem_append.mpr ⟨test.hasOpposite hu.left, hyes⟩, hno⟩

mutual

/-- Every literal in a statement has an opposite. -/
theorem Statement.hasOpposite {ts : List Token} {t : Tree} :
    Statement ts t → Unsigned ts → ∀ n ∈ t.literals, HasOpposite n
  | .shown _ expression _, hu => by
    rw [Tree.literals_asShown]
    rw [← cons_append] at hu
    exact expression.hasOpposite hu.left
  | .assign _ _ _ _ _ value, hu => value.hasOpposite hu.tail.tail.tail.left
  | .loop _ bound block, hu =>
    forall_mem_append.mpr ⟨bound.hasOpposite hu.tail.left, block.hasOpposite hu.tail.right⟩
  | .branch _ test block elifs otherwise, hu => by
    have htest := test.hasOpposite hu.tail.left
    have hblock := block.hasOpposite hu.tail.right.left
    have helifs := elifs.hasOpposite hu.tail.right.right.left
    have hlast := otherwise.hasOpposite hu.tail.right.right.right
    have hparts := forall_mem_append.mpr ⟨forall_mem_append.mpr ⟨htest, hblock⟩, helifs⟩
    exact forall_mem_append.mpr ⟨hparts, hlast⟩

theorem Statements.hasOpposite {ts : List Token} {body : List Tree} :
    Statements ts body → Unsigned ts → ∀ n ∈ Tree.literalsAll body, HasOpposite n
  | .nil, _ => forall_mem_nil _
  | .cons head tail, hu =>
    forall_mem_append.mpr ⟨head.hasOpposite hu.left, tail.hasOpposite hu.right⟩

theorem Block.hasOpposite {ts : List Token} {body : List Tree} :
    Block ts body → Unsigned ts → ∀ n ∈ Tree.literalsAll body, HasOpposite n
  | .braces _ _ inner, hu => inner.hasOpposite hu.tail.left

theorem Elifs.hasOpposite {ts : List Token} {others : List Branch} :
    Elifs ts others → Unsigned ts → ∀ n ∈ Branch.literalsAll others, HasOpposite n
  | .nil, _ => forall_mem_nil _
  | .cons _ test block tail, hu => by
    have htest := test.hasOpposite hu.tail.left
    have hblock := block.hasOpposite hu.tail.right.left
    have htail := tail.hasOpposite hu.tail.right.right
    simpa [Branch.literals, Branch.literalsAll, Tree.literalsAll] using
      forall_mem_append.mpr ⟨forall_mem_append.mpr ⟨htest, hblock⟩, htail⟩

theorem Otherwise.hasOpposite {ts : List Token} {last : List Tree} :
    Otherwise ts last → Unsigned ts → ∀ n ∈ Tree.literalsAll last, HasOpposite n
  | .absent, _ => forall_mem_nil _
  | .block _ block, hu => block.hasOpposite hu.tail

end

end Phrase

end Grammar

namespace Script

open Grammar

theorem hasOpposite_of_parse {source : String} {t : Tree} (h : parse source = .ok t) :
    ∀ n ∈ t.literals, Integer.HasOpposite n := by
  obtain ⟨ts, hscan, hphrase⟩ := phrase_of_parse h
  cases hphrase with
  | statements all => exact all.hasOpposite (Token.scan_unsigned hscan)

/-- Folding signs into literals cannot overflow. Whatever sign of a scanned text it is, if a
literal is read from the tokens after it then this literal has an opposite. The rules of the grammar
only ever work on a tail of the tokens, so no other literal meets a sign while a text is read,
whether it is a script or not. The literals of a script, with any signs and parentheses
before them, lie between the greatest integer and its opposite. -/
theorem signs_never_overflow {source : String} {ts : List Token}
    (hscan : Token.scan source = .ok ts) :
    (∀ sign rest, sign :: rest <:+ ts → sign.kind = .mark .minus → ∀ n shown p left,
      (factor rest).Yields (.literal n shown p) left →
        n.toInt ≠ -2 ^ 63 ∧ (-n).toInt = -n.toInt) ∧
    ∀ t, parse source = .ok t →
      ∀ n ∈ t.literals, -(2 ^ 63 - 1) ≤ n.toInt ∧ n.toInt ≤ 2 ^ 63 - 1 := by
  have hunsigned := Token.scan_unsigned hscan
  refine ⟨fun sign rest htail _ n shown p left hfactor => ?_, fun t hparse n hn => ?_⟩
  · obtain ⟨before, rfl⟩ := htail
    have hrest := hunsigned.right.tail
    obtain ⟨used, rfl, hphrase⟩ := factor_sound rest _ left hfactor hrest
    have hopposite := hphrase.hasOpposite hrest.left n (List.mem_singleton_self n)
    exact ⟨Int.ne_of_gt hopposite, hopposite.toInt_neg⟩
  · exact (hasOpposite_of_parse hparse n hn).bounds

/-- The tokens of `let x = -(-9223372036854775807);` after the first sign. -/
def afterSign : List Token :=
  [⟨.mark .openParen, ⟨1, 10⟩⟩, ⟨.mark .minus, ⟨1, 11⟩⟩,
    ⟨.integer 9223372036854775807, ⟨1, 12⟩⟩, ⟨.mark .closeParen, ⟨1, 31⟩⟩,
    ⟨.mark .semicolon, ⟨1, 32⟩⟩]

/-- A sign can meet the opposite of the greatest integer, and its own opposite is then the greatest
again. -/
theorem twiceNegated_never_overflows :
    Token.scan "let x = -(-9223372036854775807);" =
      .ok ([⟨.keyword .letWord, ⟨1, 1⟩⟩, ⟨.identifier "x", ⟨1, 5⟩⟩, ⟨.mark .equals, ⟨1, 7⟩⟩,
        ⟨.mark .minus, ⟨1, 9⟩⟩] ++ afterSign) ∧
    (factor afterSign).Yields (.literal (-9223372036854775807) false ⟨1, 12⟩)
      [⟨.mark .semicolon, ⟨1, 32⟩⟩] ∧
    (-(-9223372036854775807) : Int64).toInt = -(-9223372036854775807 : Int64).toInt ∧
    parse "let x = -(-9223372036854775807);" =
      .ok (.program [.assign "x" (.literal 9223372036854775807 false ⟨1, 12⟩) ⟨1, 1⟩]) ∧
    (9223372036854775807 : Int64).toInt ≤ 2 ^ 63 - 1 := by
  have hscan : Token.scan "let x = -(-9223372036854775807);" =
      .ok ([⟨.keyword .letWord, ⟨1, 1⟩⟩, ⟨.identifier "x", ⟨1, 5⟩⟩, ⟨.mark .equals, ⟨1, 7⟩⟩,
        ⟨.mark .minus, ⟨1, 9⟩⟩] ++ afterSign) := by with_unfolding_all rfl
  have hfactor : (factor afterSign).Yields (.literal (-9223372036854775807) false ⟨1, 12⟩)
      [⟨.mark .semicolon, ⟨1, 32⟩⟩] := ⟨by decide, by with_unfolding_all rfl⟩
  have hparse : parse "let x = -(-9223372036854775807);" =
      .ok (.program [.assign "x" (.literal 9223372036854775807 false ⟨1, 12⟩) ⟨1, 1⟩]) := by
    with_unfolding_all rfl
  obtain ⟨hsigns, hliterals⟩ := signs_never_overflow hscan
  have hopposite := (hsigns ⟨.mark .minus, ⟨1, 9⟩⟩ afterSign
    ⟨[_, _, _], rfl⟩ rfl _ _ _ _ hfactor).2
  have hbounds := (hliterals _ hparse 9223372036854775807 (List.mem_singleton_self _)).2
  exact ⟨hscan, hfactor, hopposite, hparse, hbounds⟩

end Script

end Scriptlet
