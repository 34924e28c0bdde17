import Scriptlet.Proofs.Grammar.Complete
import Scriptlet.Proofs.Tree.Terms
import Scriptlet.Proofs.Token.Scanned

/-!
Expressions as exact arithmetic. What the tokens of an expression without division mean is
read off them directly: signs bind tightest, products before sums, from left to right. The
tree that the rules build for the same tokens looks different, because a sign is folded into
a literal or becomes a product with minus one, but running it evaluates what was read.
-/
namespace Scriptlet

namespace Grammar.Reading

mutual

inductive Factor : List Token → Term → Prop
  | integer (n : Int64) (p : Position) : Factor [⟨.integer n, p⟩] (.number n)
  | name (s : String) (p : Position) : Factor [⟨.identifier s, p⟩] (.name s p)
  | parens {ts : List Token} {e : Term} (p q : Position) (inner : Sum ts e) :
      Factor (⟨.mark .openParen, p⟩ :: (ts ++ [⟨.mark .closeParen, q⟩])) e
  | plus {ts : List Token} {e : Term} (p : Position) (operand : Factor ts e) :
      Factor (⟨.mark .plus, p⟩ :: ts) e
  | minus {ts : List Token} {e : Term} (p : Position) (operand : Factor ts e) :
      Factor (⟨.mark .minus, p⟩ :: ts) (.negation e p)

inductive Product : List Token → Term → Prop
  | factor {ts : List Token} {e : Term} (only : Factor ts e) : Product ts e
  | times {ts us : List Token} {l r : Term} (p : Position) (left : Product ts l)
      (right : Factor us r) :
      Product (ts ++ ⟨.mark .star, p⟩ :: us) (.operation .mul l r p)

inductive Sum : List Token → Term → Prop
  | product {ts : List Token} {e : Term} (only : Product ts e) : Sum ts e
  | plus {ts us : List Token} {l r : Term} (p : Position) (left : Sum ts l)
      (right : Product us r) :
      Sum (ts ++ ⟨.mark .plus, p⟩ :: us) (.operation .add l r p)
  | minus {ts us : List Token} {l r : Term} (p : Position) (left : Sum ts l)
      (right : Product us r) :
      Sum (ts ++ ⟨.mark .minus, p⟩ :: us) (.operation .sub l r p)

end

end Grammar.Reading

/-- Folding a sign into a literal is exact, because no literal is the least integer. -/
theorem Tree.Computes.negated {t : Tree} {e : Term} (h : t.Computes e) (hquiet : t.IsQuiet)
    (hgt : ∀ n shown q, t = .literal n shown q → -2 ^ 63 < n.toInt) (p : Position) :
    (t.negated p).Computes (.negation e p) := by
  by_cases hliteral : ∃ n shown q, t = .literal n shown q
  · obtain ⟨n, shown, q, rfl⟩ := hliteral
    obtain rfl : shown = false := hquiet
    intro m hm
    have hrun : (Except.ok (some (Value.integer n)), m) =
        ((e.evaluate m.bindings).map fun x => some (Value.integer (Int64.ofInt x)), m) := h m hm
    cases he : e.evaluate m.bindings with
    | error err =>
      rw [he] at hrun
      cases hrun
    | ok x =>
      rw [he] at hrun
      have hfits := Term.fits_of_evaluate he
      have hx : n.toInt = x := by
        cases hrun
        exact Tree.toInt_ofInt hfits
      have hopposite : Integer.Fits (-x) := by
        have hleast := hgt n false q rfl
        have hmost := hfits.2
        unfold Integer.Fits
        omega
      have hneg : -n = Int64.ofInt (-x) :=
        Grammar.negated_literal (by rw [Tree.toInt_ofInt hopposite, hx])
      have hvalue : (Term.negation e p).evaluate m.bindings = .ok (-x) := by
        rw [Term.evaluate, he]
        exact if_pos hopposite
      rw [hvalue, Tree.negated, hneg]
      rfl
  · have hcompound : ∀ n shown q, t ≠ .literal n shown q := by
      intro n shown q ht
      exact hliteral ⟨n, shown, q, ht⟩
    rw [Grammar.negated_compound hcompound]
    intro m hm
    rw [← Term.evaluate_negation]
    exact (Tree.computes_literal (-1) p).operation h .mul p m hm

namespace Grammar

def HasNoSlash (ts : List Token) : Prop :=
  ∀ k ∈ ts, k.kind ≠ .mark .slash

instance (ts : List Token) : Decidable (HasNoSlash ts) :=
  inferInstanceAs (Decidable (∀ k ∈ ts, k.kind ≠ .mark .slash))

namespace Phrase

mutual

theorem Factor.exists_reading {ts : List Token} {t : Tree} : Factor ts t → HasNoSlash ts →
    ∃ e, Reading.Factor ts e
  | .integer n p, _ => ⟨_, .integer n p⟩
  | .name s p, _ => ⟨_, .name s p⟩
  | .parens p q inner, h => by
    obtain ⟨e, he⟩ := inner.exists_reading fun k hk => h k (by simp [hk])
    exact ⟨e, .parens p q he⟩
  | .plus p operand, h => by
    obtain ⟨e, he⟩ := operand.exists_reading fun k hk => h k (by simp [hk])
    exact ⟨e, .plus p he⟩
  | .minusLiteral p operand _, h => by
    obtain ⟨e, he⟩ := operand.exists_reading fun k hk => h k (by simp [hk])
    exact ⟨_, .minus p he⟩
  | .minus p operand _, h => by
    obtain ⟨e, he⟩ := operand.exists_reading fun k hk => h k (by simp [hk])
    exact ⟨_, .minus p he⟩

theorem Product.exists_reading {ts : List Token} {t : Tree} : Product ts t → HasNoSlash ts →
    ∃ e, Reading.Product ts e
  | .factor only, h => by
    obtain ⟨e, he⟩ := only.exists_reading h
    exact ⟨e, .factor he⟩
  | @Product.step ts us l r op p left level right, h => by
    obtain ⟨e, he⟩ := left.exists_reading fun k hk => h k (by simp [hk])
    obtain ⟨e', he'⟩ := right.exists_reading fun k hk => h k (by simp [hk])
    rcases level with rfl | rfl
    · exact ⟨_, .times p he he'⟩
    · exact absurd rfl (h ⟨.mark .slash, p⟩ (by simp [ArithOp.mark]))

/-- Without a slash a sum reads as a term. -/
theorem Sum.exists_reading {ts : List Token} {t : Tree} : Sum ts t → HasNoSlash ts →
    ∃ e, Reading.Sum ts e
  | .product only, h => by
    obtain ⟨e, he⟩ := only.exists_reading h
    exact ⟨e, .product he⟩
  | @Sum.step ts us l r op p left level right, h => by
    obtain ⟨e, he⟩ := left.exists_reading fun k hk => h k (by simp [hk])
    obtain ⟨e', he'⟩ := right.exists_reading fun k hk => h k (by simp [hk])
    rcases level with rfl | rfl
    · exact ⟨_, .plus p he he'⟩
    · exact ⟨_, .minus p he he'⟩

end

end Phrase

namespace Reading

mutual

/-- The tree of what is read runs as it is evaluated. -/
theorem Factor.exists_computes {ts : List Token} {e : Term} : Factor ts e → Unsigned ts →
    ∃ t, Phrase.Factor ts t ∧ t.Computes e
  | .integer n p, _ => ⟨_, .integer n p, Tree.computes_literal n p⟩
  | .name s p, _ => ⟨_, .name s p, Tree.computes_name s p⟩
  | .parens p q inner, hu => by
    obtain ⟨t, ht, hcomputes⟩ := inner.exists_computes hu.tail.left
    exact ⟨t, .parens p q ht, hcomputes⟩
  | .plus p operand, hu => by
    obtain ⟨t, ht, hcomputes⟩ := operand.exists_computes hu.tail
    exact ⟨t, .plus p ht, hcomputes⟩
  | .minus p operand, hu => by
    obtain ⟨t, ht, hcomputes⟩ := operand.exists_computes hu.tail
    refine ⟨t.negated p, ht.negated p hu.tail, hcomputes.negated ht.isQuiet ?_ p⟩
    intro n shown q heq
    exact ht.literal_gt hu.tail heq

theorem Product.exists_computes {ts : List Token} {e : Term} : Product ts e → Unsigned ts →
    ∃ t, Phrase.Product ts t ∧ t.Computes e
  | .factor only, hu => by
    obtain ⟨t, ht, hcomputes⟩ := only.exists_computes hu
    exact ⟨t, .factor ht, hcomputes⟩
  | .times p left right, hu => by
    obtain ⟨l, hl, hlcomputes⟩ := left.exists_computes hu.left
    obtain ⟨r, hr, hrcomputes⟩ := right.exists_computes hu.right.tail
    exact ⟨_, .step p hl (.inl rfl) hr, hlcomputes.operation hrcomputes .mul p⟩

/-- The term that a sum reads as is computed by the tree of the sum. -/
theorem Sum.exists_computes {ts : List Token} {e : Term} : Sum ts e → Unsigned ts →
    ∃ t, Phrase.Sum ts t ∧ t.Computes e
  | .product only, hu => by
    obtain ⟨t, ht, hcomputes⟩ := only.exists_computes hu
    exact ⟨t, .product ht, hcomputes⟩
  | .plus p left right, hu => by
    obtain ⟨l, hl, hlcomputes⟩ := left.exists_computes hu.left
    obtain ⟨r, hr, hrcomputes⟩ := right.exists_computes hu.right.tail
    exact ⟨_, .step p hl (.inl rfl) hr, hlcomputes.operation hrcomputes .add p⟩
  | .minus p left right, hu => by
    obtain ⟨l, hl, hlcomputes⟩ := left.exists_computes hu.left
    obtain ⟨r, hr, hrcomputes⟩ := right.exists_computes hu.right.tail
    exact ⟨_, .step p hl (.inr rfl) hr, hlcomputes.operation hrcomputes .sub p⟩

end

/-- Whatever is read off the tokens that the rule for sums takes, the tree runs as it is
evaluated. -/
theorem Sum.computes {ts : List Token} {e : Term} {t : Tree} (h : Sum ts e) (hu : Unsigned ts)
    (ht : (sum ts).Yields t []) : t.Computes e := by
  obtain ⟨t', hphrase, hcomputes⟩ := h.exists_computes hu
  have htaken := hphrase.taken [] (stops_nil _)
  rw [List.append_nil] at htaken
  obtain ⟨_, hdone⟩ := ht
  obtain ⟨rfl, _⟩ := (Reply.yields_done ..).mp (hdone ▸ htaken)
  exact hcomputes

end Reading

/-- An expression without division that is read in full is exact arithmetic or an error. It
gives an integer exactly if every name is bound and the exact value of every subexpression
fits into 64 bits, and then it is the exact value of the whole. If not, it fails because of the
first subexpression, operands first and from left to right, for which that does not hold: a
name that is not bound, or an operation or sign whose exact value is out of range. -/
theorem sum_evaluates_exactly {source : String} {ts : List Token} {t : Tree}
    (hscan : Token.scan source = .ok ts) (hsum : (sum ts).Yields t []) (hslash : HasNoSlash ts) :
    (∃ e, Reading.Sum ts e) ∧
    ∀ e, Reading.Sum ts e → ∀ m : Machine, m.bindings.IsIntegral →
      (∀ n m', Gives t.run m (some (.integer n)) m' ↔
        (∀ u ∈ e.parts, u.InRange m.bindings) ∧ e.meaning? m.bindings = some n.toInt ∧ m' = m) ∧
      ((¬ ∀ u ∈ e.parts, u.InRange m.bindings) →
        ∃ err, Term.FirstFault m.bindings e.parts err ∧ Fails t.run m err m) := by
  have hu := Token.scan_unsigned hscan
  obtain ⟨used, hused, hphrase⟩ := sum_sound ts t [] hsum hu
  rw [List.append_nil] at hused
  subst hused
  refine ⟨hphrase.exists_reading hslash, fun e he m hm => ?_⟩
  have hcomputes := he.computes hu hsum
  exact ⟨hcomputes.gives_iff hm, hcomputes.exists_fails hm⟩

/-- The tokens of `x + 1 - 1`. -/
def thereAndBack : List Token :=
  [⟨.identifier "x", ⟨1, 1⟩⟩, ⟨.mark .plus, ⟨1, 3⟩⟩, ⟨.integer 1, ⟨1, 5⟩⟩,
    ⟨.mark .minus, ⟨1, 7⟩⟩, ⟨.integer 1, ⟨1, 9⟩⟩]

def thereAndBackTerm : Term :=
  .operation .sub (.operation .add (.name "x" ⟨1, 1⟩) (.number 1) ⟨1, 3⟩) (.number 1) ⟨1, 7⟩

def thereAndBackTree : Tree :=
  .arith .sub (.arith .add (.name "x" false ⟨1, 1⟩) (.literal 1 false ⟨1, 5⟩) false ⟨1, 3⟩)
    (.literal 1 false ⟨1, 9⟩) false ⟨1, 7⟩

/-- Nothing is printed and `x` is the greatest integer. -/
def atLimit : Machine :=
  { bindings := Bindings.empty.define "x" (.integer 9223372036854775807) }

/-- The whole would fit, but the sum on the way to it does not, and the plus is blamed. -/
theorem thereAndBack_overflows :
    Token.scan "x + 1 - 1" = .ok thereAndBack ∧ Reading.Sum thereAndBack thereAndBackTerm ∧
    thereAndBackTerm.meaning? atLimit.bindings = some 9223372036854775807 ∧
    Term.FirstFault atLimit.bindings thereAndBackTerm.parts (.arithmetic .overflow ⟨1, 3⟩) ∧
    Fails thereAndBackTree.run atLimit (.arithmetic .overflow ⟨1, 3⟩) atLimit := by
  have hscan : Token.scan "x + 1 - 1" = .ok thereAndBack := by with_unfolding_all rfl
  have hsum : (sum thereAndBack).Yields thereAndBackTree [] :=
    ⟨by decide, by with_unfolding_all rfl⟩
  have hreading : Reading.Sum thereAndBack thereAndBackTerm :=
    .minus ⟨1, 7⟩ (.plus ⟨1, 3⟩ (.product (.factor (.name "x" ⟨1, 1⟩)))
      (.factor (.integer 1 ⟨1, 5⟩))) (.factor (.integer 1 ⟨1, 9⟩))
  have hintegral : atLimit.bindings.IsIntegral := by
    intro id v hv
    rw [atLimit, Bindings.get?_define] at hv
    split at hv
    · exact ⟨_, (Option.some.inj hv).symm⟩
    · simp at hv
  have hinner : (Term.operation .add (.name "x" ⟨1, 1⟩) (.number 1) ⟨1, 3⟩).meaning?
      atLimit.bindings = some 9223372036854775808 := rfl
  have hnot : ¬ ∀ u ∈ thereAndBackTerm.parts, u.InRange atLimit.bindings := by
    intro hall
    obtain ⟨x, hx, hfits⟩ := hall (.operation .add (.name "x" ⟨1, 1⟩) (.number 1) ⟨1, 3⟩)
      (by simp [thereAndBackTerm, Term.parts])
    obtain rfl := Option.some.inj (hinner.symm.trans hx)
    revert hfits
    decide
  have hends := (sum_evaluates_exactly hscan hsum (by decide)).2 _ hreading atLimit hintegral
  obtain ⟨err, hfirst, hfails⟩ := hends.2 hnot
  have hrun : thereAndBackTree.run.run atLimit =
      (.error (.arithmetic .overflow ⟨1, 3⟩), atLimit) := rfl
  obtain ⟨herr, _⟩ := Prod.mk.inj (hfails.symm.trans hrun)
  cases herr
  exact ⟨hscan, hreading, rfl, hfirst, hfails⟩

end Grammar

end Scriptlet
