import Scriptlet.Proofs.Grammar.Sound
import Scriptlet.Proofs.Tree.Shape

/-!
Every phrase is taken by its rule, with its tree. A rule goes on as long as the next token
lets it, so the phrase must not be followed by a token that extends it; in a script no phrase
is, because what may follow one in the grammar never extends it. For the levels of operators
the induction is on the left operand, and its invariant is that taking a phrase leads to the
rule for what extends its tree, whatever that rule then does.
-/
namespace Scriptlet.Grammar

def Stops (goesOn : Token.Kind → Bool) (rest : List Token) : Prop :=
  ∀ k ∈ rest.head?, goesOn k.kind = false

@[simp] theorem stops_nil (goesOn : Token.Kind → Bool) : Stops goesOn [] := by
  simp [Stops]

@[simp] theorem stops_cons (goesOn : Token.Kind → Bool) (k : Token) (ts : List Token) :
    Stops goesOn (k :: ts) ↔ goesOn k.kind = false := by
  simp [Stops]

def extendsProduct (k : Token.Kind) : Bool := (ArithOp.ofKindAt? 2 k).isSome

def extendsSum (k : Token.Kind) : Bool := (ArithOp.ofKind? k).isSome

def extendsComparison (k : Token.Kind) : Bool := extendsSum k || (CompareOp.ofKind? k).isSome

def extendsValue (k : Token.Kind) : Bool := extendsComparison k || k == .mark .question

def extendsBranch (k : Token.Kind) : Bool := k == .keyword .elifWord || k == .keyword .elseWord

theorem Stops.mono {f g : Token.Kind → Bool} (hfg : ∀ k, g k = false → f k = false)
    {ts : List Token} (h : Stops g ts) : Stops f ts :=
  fun k hk => hfg k.kind (h k hk)

theorem extendsProduct_of_extendsSum {k : Token.Kind} (h : extendsSum k = false) :
    extendsProduct k = false := by
  simp_all [extendsSum, extendsProduct, ArithOp.ofKindAt?]

theorem extendsSum_of_extendsComparison {k : Token.Kind} (h : extendsComparison k = false) :
    extendsSum k = false := by
  simp_all [extendsComparison]

theorem extendsComparison_of_extendsValue {k : Token.Kind} (h : extendsValue k = false) :
    extendsComparison k = false := by
  simp_all [extendsValue]

theorem ofKindAt?_one_of_extendsSum {k : Token.Kind} (h : extendsSum k = false) :
    ArithOp.ofKindAt? 1 k = none := by
  simp_all [extendsSum, ArithOp.ofKindAt?]

theorem compareOp_ofKind?_mark (op : CompareOp) :
    CompareOp.ofKind? (.mark op.mark) = some op := by
  cases op <;> decide

theorem productTail_stops {rest : List Token} (h : Stops extendsProduct rest) (t : Tree) :
    (productTail t rest).Yields t rest := by
  cases rest with
  | nil => simp [productTail]
  | cons k ks =>
    have hk : ArithOp.ofKindAt? 2 k.kind = none := by
      simpa [extendsProduct] using (stops_cons ..).mp h
    simp [productTail, hk]

theorem sumTail_stops {rest : List Token} (h : Stops extendsSum rest) (t : Tree) :
    (sumTail t rest).Yields t rest := by
  cases rest with
  | nil => simp [sumTail]
  | cons k ks => simp [sumTail, ofKindAt?_one_of_extendsSum ((stops_cons ..).mp h)]

theorem negated_literal {n m : Int64} (h : m.toInt = -n.toInt) : -n = m := by
  have hm := m.toInt_lt
  have hm' := m.le_toInt
  have hneg : (-n).toInt = m.toInt := by
    rw [Int64.toInt_neg, ← h]
    exact Int.bmod_eq_of_le (by omega) (by omega)
  exact Int64.toInt_inj.mp hneg

theorem negated_compound {t : Tree} (h : ∀ n shown q, t ≠ .literal n shown q) (p : Position) :
    t.negated p = .arith .mul (.literal (-1) false p) t false p := by
  cases t with
  | literal n shown q => exact absurd rfl (h n shown q)
  | _ => rfl

namespace Phrase

mutual

/-- A factor is taken whole, whatever follows. -/
theorem Factor.taken {ts : List Token} {t : Tree} :
    Factor ts t → ∀ rest, (factor (ts ++ rest)).Yields t rest
  | .integer n p, rest => by simp [factor]
  | .name s p, rest => by simp [factor]
  | .parens p q inner, rest => by
    have hinner := inner.extended (⟨.mark .closeParen, q⟩ :: rest) _ _ (by simp; decide)
      (sumTail_stops (by simp; decide) t)
    rw [List.cons_append, List.append_assoc]
    simp only [factor, Reply.yields_later, Reply.yields_andThen, Reply.yields_map,
      expectMark_yields]
    exact ⟨t, _, hinner, _, ⟨rfl, rfl⟩, rfl⟩
  | .plus p operand, rest => by
    have hoperand := operand.taken rest
    simpa [factor] using hoperand
  | .minusLiteral p operand opposite, rest => by
    have hoperand := operand.taken rest
    simp only [List.cons_append, factor, Reply.yields_later, Reply.yields_map]
    exact ⟨_, hoperand, by rw [Tree.negated, negated_literal opposite]⟩
  | .minus p operand compound, rest => by
    have hoperand := operand.taken rest
    simp only [List.cons_append, factor, Reply.yields_later, Reply.yields_map]
    exact ⟨_, hoperand, negated_compound compound p⟩

/-- A product is taken as far as its tail, and then the tail. -/
theorem Product.extended {ts : List Token} {t : Tree} :
    Product ts t → ∀ rest u more, (productTail t rest).Yields u more →
      (product (ts ++ rest)).Yields u more
  | .factor only, rest, u, more, hmore => by
    have honly := only.taken rest
    rw [product, Reply.yields_andMaybe]
    exact ⟨t, rest, honly, hmore⟩
  | @Product.step _ us _ _ op p left level right, rest, u, more, hmore => by
    have hright := right.taken rest
    have hop : ArithOp.ofKindAt? 2 (.mark op.mark) = some op := by
      rcases level with rfl | rfl <;> rfl
    have hleft := left.extended (⟨.mark op.mark, p⟩ :: (us ++ rest)) u more (by
      simp only [productTail, hop, Reply.yields_later, Reply.yields_andMaybe]
      exact ⟨_, _, hright, hmore⟩)
    rw [List.append_assoc, List.cons_append]
    exact hleft

theorem Sum.extended {ts : List Token} {t : Tree} :
    Sum ts t → ∀ rest u more, Stops extendsProduct rest → (sumTail t rest).Yields u more →
      (sum (ts ++ rest)).Yields u more
  | .product only, rest, u, more, hstop, hmore => by
    have honly := only.extended rest t rest (productTail_stops hstop t)
    rw [sum, Reply.yields_andMaybe]
    exact ⟨t, rest, honly, hmore⟩
  | @Sum.step _ us _ _ op p left level right, rest, u, more, hstop, hmore => by
    have hright := right.extended rest _ _ (productTail_stops hstop _)
    have hop : ArithOp.ofKindAt? 1 (.mark op.mark) = some op := by
      rcases level with rfl | rfl <;> rfl
    have hnot : extendsProduct (.mark op.mark) = false := by
      rcases level with rfl | rfl <;> rfl
    have hleft := left.extended (⟨.mark op.mark, p⟩ :: (us ++ rest)) u more (by simpa using hnot)
      (by
        simp only [sumTail, hop, Reply.yields_later, Reply.yields_andMaybe]
        exact ⟨_, _, hright, hmore⟩)
    rw [List.append_assoc, List.cons_append]
    exact hleft

end

/-- A sum is taken whole before anything that does not extend it. -/
theorem Sum.taken {ts : List Token} {t : Tree} (h : Sum ts t) (rest : List Token)
    (hstop : Stops extendsSum rest) : (sum (ts ++ rest)).Yields t rest :=
  h.extended rest t rest (hstop.mono fun _ => extendsProduct_of_extendsSum)
    (sumTail_stops hstop t)

theorem comparisonTail_stops {rest : List Token} (h : Stops extendsComparison rest) (t : Tree) :
    (comparisonTail t rest).Yields t rest := by
  cases rest with
  | nil => simp [comparisonTail]
  | cons k ks =>
    have hk : CompareOp.ofKind? k.kind = none := by
      have hk := (stops_cons ..).mp h
      simp_all [extendsComparison]
    simp [comparisonTail, hk]

/-- A comparison is taken whole before anything that does not extend it. -/
theorem Comparison.taken {ts : List Token} {t : Tree} (h : Comparison ts t)
    (rest : List Token) (hstop : Stops extendsComparison rest) :
    (comparison (ts ++ rest)).Yields t rest := by
  have hsum : Stops extendsSum rest := hstop.mono fun _ => extendsSum_of_extendsComparison
  cases h with
  | sum only =>
    rw [comparison, Reply.yields_andMaybe]
    exact ⟨t, rest, only.taken rest hsum, comparisonTail_stops hstop t⟩
  | @compare ts us l r op p left right =>
    have hleft := left.taken (⟨.mark op.mark, p⟩ :: (us ++ rest))
      (by cases op <;> simp <;> rfl)
    rw [List.append_assoc, List.cons_append, comparison, Reply.yields_andMaybe]
    refine ⟨l, _, hleft, ?_⟩
    simp only [comparisonTail, compareOp_ofKind?_mark, Reply.yields_later, Reply.yields_map]
    exact ⟨r, right.taken rest hsum, rfl⟩

theorem choice_taken {us vs rest : List Token} {y n : Tree} (test : Tree) (p q : Position)
    (hyes : Sum us y) (hno : Sum vs n) (hstop : Stops extendsSum rest) :
    (choice test p (us ++ ⟨.mark .colon, q⟩ :: (vs ++ rest))).Yields (.choose test y n p)
      rest := by
  have hus := hyes.taken (⟨.mark .colon, q⟩ :: (vs ++ rest)) (by simp; rfl)
  simp only [choice, Reply.yields_andThen, Reply.yields_map, expectMark_yields]
  exact ⟨y, _, hus, _, _, ⟨rfl, rfl⟩, n, hno.taken rest hstop, rfl⟩

/-- A value is taken whole, a comparison only where a choice follows. -/
theorem Value.taken {ts : List Token} {t : Tree} (h : Value ts t) (id : String) (p : Position)
    (rest : List Token) (hstop : Stops extendsValue rest) :
    ((comparison (ts ++ rest)).andMaybe fun value more _ =>
      valueTail id p value more).Yields t rest := by
  have hcomparison : Stops extendsComparison rest :=
    hstop.mono fun _ => extendsComparison_of_extendsValue
  rw [Reply.yields_andMaybe]
  cases h with
  | sum only =>
    refine ⟨t, rest, (Comparison.sum only).taken rest hcomparison, ?_⟩
    have hquiet := only.isQuiet.not_isComparison
    cases rest with
    | nil => simp [valueTail, hquiet]
    | cons k ks =>
      have hk : k.kind ≠ .mark .question := by
        have hk := (stops_cons ..).mp hstop
        simp_all [extendsValue]
      simp [valueTail, hk, hquiet]
  | @choice ts us vs c y n p q test yes no =>
    have hsum : Stops extendsSum rest := hcomparison.mono fun _ => extendsSum_of_extendsComparison
    have htest := test.taken
      (⟨.mark .question, p⟩ :: (us ++ ⟨.mark .colon, q⟩ :: (vs ++ rest))) (by simp; rfl)
    rw [List.append_assoc, List.cons_append, List.append_assoc, List.cons_append]
    refine ⟨c, _, htest, ?_⟩
    simp only [valueTail, if_true, Reply.yields_later]
    exact choice_taken c p q yes no hsum

/-- A statement starts with a token that neither extends a branch nor closes a block. -/
theorem Statement.head {ts : List Token} {t : Tree} (h : Statement ts t) :
    ∃ k ks, ts = k :: ks ∧ extendsBranch k.kind = false ∧ k.kind ≠ .mark .closeBrace := by
  cases h with
  | @shown k ts t q expression start =>
    refine ⟨k, _, rfl, ?_, ?_⟩
    · generalize k.kind = kind at start
      cases kind with
      | keyword w => exact start.elim
      | _ => rfl
    · intro hk
      rw [hk] at start
      exact start
  | _ => exact ⟨_, _, rfl, rfl, nofun⟩

theorem Statements.stops {ts rest : List Token} {body : List Tree} (h : Statements ts body)
    (hrest : Stops extendsBranch rest) : Stops extendsBranch (ts ++ rest) := by
  cases h with
  | nil => exact hrest
  | cons head tail =>
    obtain ⟨k, ks, rfl, hk, _⟩ := head.head
    simpa using hk

theorem Otherwise.stops {ts rest : List Token} {last : List Tree} (h : Otherwise ts last)
    (hrest : Stops (· == .keyword .elifWord) rest) :
    Stops (· == .keyword .elifWord) (ts ++ rest) := by
  cases h with
  | absent => exact hrest
  | block p block => simp

theorem Block.head {ts : List Token} {body : List Tree} (h : Block ts body) (rest : List Token) :
    Stops extendsComparison (ts ++ rest) := by
  cases h with
  | braces p q inner => simp; rfl

theorem assignment_taken {ts : List Token} {v : Tree} (h : Value ts v) (id : String)
    (p q r : Position) (rest : List Token) (hstop : Stops extendsValue rest) :
    (assignment p (⟨.identifier id, q⟩ :: ⟨.mark .equals, r⟩ :: (ts ++ rest))).Yields
      (.assign id v p) rest := by
  simp only [assignment, Reply.yields_andThen, Reply.yields_map, expectMark_yields,
    expectName_yields]
  exact ⟨id, _, ⟨q, rfl⟩, _, _, ⟨rfl, rfl⟩, v, h.taken id p rest hstop, rfl⟩

theorem shown_taken {k : Token} {ts rest : List Token} {t : Tree} (q : Position)
    (h : Sum (k :: ts) t) (hstart : StartsShown k.kind) :
    (statement (k :: (ts ++ ⟨.mark .semicolon, q⟩ :: rest))).Yields t.asShown rest := by
  have hsum := h.taken (⟨.mark .semicolon, q⟩ :: rest) (by simp; rfl)
  have hthen : ((sum (k :: (ts ++ ⟨.mark .semicolon, q⟩ :: rest))).andThen fun e more _ =>
      (expectMark .semicolon more).map fun _ => e.asShown).Yields t.asShown rest := by
    simp only [Reply.yields_andThen, Reply.yields_map, expectMark_yields]
    exact ⟨t, _, hsum, _, ⟨rfl, rfl⟩, rfl⟩
  unfold statement
  cases hk : k.kind with
  | integer n => simpa only [hk] using hthen
  | identifier s => simpa only [hk] using hthen
  | mark m =>
    rw [hk] at hstart
    cases m with
    | openParen => simpa only [hk] using hthen
    | _ => exact hstart.elim
  | _ =>
    rw [hk] at hstart
    exact hstart.elim

mutual

/-- A statement is taken whole before anything that is no further branch of it. -/
theorem Statement.taken {ts : List Token} {t : Tree} :
    Statement ts t → ∀ rest, Stops extendsBranch rest → (statement (ts ++ rest)).Yields t rest
  | .shown q expression start, rest, _ => by
    rw [List.cons_append, List.append_assoc]
    exact shown_taken q expression start
  | .assign id p q r s value, rest, _ => by
    have hassign := assignment_taken value id p q r
      (⟨.mark .semicolon, s⟩ :: rest) (by simp; rfl)
    rw [List.cons_append, List.cons_append, List.cons_append, List.append_assoc]
    simp only [statement, Reply.yields_later, Reply.yields_andThen, Reply.yields_map,
      expectMark_yields]
    exact ⟨_, _, hassign, _, ⟨rfl, rfl⟩, rfl⟩
  | @Statement.loop ts us b body p bound block, rest, _ => by
    have hblock := block.taken rest
    have hstop := (block.head rest).mono fun _ => extendsSum_of_extendsComparison
    rw [List.cons_append, List.append_assoc]
    simp only [statement, Reply.yields_later, Reply.yields_andThen, Reply.yields_map]
    exact ⟨b, _, bound.taken _ hstop, body, hblock, rfl⟩
  | @Statement.branch ts us vs ws c body last others p test block elifs otherwise, rest,
      hstop => by
    have hblock := block.taken (vs ++ (ws ++ rest))
    have helifs := elifs.taken (ws ++ rest)
      (otherwise.stops (hstop.mono (by simp_all [extendsBranch])))
    have hother := otherwise.taken rest (hstop.mono (by simp_all [extendsBranch]))
    rw [List.cons_append, List.append_assoc, List.append_assoc, List.append_assoc]
    simp only [statement, Reply.yields_later, Reply.yields_andThen, Reply.yields_andMaybe,
      Reply.yields_map]
    exact ⟨c, _, test.taken _ (block.head _), body, _, hblock, others, _, helifs, last, hother,
      rfl⟩

/-- The statements of a block are taken up to its brace. -/
theorem Statements.taken {ts : List Token} {body : List Tree} :
    Statements ts body → ∀ q rest,
      (Grammar.body (ts ++ ⟨.mark .closeBrace, q⟩ :: rest)).Yields body rest
  | .nil, q, rest => by simp [Grammar.body]
  | @Statements.cons ts us t more head tail, q, rest => by
    have hmore := tail.taken q rest
    have hhead := head.taken (us ++ ⟨.mark .closeBrace, q⟩ :: rest) (tail.stops (by simp; rfl))
    obtain ⟨k, ks, rfl, _, hk⟩ := head.head
    rw [List.append_assoc, List.cons_append] at *
    simp only [Grammar.body, hk, if_false, Reply.yields_andThen, Reply.yields_map]
    exact ⟨t, _, hhead, more, hmore, rfl⟩

theorem Block.taken {ts : List Token} {body : List Tree} :
    Block ts body → ∀ rest, (block (ts ++ rest)).Yields body rest
  | .braces p q inner, rest => by
    have hinner := inner.taken q rest
    rw [List.cons_append, List.append_assoc]
    simp only [block, Reply.yields_andThen, expectMark_yields]
    exact ⟨_, _, ⟨rfl, rfl⟩, hinner⟩

theorem Elifs.taken {ts : List Token} {others : List Branch} :
    Elifs ts others → ∀ rest, Stops (· == .keyword .elifWord) rest →
      (elifs (ts ++ rest)).Yields others rest
  | .nil, rest, hstop => by
    cases rest with
    | nil => simp [elifs]
    | cons k ks => simp_all [elifs]
  | @Elifs.cons ts us vs c body others p test block tail, rest, hstop => by
    have hblock := block.taken (vs ++ rest)
    have htail := tail.taken rest hstop
    rw [List.cons_append, List.append_assoc, List.append_assoc]
    simp only [elifs, if_true, Reply.yields_later, Reply.yields_andThen, Reply.yields_andMaybe,
      Reply.yields_map]
    exact ⟨c, _, test.taken _ (block.head _), body, _, hblock, others, htail, rfl⟩

theorem Otherwise.taken {ts : List Token} {last : List Tree} :
    Otherwise ts last → ∀ rest, Stops (· == .keyword .elseWord) rest →
      (otherwise (ts ++ rest)).Yields last rest
  | .absent, rest, hstop => by
    cases rest with
    | nil => simp [Grammar.otherwise]
    | cons k ks => simp_all [Grammar.otherwise]
  | .block p block, rest, hstop => by
    have hblock := block.taken rest
    simpa [Grammar.otherwise] using hblock

end

theorem Statements.eq_ok {ts : List Token} {body : List Tree} (h : Statements ts body) :
    statements ts = .ok body := by
  induction body generalizing ts with
  | nil =>
    cases h
    simp [statements]
  | cons t more ih =>
    cases h with
    | @cons ts us _ _ head tail =>
      have hmore := ih tail
      have htaken := head.taken us (by simpa using tail.stops (stops_nil _))
      obtain ⟨k, ks, rfl, _, _⟩ := head.head
      rw [List.cons_append] at htaken ⊢
      obtain ⟨hlt, hstatement⟩ := htaken
      rw [statements, hstatement]
      exact map_eq_ok.mpr ⟨more, hmore, rfl⟩

/-- A program that has a derivation is read as the tree of the derivation. -/
theorem Program.eq_ok {ts : List Token} {t : Tree} (h : Program ts t) : program ts = .ok t := by
  cases h with
  | statements all => exact map_eq_ok.mpr ⟨_, all.eq_ok, rfl⟩

end Phrase

/-- The rules accept exactly the scripts of the grammar, each with the tree of its derivation. -/
theorem program_eq_ok_iff {ts : List Token} (hu : Unsigned ts) (t : Tree) :
    program ts = .ok t ↔ Phrase.Program ts t := by
  constructor
  · intro h
    exact program_sound h hu
  · intro h
    exact h.eq_ok

/-- The tokens of `(2) - -x;`. -/
def doubleMinus : List Token :=
  [⟨.mark .openParen, ⟨1, 1⟩⟩, ⟨.integer 2, ⟨1, 2⟩⟩, ⟨.mark .closeParen, ⟨1, 3⟩⟩,
    ⟨.mark .minus, ⟨1, 5⟩⟩, ⟨.mark .minus, ⟨1, 7⟩⟩, ⟨.identifier "x", ⟨1, 8⟩⟩,
    ⟨.mark .semicolon, ⟨1, 9⟩⟩]

/-- A sign before a sign, and parentheses that leave no trace. -/
theorem program_doubleMinus :
    Unsigned doubleMinus ∧ Phrase.Program doubleMinus
      (.program [.arith .sub (.literal 2 false ⟨1, 2⟩)
        (.arith .mul (.literal (-1) false ⟨1, 7⟩) (.name "x" false ⟨1, 8⟩) false ⟨1, 7⟩)
        true ⟨1, 5⟩]) := by
  have hunsigned : Unsigned doubleMinus := by simp [Unsigned, doubleMinus]
  exact ⟨hunsigned, (program_eq_ok_iff hunsigned _).mp (by with_unfolding_all rfl)⟩

end Scriptlet.Grammar
