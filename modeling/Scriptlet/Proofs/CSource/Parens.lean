import Scriptlet.Proofs.CSource.ReadBack
import Scriptlet.Proofs.Grammar.Signs

/-!
The text of an expression has no parentheses too many. Tokens that read as the expression and
have an integer for each of its literals have at least the parentheses that the text has, so
none of those can be taken away. The integers matter: a sign in front of an operand can save a
pair, `a * -x` being read as `a * (-1 * x)`, but it makes a literal out of no integer.
-/
namespace Scriptlet

theorem Tree.literals_bare : {t : Tree} → t.IsArith → t.bare.literals = t.literals
  | .literal _ _ _, _ => rfl
  | .name _ _ _, _ => rfl
  | .arith _ _ _ _ _, h => by
    simp only [Tree.bare, Tree.literals, literals_bare h.1, literals_bare h.2]

namespace CSource

open Grammar

def integersIn (ks : List Token.Kind) : Nat :=
  ks.countP fun k => k.toClass == .integer

def parensIn (ks : List Token.Kind) : Nat :=
  ks.count (.mark .openParen)

section Counts

variable (ks ks' : List Token.Kind)

@[simp] theorem integersIn_nil : integersIn [] = 0 :=
  rfl

@[simp] theorem parensIn_nil : parensIn [] = 0 :=
  rfl

@[simp] theorem integersIn_append : integersIn (ks ++ ks') = integersIn ks + integersIn ks' :=
  List.countP_append

@[simp] theorem integersIn_mark (m : Mark) : integersIn (.mark m :: ks) = integersIn ks :=
  List.countP_cons_of_neg nofun

@[simp] theorem parensIn_append : parensIn (ks ++ ks') = parensIn ks + parensIn ks' :=
  List.count_append

@[simp] theorem parensIn_openParen :
    parensIn (.mark .openParen :: ks) = parensIn ks + 1 :=
  List.count_cons_self

theorem parensIn_cons_of_ne {k : Token.Kind} (h : k ≠ .mark .openParen) :
    parensIn (k :: ks) = parensIn ks :=
  List.count_cons_of_ne h

@[simp] theorem parensIn_operator (op : ArithOp) : parensIn (.mark op.mark :: ks) = parensIn ks :=
  parensIn_cons_of_ne ks (by cases op <;> simp [ArithOp.mark])

end Counts

/-- The kinds of an operand that has to hold together at the level. -/
def Code.kindsAt (level : Nat) (c : Code) : List Token.Kind :=
  bracketed (decide (c.tightness < level)) c.kinds

theorem kinds_arith (op : ArithOp) (l r : Code) : (Code.arith op l r).kinds =
    l.kindsAt op.precedence ++ .mark op.mark :: r.kindsAt (op.precedence + 1) := by
  rw [Code.kinds, needsParens_left, needsParens_right, Code.kindsAt, Code.kindsAt]

theorem kindsAt_of_le {level : Nat} {c : Code} (h : level ≤ c.tightness) :
    c.kindsAt level = c.kinds := by
  simp [Code.kindsAt, bracketed, Nat.not_lt.mpr h]

theorem kindsAt_arith (op : ArithOp) (l r : Code) :
    (Code.arith op l r).kindsAt op.precedence = (Code.arith op l r).kinds :=
  kindsAt_of_le (Nat.le_refl _)

theorem one_le_tightness (c : Code) : 1 ≤ c.tightness := by
  cases c with
  | arith op l r => cases op <;> simp [Code.tightness, ArithOp.precedence]
  | _ => simp [Code.tightness]

@[simp] theorem integersIn_bracketed (needed : Bool) (ks : List Token.Kind) :
    integersIn (bracketed needed ks) = integersIn ks := by
  cases needed with
  | false => rfl
  | true => simp [bracketed]

theorem parensIn_bracketed (needed : Bool) (ks : List Token.Kind) :
    parensIn (bracketed needed ks) = parensIn ks + needed.toNat := by
  cases needed with
  | false => rfl
  | true => simp [bracketed, parensIn_cons_of_ne]

/-- A level that asks for more gets at least as many parentheses, and one pair is enough. -/
theorem parensIn_kindsAt_mono {m n : Nat} (h : m ≤ n) (c : Code) :
    parensIn (c.kindsAt m) ≤ parensIn (c.kindsAt n) := by
  simp only [Code.kindsAt, parensIn_bracketed]
  by_cases hm : c.tightness < m
  · have hn : c.tightness < n := by omega
    simp [hm, hn]
  · simp [hm]

/-- A level asks for at most one more parenthesis. -/
theorem parensIn_kindsAt_le (level : Nat) (c : Code) :
    parensIn (c.kindsAt level) ≤ parensIn c.kinds + 1 := by
  have hone := Bool.toNat_le (decide (c.tightness < level))
  rw [Code.kindsAt, parensIn_bracketed]
  omega

/-- The code of an expression has an integer for each literal. -/
theorem Drafted.integersIn_kinds {t : Tree} {c : Code} (h : Drafted t c) (ha : t.IsArith) :
    integersIn c.kinds = t.literals.length := by
  induction h with
  | literal n shown p =>
    rw [Code.kinds]
    split <;> rfl
  | name id shown p => rfl
  | arith op shown p left right ihl ihr =>
    simp [kinds_arith, Code.kindsAt, Tree.literals, ihl ha.1, ihr ha.2]
  | compare => exact ha.elim
  | choose => exact ha.elim

/-- The code does not depend on the places in the tree. -/
theorem Drafted.bare {t : Tree} {c : Code} (h : Drafted t c) : Drafted t.bare c := by
  induction h with
  | literal n shown p => exact .literal n false .start
  | name id shown p => exact .name id false .start
  | arith op shown p left right ihl ihr => exact .arith op false .start ihl ihr
  | compare op p left right ihl ihr => exact .compare op .start ihl ihr
  | choose p test yes no iht ihy ihn => exact .choose .start iht ihy ihn

/-- An expression has one code. -/
theorem Drafted.unique {t : Tree} {c c' : Code} (h : Drafted t c) (h' : Drafted t c') : c = c' := by
  induction h generalizing c' with
  | literal n shown p => cases h'; rfl
  | name id shown p => cases h'; rfl
  | arith op shown p left right ihl ihr =>
    cases h' with
    | arith _ _ _ left' right' => rw [ihl left', ihr right']
  | compare op p left right ihl ihr =>
    cases h' with
    | compare _ _ left' right' => rw [ihl left', ihr right']
  | choose p test yes no iht ihy ihn =>
    cases h' with
    | choose _ test' yes' no' => rw [iht test', ihy yes', ihn no']

/-- Tokens for an expression at a level: they have no more integers than it has literals, and
with as many they have at least the parentheses of its text there. -/
def Costs (level : Nat) (ts : List Token) (t : Tree) : Prop :=
  integersIn (ts.map Token.kind) ≤ t.literals.length ∧
    ∀ c, Drafted t c → t.literals.length ≤ integersIn (ts.map Token.kind) →
      parensIn (c.kindsAt level) ≤ parensIn (ts.map Token.kind)

theorem Costs.mono {m n : Nat} {ts : List Token} {t : Tree} (hle : m ≤ n) (h : Costs n ts t) :
    Costs m ts t :=
  ⟨h.1, fun c hc hcount => Nat.le_trans (parensIn_kindsAt_mono hle c) (h.2 c hc hcount)⟩

theorem Costs.parens {ts : List Token} {t : Tree} (h : Costs 1 ts t) (level : Nat)
    (p q : Position) :
    Costs level (⟨.mark .openParen, p⟩ :: (ts ++ [⟨.mark .closeParen, q⟩])) t := by
  constructor
  · simpa using h.1
  · intro c hc hcount
    have hinner := h.2 c hc (by simpa using hcount)
    rw [kindsAt_of_le (one_le_tightness c)] at hinner
    have hpair := parensIn_kindsAt_le level c
    simp only [List.map_cons, List.map_append, parensIn_openParen, parensIn_append]
    omega

/-- An operation costs what its operands do, the right one at a tighter level. -/
theorem Costs.operation (op : ArithOp) {ts us : List Token} {l r : Tree}
    (hl : Costs op.precedence ts l) (hr : Costs (op.precedence + 1) us r) (shown : Bool)
    (p q : Position) :
    Costs op.precedence (ts ++ ⟨.mark op.mark, p⟩ :: us) (.arith op l r shown q) := by
  have hlmost := hl.1
  have hrmost := hr.1
  constructor
  · simp only [List.map_append, List.map_cons, integersIn_append, integersIn_mark, Tree.literals,
      List.length_append]
    omega
  · intro c hc hcount
    simp only [List.map_append, List.map_cons, integersIn_append, integersIn_mark, Tree.literals,
      List.length_append] at hcount
    cases hc with
    | arith _ _ _ left right =>
      have hleft := hl.2 _ left (by omega)
      have hright := hr.2 _ right (by omega)
      rw [kindsAt_arith, kinds_arith]
      simp only [List.map_append, List.map_cons, parensIn_append, parensIn_operator]
      omega

theorem costs_literal {level : Nat} {ts : List Token} {n : Int64} {shown : Bool} {p : Position}
    (h : integersIn (ts.map Token.kind) ≤ 1) (hle : level ≤ 3) :
    Costs level ts (.literal n shown p) := by
  refine ⟨h, fun c hc _ => ?_⟩
  cases hc
  rw [kindsAt_of_le hle, Code.kinds]
  have hnone :
      parensIn (if n.toInt < 0 then [.mark .minus, .integer (-n)] else [.integer n]) = 0 := by
    split <;> rfl
  rw [hnone]
  exact Nat.zero_le _

mutual

/-- Factors cost at least their text; products and sums do so at their own levels. -/
theorem factor_costs {ts : List Token} {t : Tree} : Phrase.Factor ts t → Costs 3 ts t
  | .integer n p => costs_literal (Nat.le_refl 1) (Nat.le_refl 3)
  | .name s p => by
    refine ⟨Nat.le_refl 0, fun c hc _ => ?_⟩
    cases hc
    exact Nat.zero_le _
  | .parens p q inner => (sum_costs inner).parens 3 p q
  | .plus p operand => by
    obtain ⟨hmost, hleast⟩ := factor_costs operand
    refine ⟨by simpa using hmost, fun c hc hcount => ?_⟩
    have hparens := hleast c hc (by simpa using hcount)
    simpa [parensIn_cons_of_ne] using hparens
  | .minusLiteral p operand _ =>
    costs_literal (by simpa [Tree.literals] using (factor_costs operand).1) (Nat.le_refl 3)
  | .minus p operand _ => by
    -- The literal that the sign makes has no integer among the tokens.
    have hmost := (factor_costs operand).1
    refine ⟨?_, fun c _ hcount => absurd hcount ?_⟩
    · simp only [List.map_cons, integersIn_mark, Tree.literals, List.length_append]
      omega
    · simp only [List.map_cons, integersIn_mark, Tree.literals, List.length_append,
        List.length_singleton]
      omega

theorem product_costs {ts : List Token} {t : Tree} : Phrase.Product ts t → Costs 2 ts t
  | .factor only => (factor_costs only).mono (by omega)
  | .step p left level right => by
    have hl := product_costs left
    have hr := factor_costs right
    rcases level with rfl | rfl
    · exact Costs.operation .mul hl hr false p p
    · exact Costs.operation .div hl hr false p p

theorem sum_costs {ts : List Token} {t : Tree} : Phrase.Sum ts t → Costs 1 ts t
  | .product only => (product_costs only).mono (by omega)
  | .step p left level right => by
    have hl := sum_costs left
    have hr := product_costs right
    rcases level with rfl | rfl
    · exact Costs.operation .add hl hr false p p
    · exact Costs.operation .sub hl hr false p p

end

/-- Trees that differ in places and marks only have the same code. -/
theorem Drafted.of_bare_eq {t t' : Tree} {c : Code} (h : Drafted t c) (ha : t'.IsArith)
    (hbare : t'.bare = t.bare) : Drafted t' c := by
  obtain ⟨c', h'⟩ := exists_drafted ha.isExpression
  have hsame : Drafted t.bare c' := hbare ▸ h'.bare
  rw [h.bare.unique hsame]
  exact h'

/-- Fewer parentheses, with the same integers, are read as another expression. -/
theorem Drafted.bare_ne {t t' : Tree} {c : Code} (h : Drafted t c) (ha : t.IsArith)
    {ts : List Token} (hsum : Phrase.Sum ts t')
    (hintegers : integersIn (ts.map Token.kind) = integersIn c.kinds)
    (hparens : parensIn (ts.map Token.kind) < parensIn c.kinds) : t'.bare ≠ t.bare := by
  intro hbare
  have ha' : t'.IsArith := hsum.isQuiet.isArith
  have hliterals : t'.literals = t.literals := by
    rw [← Tree.literals_bare ha', hbare, Tree.literals_bare ha]
  have hcode := h.of_bare_eq ha' hbare
  have hcount : integersIn (ts.map Token.kind) = t'.literals.length := by
    rw [hintegers, h.integersIn_kinds ha, hliterals]
  have hleast := (sum_costs hsum).2 c hcode (Nat.le_of_eq hcount.symm)
  rw [kindsAt_of_le (one_le_tightness c)] at hleast
  omega

/-- No parentheses in the text of an expression can be taken away: without any opening one and
any closing one after it, matching or not, the tokens are not read to their end, or they are read
as another expression. -/
theorem parens_needed (step : Nat) (t : Tree) (d : Draft) (ha : t.IsArith) (hw : t.IsWritable)
    (hnames : ∀ id ∈ t.names, d.bindings.contains id = true) :
    ∃ code ts, Gives (t.draft .value) d code d ∧ Token.scan (code.text step 0) = .ok ts ∧
      (∃ t', (sum ts).Yields t' [] ∧ t'.bare = t.bare) ∧
      ∀ before inner after p q,
        ts = before ++ ⟨.mark .openParen, p⟩ :: (inner ++ ⟨.mark .closeParen, q⟩ :: after) →
        ∀ t', (sum (before ++ inner ++ after)).Yields t' [] → t'.bare ≠ t.bare := by
  obtain ⟨code, hdraft⟩ := exists_drafted ha.isExpression
  have hgives := (gives_draft ha.isExpression d d code).mpr ⟨hdraft, hnames, rfl⟩
  have hspells := hdraft.writes hw step [] [] (by simp [Lexeme.Apart]) Lexeme.spells_nil
  rw [List.append_nil, List.append_nil] at hspells
  obtain ⟨ts, hscan, hkinds⟩ := Token.exists_scan hspells
  obtain ⟨t₀, hbare, hsum⟩ := hdraft.sum ha hw hkinds
  have htaken := hsum.taken [] (stops_nil _)
  rw [List.append_nil] at htaken
  refine ⟨code, ts, hgives, hscan, ⟨t₀, htaken, hbare⟩, ?_⟩
  rintro before inner after p q rfl t' hyields
  have hunsigned : Unsigned (before ++ inner ++ after) := by
    have hall := Token.scan_unsigned hscan
    have hrest := hall.right.tail
    intro k hk
    rcases List.mem_append.mp hk with hk | hk
    · rcases List.mem_append.mp hk with hk | hk
      · exact hall.left k hk
      · exact hrest.left k hk
    · exact hrest.right.tail k hk
  obtain ⟨used, hused, hphrase⟩ := sum_sound _ t' [] hyields hunsigned
  rw [List.append_nil] at hused
  subst hused
  refine hdraft.bare_ne ha hphrase ?_ ?_
  · simp [← hkinds]
  · simp [← hkinds, parensIn_cons_of_ne]

/-- The tree of `x * (-1 * x)`. -/
def signedRight : Tree :=
  .arith .mul (.name "x" false ⟨1, 1⟩)
    (.arith .mul (.literal (-1) false ⟨1, 7⟩) (.name "x" false ⟨1, 11⟩) false ⟨1, 9⟩)
    false ⟨1, 3⟩

def signedRightBefore : List Token :=
  [⟨.identifier "x", ⟨1, 1⟩⟩, ⟨.mark .star, ⟨1, 3⟩⟩]

def signedRightInner : List Token :=
  [⟨.mark .minus, ⟨1, 6⟩⟩, ⟨.integer 1, ⟨1, 7⟩⟩, ⟨.mark .star, ⟨1, 9⟩⟩, ⟨.identifier "x", ⟨1, 11⟩⟩]

/-- Without the parentheses the products are grouped to the left. -/
theorem signedRight_parens_needed :
    signedRight.IsArith ∧ signedRight.IsWritable ∧
    Token.scan "x * (-1 * x)" = .ok (signedRightBefore ++ ⟨.mark .openParen, ⟨1, 5⟩⟩ ::
      (signedRightInner ++ ⟨.mark .closeParen, ⟨1, 12⟩⟩ :: [])) ∧
    ∃ t', (sum (signedRightBefore ++ signedRightInner ++ [])).Yields t' [] ∧
      t'.bare ≠ signedRight.bare := by
  have hx : Token.scan "x" = .ok [⟨.identifier "x", .start⟩] := by with_unfolding_all rfl
  have harith : signedRight.IsArith := by simp [signedRight, Tree.IsArith]
  have hw : signedRight.IsWritable := by
    simp only [signedRight, Tree.IsWritable, hx, true_and, and_true]
    decide
  have hscan : Token.scan "x * (-1 * x)" = .ok (signedRightBefore ++ ⟨.mark .openParen, ⟨1, 5⟩⟩ ::
      (signedRightInner ++ ⟨.mark .closeParen, ⟨1, 12⟩⟩ :: [])) := by with_unfolding_all rfl
  have hyields : (sum (signedRightBefore ++ signedRightInner ++ [])).Yields
      (.arith .mul (.arith .mul (.name "x" false ⟨1, 1⟩) (.literal (-1) false ⟨1, 7⟩) false ⟨1, 3⟩)
        (.name "x" false ⟨1, 11⟩) false ⟨1, 9⟩) [] := ⟨by decide, by with_unfolding_all rfl⟩
  obtain ⟨code, ts, hgives, hts, _, hneeded⟩ := parens_needed 4 signedRight
    ⟨Bindings.empty.define "x" (.integer 3), {}⟩ harith hw
    (by simp [signedRight, Bindings.contains_define])
  have hcode := ((gives_draft harith.isExpression ..).mp hgives).1
  obtain rfl := hcode.unique (.arith .mul false ⟨1, 3⟩ (.name "x" false ⟨1, 1⟩)
    (.arith .mul false ⟨1, 9⟩ (.literal (-1) false ⟨1, 7⟩) (.name "x" false ⟨1, 11⟩)))
  have htext : Code.text 4 (.arith .mul (.var "x") (.arith .mul (.number (-1)) (.var "x"))) 0 =
      "x * (-1 * x)" := rfl
  rw [htext, hscan] at hts
  exact ⟨harith, hw, hscan, _, hyields, hneeded _ _ _ _ _ (Except.ok.inj hts).symm _ hyields⟩

end CSource

end Scriptlet
