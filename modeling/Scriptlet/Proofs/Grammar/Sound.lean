import Mathlib.Algebra.Group.Int.Defs
import Scriptlet.Proofs.Grammar.Yields
import Scriptlet.Proofs.Grammar.Phrase

/-!
What a rule takes is a phrase of its kind. The induction is the recursion of the rules
themselves; a rule that goes on from an operand already read is stated for any tokens of
that operand. Folding a minus sign into a literal is exact because no literal
read from unsigned integers is the least one.
-/
namespace Scriptlet.Grammar

/-- No integer among the tokens is negative: signs are tokens of their own. -/
def Unsigned (ts : List Token) : Prop :=
  ∀ k ∈ ts, ∀ n, k.kind = .integer n → 0 ≤ n.toInt

theorem Unsigned.tail {k : Token} {ts : List Token} (h : Unsigned (k :: ts)) : Unsigned ts :=
  fun k' hk' => h k' (List.mem_cons_of_mem _ hk')

theorem Unsigned.left {ts us : List Token} (h : Unsigned (ts ++ us)) : Unsigned ts :=
  fun k hk => h k (List.mem_append_left _ hk)

theorem Unsigned.right {ts us : List Token} (h : Unsigned (ts ++ us)) : Unsigned us :=
  fun k hk => h k (List.mem_append_right _ hk)

namespace Phrase

mutual

/-- The least integer has no literal: a sign only ever meets the others. -/
theorem Factor.literal_gt {ts : List Token} {t : Tree} {n : Int64} {shown : Bool}
    {q : Position} : Factor ts t → Unsigned ts → t = .literal n shown q → -2 ^ 63 < n.toInt
  | .integer m p, hu, rfl => by
    have hm := hu _ (List.mem_singleton.mpr rfl) m rfl
    omega
  | .parens p q inner, hu, ht => inner.literal_gt hu.tail.left ht
  | .plus p operand, hu, ht => operand.literal_gt hu.tail ht
  | .minusLiteral (n := k) p operand opposite, hu, rfl => by
    have hk := k.toInt_lt
    omega

theorem Product.literal_gt {ts : List Token} {t : Tree} {n : Int64} {shown : Bool}
    {q : Position} : Product ts t → Unsigned ts → t = .literal n shown q → -2 ^ 63 < n.toInt
  | .factor only, hu, ht => only.literal_gt hu ht

theorem Sum.literal_gt {ts : List Token} {t : Tree} {n : Int64} {shown : Bool}
    {q : Position} : Sum ts t → Unsigned ts → t = .literal n shown q → -2 ^ 63 < n.toInt
  | .product only, hu, ht => only.literal_gt hu ht

end

theorem toInt_neg_of_gt {n : Int64} (h : -2 ^ 63 < n.toInt) : (-n).toInt = -n.toInt := by
  rw [Int64.toInt_neg]
  have hlt := n.toInt_lt
  exact Int.bmod_eq_of_le (by omega) (by omega)

/-- The tree of a sign is the one the grammar gives it. -/
theorem Factor.negated {ts : List Token} {t : Tree} (p : Position) (h : Factor ts t)
    (hu : Unsigned ts) : Factor (⟨.mark .minus, p⟩ :: ts) (t.negated p) := by
  cases t with
  | literal n shown q => exact .minusLiteral p h (toInt_neg_of_gt (h.literal_gt hu rfl))
  | _ => exact .minus p h (fun _ _ _ => nofun)

end Phrase

theorem Phrase.Factor.ne_nil {ts : List Token} {t : Tree} (h : Phrase.Factor ts t) : ts ≠ [] := by
  cases h <;> simp

theorem Phrase.Product.ne_nil {ts : List Token} {t : Tree} (h : Phrase.Product ts t) :
    ts ≠ [] := by
  cases h with
  | factor only => exact only.ne_nil
  | step => simp

theorem Phrase.Sum.ne_nil {ts : List Token} {t : Tree} (h : Phrase.Sum ts t) : ts ≠ [] := by
  cases h with
  | product only => exact only.ne_nil
  | step => simp

/-- An operator of a level is found at its own mark. -/
theorem ofKindAt?_eq_some {level : Nat} {k : Token.Kind} {op : ArithOp}
    (h : ArithOp.ofKindAt? level k = some op) : k = .mark op.mark ∧ op.precedence = level := by
  unfold ArithOp.ofKindAt? at h
  rw [Option.filter_eq_some_iff] at h
  obtain ⟨hop, hlevel⟩ := h
  have hfound := List.find?_some hop
  exact ⟨by simpa using hfound, by simpa using hlevel⟩

theorem precedence_eq_two {op : ArithOp} (h : op.precedence = 2) : op = .mul ∨ op = .div := by
  cases op <;> simp_all [ArithOp.precedence]

theorem precedence_eq_one {op : ArithOp} (h : op.precedence = 1) : op = .add ∨ op = .sub := by
  cases op <;> simp_all [ArithOp.precedence]

/-- Whatever `reply` gives for `ts`, it took a phrase of this kind from their front. -/
def TakesOnly {α : Type} (phrase : List Token → α → Prop) (ts : List Token) {n : Nat}
    (reply : Reply α n) : Prop :=
  ∀ a rest, reply.Yields a rest → Unsigned ts → ∃ used, ts = used ++ rest ∧ phrase used a

namespace TakesOnly

variable {α : Type} {phrase : List Token → α → Prop} {ts : List Token} {n : Nat} {a : α}

theorem stuck (e : GrammarError) (rest : List Token) :
    TakesOnly phrase ts (.stuck e rest : Reply α n) := by
  intro a rest' hy
  simp at hy

theorem none {h : ts.length < n} (ha : phrase [] a) : TakesOnly phrase ts (.done a ts h) := by
  intro a' rest hy _
  obtain ⟨rfl, rfl⟩ := (Reply.yields_done ..).mp hy
  exact ⟨[], rfl, ha⟩

theorem one {k : Token} {h : ts.length < n} (ha : phrase [k] a) :
    TakesOnly phrase (k :: ts) (.done a ts h) := by
  intro a' rest hy _
  obtain ⟨rfl, rfl⟩ := (Reply.yields_done ..).mp hy
  exact ⟨[k], rfl, ha⟩

end TakesOnly

/-- Whatever `reply` gives for `ts`, what it took makes a phrase that ended before `ts` with
the tree `left` a longer phrase of the same kind. -/
def Extends (phrase : List Token → Tree → Prop) (left : Tree) (ts : List Token) {n : Nat}
    (reply : Reply Tree n) : Prop :=
  ∀ taken, phrase taken left → TakesOnly (fun used t => phrase (taken ++ used) t) ts reply

section Level

variable {phrase operand : List Token → Tree → Prop}
  {tail : Tree → (ts : List Token) → Reply Tree (ts.length + 1)}

/-- A level of operators is an operand and what extends it. -/
theorem takesOnly_level {ts : List Token} {reply : Reply Tree ts.length}
    (hone : ∀ used t, operand used t → phrase used t) (hreply : TakesOnly operand ts reply)
    (htail : ∀ left rest, rest.length < ts.length → Extends phrase left rest (tail left rest)) :
    TakesOnly phrase ts (reply.andMaybe fun left rest _ => tail left rest) := by
  intro t rest hy hu
  obtain ⟨left, mid, hleft, hmore⟩ := (Reply.yields_andMaybe ..).mp hy
  obtain ⟨first, hts, hfirst⟩ := hreply left mid hleft hu
  subst hts
  obtain ⟨second, hmid, hsecond⟩ :=
    htail left mid hleft.length_lt first (hone _ _ hfirst) t rest hmore hu.right
  exact ⟨first ++ second, by simp [hmid], hsecond⟩

theorem extends_none {left : Tree} {ts : List Token} {h : ts.length < ts.length + 1} :
    Extends phrase left ts (.done left ts h) := by
  intro taken htaken
  exact .none (by simpa using htaken)

/-- One operator with its right operand, and what extends the result. -/
theorem extends_step {left : Tree} {op : ArithOp} {k : Token} {ts : List Token}
    {reply : Reply Tree ts.length} (hk : k.kind = .mark op.mark)
    (hstep : ∀ taken used right, phrase taken left → operand used right →
      phrase (taken ++ ⟨.mark op.mark, k.pos⟩ :: used) (.arith op left right false k.pos))
    (hreply : TakesOnly operand ts reply)
    (htail : ∀ right rest, rest.length < ts.length →
      Extends phrase (.arith op left right false k.pos) rest
        (tail (.arith op left right false k.pos) rest)) :
    Extends phrase left (k :: ts) (reply.andMaybe fun right rest _ =>
      tail (.arith op left right false k.pos) rest).later.later := by
  intro taken htaken t rest hy hu
  simp only [Reply.yields_later, Reply.yields_andMaybe] at hy
  obtain ⟨right, mid, hright, hmore⟩ := hy
  obtain ⟨first, hts, hfirst⟩ := hreply right mid hright hu.tail
  subst hts
  obtain ⟨second, hmid, hsecond⟩ :=
    htail right mid hright.length_lt _ (hstep taken first right htaken hfirst) t rest hmore
      hu.tail.right
  refine ⟨⟨.mark op.mark, k.pos⟩ :: (first ++ second), ?_, by simpa using hsecond⟩
  rw [← hk]
  simp [hmid]

end Level

section Factor

variable {ts : List Token} (p : Position)

/-- What is taken in parentheses is a factor, if what is taken inside is a sum. -/
theorem parens_sound (hsum : TakesOnly Phrase.Sum ts (sum ts)) :
    TakesOnly Phrase.Factor (⟨.mark .openParen, p⟩ :: ts) (Reply.later <|
      (sum ts).andThen fun e rest _ => (expectMark .closeParen rest).map fun _ => e) := by
  intro t rest hy hu
  simp only [Reply.yields_later, Reply.yields_andThen, Reply.yields_map, expectMark_yields] at hy
  obtain ⟨e, mid, he, ⟨kind, q⟩, ⟨rfl, rfl⟩, rfl⟩ := hy
  obtain ⟨used, rfl, hused⟩ := hsum e _ he hu.tail
  exact ⟨⟨.mark .openParen, p⟩ :: (used ++ [⟨.mark .closeParen, q⟩]), by simp, .parens p q hused⟩

theorem plus_sound (hfactor : TakesOnly Phrase.Factor ts (factor ts)) :
    TakesOnly Phrase.Factor (⟨.mark .plus, p⟩ :: ts) (factor ts).later := by
  intro t rest hy hu
  obtain ⟨used, rfl, hused⟩ := hfactor t rest ((Reply.yields_later ..).mp hy) hu.tail
  exact ⟨⟨.mark .plus, p⟩ :: used, rfl, .plus p hused⟩

theorem minus_sound (hfactor : TakesOnly Phrase.Factor ts (factor ts)) :
    TakesOnly Phrase.Factor (⟨.mark .minus, p⟩ :: ts)
      ((factor ts).map (Tree.negated p)).later := by
  intro t rest hy hu
  simp only [Reply.yields_later, Reply.yields_map] at hy
  obtain ⟨e, he, rfl⟩ := hy
  obtain ⟨used, rfl, hused⟩ := hfactor e rest he hu.tail
  exact ⟨⟨.mark .minus, p⟩ :: used, rfl, hused.negated p hu.tail.left⟩

end Factor

mutual

/-- Whatever the rule for factors takes is a factor. -/
theorem factor_sound : (ts : List Token) → TakesOnly Phrase.Factor ts (factor ts)
  | [] => by
    rw [factor]
    exact .stuck _ _
  | ⟨kind, p⟩ :: ts => by
    rw [factor]
    cases kind with
    | integer n => exact .one (.integer n p)
    | identifier s => exact .one (.name s p)
    | keyword w => cases w <;> exact .stuck _ _
    | mark m =>
      cases m with
      | openParen => exact parens_sound p (sum_sound ts)
      | plus => exact plus_sound p (factor_sound ts)
      | minus => exact minus_sound p (factor_sound ts)
      | _ => exact .stuck _ _
    | trivia t => exact .stuck _ _
termination_by ts => 3 * ts.length

theorem product_sound (ts : List Token) : TakesOnly Phrase.Product ts (product ts) := by
  rw [product]
  exact takesOnly_level (fun _ _ => .factor) (factor_sound ts)
    fun left rest _ => productTail_sound left rest
termination_by 3 * ts.length + 1

theorem productTail_sound (left : Tree) :
    (ts : List Token) → Extends Phrase.Product left ts (productTail left ts)
  | [] => by
    rw [productTail]
    exact extends_none
  | k :: ts => by
    rw [productTail]
    cases hop : ArithOp.ofKindAt? 2 k.kind with
    | none => exact extends_none
    | some op =>
      obtain ⟨hk, hlevel⟩ := ofKindAt?_eq_some hop
      exact extends_step hk (fun _ _ _ hl hr => .step k.pos hl (precedence_eq_two hlevel) hr)
        (factor_sound ts) fun right rest _ => productTail_sound _ rest
termination_by ts => 3 * ts.length

/-- Whatever the rule for sums takes is a sum. -/
theorem sum_sound (ts : List Token) : TakesOnly Phrase.Sum ts (sum ts) := by
  rw [sum]
  exact takesOnly_level (fun _ _ => .product) (product_sound ts)
    fun left rest _ => sumTail_sound left rest
termination_by 3 * ts.length + 2

theorem sumTail_sound (left : Tree) :
    (ts : List Token) → Extends Phrase.Sum left ts (sumTail left ts)
  | [] => by
    rw [sumTail]
    exact extends_none
  | k :: ts => by
    rw [sumTail]
    cases hop : ArithOp.ofKindAt? 1 k.kind with
    | none => exact extends_none
    | some op =>
      obtain ⟨hk, hlevel⟩ := ofKindAt?_eq_some hop
      exact extends_step hk (fun _ _ _ hl hr => .step k.pos hl (precedence_eq_one hlevel) hr)
        (product_sound ts) fun right rest _ => sumTail_sound _ rest
termination_by ts => 3 * ts.length

end

theorem compareOp_ofKind?_eq_some {k : Token.Kind} {op : CompareOp}
    (h : CompareOp.ofKind? k = some op) : k = .mark op.mark := by
  have hfound := List.find?_some h
  simpa using hfound

theorem comparison_sound (ts : List Token) :
    TakesOnly Phrase.Comparison ts (comparison ts) := by
  intro t rest hy hu
  simp only [comparison, Reply.yields_andMaybe] at hy
  obtain ⟨left, mid, hleft, hmore⟩ := hy
  obtain ⟨first, rfl, hfirst⟩ := sum_sound ts left mid hleft hu
  cases mid with
  | nil =>
    obtain ⟨rfl, rfl⟩ := (Reply.yields_done ..).mp hmore
    exact ⟨first, rfl, .sum hfirst⟩
  | cons k ks =>
    cases hop : CompareOp.ofKind? k.kind with
    | none =>
      simp only [comparisonTail, hop, Reply.yields_done] at hmore
      obtain ⟨rfl, rfl⟩ := hmore
      exact ⟨first, rfl, .sum hfirst⟩
    | some op =>
      simp only [comparisonTail, hop, Reply.yields_later, Reply.yields_map] at hmore
      obtain ⟨right, hright, rfl⟩ := hmore
      obtain ⟨second, rfl, hsecond⟩ := sum_sound ks right rest hright hu.right.tail
      refine ⟨first ++ k :: second, by simp, ?_⟩
      simpa [← compareOp_ofKind?_eq_some hop] using
        Phrase.Comparison.compare op k.pos hfirst hsecond

theorem Phrase.Comparison.sum_of_not_isComparison {ts : List Token} {t : Tree}
    (h : Phrase.Comparison ts t) (hnot : t.isComparison = false) : Phrase.Sum ts t := by
  cases h with
  | sum only => exact only
  | compare => simp [Tree.isComparison] at hnot

theorem choice_sound (test : Tree) (p : Position) (ts : List Token) :
    TakesOnly (fun used t => ∃ us vs q y n, used = us ++ ⟨.mark .colon, q⟩ :: vs ∧
      Phrase.Sum us y ∧ Phrase.Sum vs n ∧ t = .choose test y n p) ts (choice test p ts) := by
  intro t rest hy hu
  simp only [choice, Reply.yields_andThen, Reply.yields_map, expectMark_yields] at hy
  obtain ⟨y, mid, hyes, colon, last, ⟨rfl, hcolon⟩, n, hno, rfl⟩ := hy
  obtain ⟨us, rfl, hus⟩ := sum_sound ts y _ hyes hu
  obtain ⟨vs, rfl, hvs⟩ := sum_sound last n rest hno hu.right.tail
  exact ⟨us ++ colon :: vs, by simp, us, vs, colon.pos, y, n, by rw [← hcolon], hus, hvs, rfl⟩

/-- The value of an assignment is a sum or a choice: a bare comparison is not taken. -/
theorem value_sound (id : String) (p : Position) (ts : List Token) :
    TakesOnly Phrase.Value ts
      ((comparison ts).andMaybe fun value rest _ => valueTail id p value rest) := by
  intro t rest hy hu
  obtain ⟨value, mid, hvalue, hmore⟩ := (Reply.yields_andMaybe ..).mp hy
  obtain ⟨first, rfl, hfirst⟩ := comparison_sound ts value mid hvalue hu
  cases mid with
  | nil =>
    cases hc : value.isComparison <;> simp [valueTail, hc] at hmore
    obtain ⟨rfl, rfl⟩ := hmore
    exact ⟨first, rfl, .sum (hfirst.sum_of_not_isComparison hc)⟩
  | cons k ks =>
    by_cases hk : k.kind = .mark .question
    · simp only [valueTail, hk, if_true, Reply.yields_later] at hmore
      obtain ⟨used, rfl, us, vs, q, y, n, rfl, hus, hvs, rfl⟩ :=
        choice_sound value k.pos ks t rest hmore hu.right.tail
      refine ⟨first ++ k :: (us ++ ⟨.mark .colon, q⟩ :: vs), by simp, ?_⟩
      simpa [← hk] using Phrase.Value.choice k.pos q hfirst hus hvs
    · cases hc : value.isComparison <;> simp [valueTail, hk, hc] at hmore
      obtain ⟨rfl, rfl⟩ := hmore
      exact ⟨first, rfl, .sum (hfirst.sum_of_not_isComparison hc)⟩

theorem assignment_sound (p : Position) (ts : List Token) :
    TakesOnly (fun used t => ∃ id q r vs v, t = .assign id v p ∧ Phrase.Value vs v ∧
      used = ⟨.identifier id, q⟩ :: ⟨.mark .equals, r⟩ :: vs) ts (assignment p ts) := by
  intro t rest hy hu
  simp only [assignment, Reply.yields_andThen, Reply.yields_map, expectMark_yields,
    expectName_yields] at hy
  obtain ⟨id, _, ⟨q, rfl⟩, equals, mid, ⟨rfl, hequals⟩, v, hv, rfl⟩ := hy
  obtain ⟨vs, rfl, hvs⟩ := value_sound id p mid v rest hv hu.tail.tail
  exact ⟨⟨.identifier id, q⟩ :: equals :: vs, rfl, id, q, equals.pos, vs, v, rfl, hvs,
    by rw [← hequals]⟩

def Phrase.Body (ts : List Token) (body : List Tree) : Prop :=
  ∃ inner q, ts = inner ++ [⟨.mark .closeBrace, q⟩] ∧ Phrase.Statements inner body

theorem shown_sound {k : Token} {ts : List Token} (hk : Phrase.StartsShown k.kind) :
    TakesOnly Phrase.Statement (k :: ts) ((sum (k :: ts)).andThen fun e rest _ =>
      (expectMark .semicolon rest).map fun _ => e.asShown) := by
  intro t rest hy hu
  simp only [Reply.yields_andThen, Reply.yields_map, expectMark_yields] at hy
  obtain ⟨e, mid, he, semicolon, ⟨rfl, hsemi⟩, rfl⟩ := hy
  obtain ⟨used, hts, hused⟩ := sum_sound (k :: ts) e _ he hu
  cases used with
  | nil => exact absurd rfl hused.ne_nil
  | cons k' used =>
    obtain ⟨rfl, rfl⟩ := List.cons.inj hts
    refine ⟨k :: (used ++ [semicolon]), by simp, ?_⟩
    simpa [← hsemi] using Phrase.Statement.shown semicolon.pos hused hk

section Statement

variable {ts : List Token} (p : Position)

theorem let_sound :
    TakesOnly Phrase.Statement (⟨.keyword .letWord, p⟩ :: ts) (Reply.later <|
      (assignment p ts).andThen fun a rest _ => (expectMark .semicolon rest).map fun _ => a) := by
  intro t rest hy hu
  simp only [Reply.yields_later, Reply.yields_andThen, Reply.yields_map, expectMark_yields] at hy
  obtain ⟨a, mid, ha, ⟨kind, s⟩, ⟨rfl, rfl⟩, rfl⟩ := hy
  obtain ⟨_, rfl, id, q, r, vs, v, rfl, hvs, rfl⟩ := assignment_sound p ts a _ ha hu.tail
  exact ⟨_, by simp, Phrase.Statement.assign id p q r s hvs⟩

/-- What is taken behind `repeat` is a loop, if shorter blocks are blocks. -/
theorem repeat_sound
    (hblock : ∀ us, us.length < ts.length → TakesOnly Phrase.Block us (block us)) :
    TakesOnly Phrase.Statement (⟨.keyword .repeatWord, p⟩ :: ts) (Reply.later <|
      (sum ts).andThen fun bound rest _ =>
        (block rest).map fun body => .loop bound body p) := by
  intro t rest hy hu
  simp only [Reply.yields_later, Reply.yields_andThen, Reply.yields_map] at hy
  obtain ⟨b, mid, hb, body, hbody, rfl⟩ := hy
  have hlt := hb.length_lt
  obtain ⟨us, rfl, hus⟩ := sum_sound ts b mid hb hu.tail
  obtain ⟨vs, rfl, hvs⟩ := hblock mid hlt body rest hbody hu.tail.right
  exact ⟨_, by simp, Phrase.Statement.loop p hus hvs⟩

/-- What is taken behind `if` is a chain of branches, if its parts are what they should be. -/
theorem if_sound
    (hblock : ∀ us, us.length < ts.length → TakesOnly Phrase.Block us (block us))
    (helifs : ∀ us, us.length < ts.length → TakesOnly Phrase.Elifs us (elifs us))
    (hother : ∀ us, us.length < ts.length → TakesOnly Phrase.Otherwise us (otherwise us)) :
    TakesOnly Phrase.Statement (⟨.keyword .ifWord, p⟩ :: ts) (Reply.later <|
      (comparison ts).andThen fun test rest _ => (block rest).andMaybe fun body rest _ =>
        (elifs rest).andMaybe fun others rest _ =>
          (otherwise rest).map fun last => .branch ⟨test, body, others, last, p⟩) := by
  intro t rest hy hu
  simp only [Reply.yields_later, Reply.yields_andThen, Reply.yields_andMaybe,
    Reply.yields_map] at hy
  obtain ⟨c, r1, hc, body, r2, hbody, others, r3, hothers, last, hlast, rfl⟩ := hy
  have h1 := hc.length_lt
  have h2 := hbody.length_lt
  have h3 := hothers.length_lt
  obtain ⟨us, rfl, hus⟩ := comparison_sound ts c r1 hc hu.tail
  obtain ⟨vs, rfl, hvs⟩ := hblock r1 h1 body r2 hbody hu.tail.right
  obtain ⟨ws, rfl, hws⟩ := helifs r2 (by omega) others r3 hothers hu.tail.right.right
  obtain ⟨xs, rfl, hxs⟩ := hother r3 (by omega) last rest hlast hu.tail.right.right.right
  exact ⟨_, by simp, Phrase.Statement.branch p hus hvs hws hxs⟩

theorem elif_sound
    (hblock : ∀ us, us.length < ts.length → TakesOnly Phrase.Block us (block us))
    (helifs : ∀ us, us.length < ts.length → TakesOnly Phrase.Elifs us (elifs us)) :
    TakesOnly Phrase.Elifs (⟨.keyword .elifWord, p⟩ :: ts) (Reply.later <| Reply.later <|
      (comparison ts).andThen fun test rest _ => (block rest).andMaybe fun body rest _ =>
        (elifs rest).map fun more => ⟨test, body, [], [], p⟩ :: more) := by
  intro others rest hy hu
  simp only [Reply.yields_later, Reply.yields_andThen, Reply.yields_andMaybe,
    Reply.yields_map] at hy
  obtain ⟨c, r1, hc, body, r2, hbody, more, hmore, rfl⟩ := hy
  have h1 := hc.length_lt
  have h2 := hbody.length_lt
  obtain ⟨us, rfl, hus⟩ := comparison_sound ts c r1 hc hu.tail
  obtain ⟨vs, rfl, hvs⟩ := hblock r1 h1 body r2 hbody hu.tail.right
  obtain ⟨ws, rfl, hws⟩ := helifs r2 (by omega) more rest hmore hu.tail.right.right
  exact ⟨_, by simp, Phrase.Elifs.cons p hus hvs hws⟩

theorem else_sound (hblock : TakesOnly Phrase.Block ts (block ts)) :
    TakesOnly Phrase.Otherwise (⟨.keyword .elseWord, p⟩ :: ts) (block ts).later.later := by
  intro last rest hy hu
  simp only [Reply.yields_later] at hy
  obtain ⟨us, rfl, hus⟩ := hblock last rest hy hu.tail
  exact ⟨_, rfl, Phrase.Otherwise.block p hus⟩

theorem braces_sound
    (hbody : ∀ us, us.length < ts.length → TakesOnly Phrase.Body us (body us)) :
    TakesOnly Phrase.Block ts ((expectMark .openBrace ts).andThen fun _ rest _ => body rest) := by
  intro inner rest hy hu
  simp only [Reply.yields_andThen, expectMark_yields] at hy
  obtain ⟨⟨kind, p⟩, mid, ⟨rfl, rfl⟩, hinner⟩ := hy
  obtain ⟨_, rfl, us, q, rfl, hus⟩ := hbody mid (Nat.lt_succ_self _) inner rest hinner hu.tail
  exact ⟨_, by simp, Phrase.Block.braces p q hus⟩

theorem body_cons_sound (hstatement : TakesOnly Phrase.Statement ts (statement ts))
    (hbody : ∀ us, us.length < ts.length → TakesOnly Phrase.Body us (body us)) :
    TakesOnly Phrase.Body ts ((statement ts).andThen fun s rest _ =>
      (body rest).map fun more => s :: more) := by
  intro inner rest hy hu
  simp only [Reply.yields_andThen, Reply.yields_map] at hy
  obtain ⟨s, mid, hs, more, hmore, rfl⟩ := hy
  have hlt := hs.length_lt
  obtain ⟨us, rfl, hus⟩ := hstatement s mid hs hu
  obtain ⟨_, rfl, vs, q, rfl, hvs⟩ := hbody mid hlt more rest hmore hu.right
  exact ⟨us ++ (vs ++ [⟨.mark .closeBrace, q⟩]), by simp, us ++ vs, q, by simp, .cons hus hvs⟩

end Statement

mutual

/-- Whatever the rule for statements takes is a statement. -/
theorem statement_sound : (ts : List Token) → TakesOnly Phrase.Statement ts (statement ts)
  | [] => by
    rw [statement]
    exact .stuck _ _
  | ⟨kind, p⟩ :: ts => by
    rw [statement]
    cases kind with
    | integer n => exact shown_sound trivial
    | identifier s => exact shown_sound trivial
    | keyword w =>
      cases w with
      | letWord => exact let_sound p
      | repeatWord => exact repeat_sound p fun us _ => block_sound us
      | ifWord =>
        exact if_sound p (fun us _ => block_sound us) (fun us _ => elifs_sound us)
          fun us _ => otherwise_sound us
      | _ => exact .stuck _ _
    | mark m =>
      cases m with
      | openParen => exact shown_sound trivial
      | _ => exact .stuck _ _
    | trivia t => exact .stuck _ _
termination_by ts => 3 * ts.length + 1

theorem block_sound (ts : List Token) : TakesOnly Phrase.Block ts (block ts) := by
  rw [block]
  exact braces_sound fun us _ => body_sound us
termination_by 3 * ts.length

theorem body_sound : (ts : List Token) → TakesOnly Phrase.Body ts (body ts)
  | [] => by
    rw [body]
    exact .stuck _ _
  | k :: ts => by
    rw [body]
    by_cases hk : k.kind = .mark .closeBrace
    · rw [if_pos hk]
      exact .one ⟨[], k.pos, by simp [← hk], .nil⟩
    · rw [if_neg hk]
      exact body_cons_sound (statement_sound (k :: ts)) fun us _ => body_sound us
termination_by ts => 3 * ts.length + 2
decreasing_by
  all_goals
    try simp only [List.length_cons] at *
    omega

theorem elifs_sound : (ts : List Token) → TakesOnly Phrase.Elifs ts (elifs ts)
  | [] => by
    rw [elifs]
    exact .none .nil
  | ⟨kind, p⟩ :: ts => by
    rw [elifs]
    by_cases hk : kind = .keyword .elifWord
    · subst hk
      rw [if_pos rfl]
      exact elif_sound p (fun us _ => block_sound us) fun us _ => elifs_sound us
    · rw [if_neg hk]
      exact .none .nil
termination_by ts => 3 * ts.length

theorem otherwise_sound : (ts : List Token) → TakesOnly Phrase.Otherwise ts (otherwise ts)
  | [] => by
    rw [otherwise]
    exact .none .absent
  | ⟨kind, p⟩ :: ts => by
    rw [otherwise]
    by_cases hk : kind = .keyword .elseWord
    · subst hk
      rw [if_pos rfl]
      exact else_sound p (block_sound ts)
    · rw [if_neg hk]
      exact .none .absent
termination_by ts => 3 * ts.length

end

/-- Statements that are read to the end are statements. -/
theorem statements_sound {ts : List Token} {body : List Tree} (h : statements ts = .ok body)
    (hu : Unsigned ts) : Phrase.Statements ts body := by
  fun_induction statements ts generalizing body with
  | case1 =>
    obtain rfl : [] = body := by simpa using h
    exact .nil
  | case2 k ts e rest hs => simp at h
  | case3 k ts s rest hlt hs ih =>
    obtain ⟨more, hmore, rfl⟩ := map_eq_ok.mp h
    obtain ⟨used, hts, hused⟩ := statement_sound (k :: ts) s rest ⟨hlt, hs⟩ hu
    rw [hts] at hu ⊢
    exact .cons hused (ih hmore hu.right)

/-- A program that is read has a derivation. -/
theorem program_sound {ts : List Token} {t : Tree} (h : program ts = .ok t)
    (hu : Unsigned ts) : Phrase.Program ts t := by
  obtain ⟨body, hbody, rfl⟩ := map_eq_ok.mp h
  exact .statements (statements_sound hbody hu)

end Scriptlet.Grammar
