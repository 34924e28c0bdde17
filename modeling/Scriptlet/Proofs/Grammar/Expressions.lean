import Scriptlet.Proofs.Grammar.Exact
import Scriptlet.Proofs.Grammar.Complete

/-!
Expressions are read exactly. Which way a rule for them goes is decided by the class of one
token, and what it has begun can be ended: an operand by a zero, an open parenthesis by the
one that closes it.
-/
namespace Scriptlet.Grammar

theorem SameHead.eq_nil {us : List Token} (h : SameHead [] us) : us = [] := by
  cases us with
  | nil => rfl
  | cons k us => simp [SameHead] at h

theorem SameHead.exists_cons {k : Token} {ts us : List Token} (h : SameHead (k :: ts) us) :
    ∃ k' us', us = k' :: us' ∧ k.kind.toClass = k'.kind.toClass := by
  cases us with
  | nil => simp [SameHead] at h
  | cons k' us => exact ⟨k', us, rfl, by simpa [SameHead] using h⟩

/-- Whether tokens stop a rule depends on the class of the first. -/
theorem Stops.congr {goesOn : Token.Kind → Bool} {ts us : List Token} (h : Stops goesOn ts)
    (hclass : ∀ k k' : Token.Kind, k.toClass = k'.toClass → goesOn k = goesOn k')
    (hus : SameHead ts us) : Stops goesOn us := by
  cases ts with
  | nil =>
    obtain rfl := hus.eq_nil
    exact h
  | cons k ts =>
    obtain ⟨k', us, rfl, hk⟩ := hus.exists_cons
    rw [stops_cons] at h ⊢
    rw [← hclass _ _ hk, h]

theorem eq_mark_of_toClass {k : Token.Kind} {m : Mark} (h : k.toClass = .mark m) :
    k = .mark m := by
  cases k <;> simp_all [Token.Kind.toClass]

/-- Kinds of one class are equal, or neither is a mark or a keyword. -/
theorem kind_cases {k k' : Token.Kind} (h : k.toClass = k'.toClass) :
    k = k' ∨ (∀ m, k ≠ .mark m ∧ k' ≠ .mark m) ∧ ∀ w, k ≠ .keyword w ∧ k' ≠ .keyword w := by
  cases k <;> cases k' <;> simp_all [Token.Kind.toClass]

theorem eq_mark_iff {k k' : Token.Kind} (h : k.toClass = k'.toClass) (m : Mark) :
    k = .mark m ↔ k' = .mark m := by
  rcases kind_cases h with rfl | ⟨hmark, _⟩
  · exact Iff.rfl
  · simp [hmark m]

theorem eq_keyword_iff {k k' : Token.Kind} (h : k.toClass = k'.toClass) (w : Keyword) :
    k = .keyword w ↔ k' = .keyword w := by
  rcases kind_cases h with rfl | ⟨_, hkeyword⟩
  · exact Iff.rfl
  · simp [hkeyword w]

theorem ofKindAt?_congr {k k' : Token.Kind} (h : k.toClass = k'.toClass) (level : Nat) :
    ArithOp.ofKindAt? level k = ArithOp.ofKindAt? level k' := by
  have hmark : ∀ op : ArithOp, (k == .mark op.mark) = (k' == .mark op.mark) := by
    intro op
    simpa using eq_mark_iff h op.mark
  simp only [ArithOp.ofKindAt?, ArithOp.ofKind?, hmark]

theorem compareOp_ofKind?_congr {k k' : Token.Kind} (h : k.toClass = k'.toClass) :
    CompareOp.ofKind? k = CompareOp.ofKind? k' := by
  have hmark : ∀ op : CompareOp, (k == .mark op.mark) = (k' == .mark op.mark) := by
    intro op
    simpa using eq_mark_iff h op.mark
  simp only [CompareOp.ofKind?, hmark]

@[simp] theorem unsigned_nil : Unsigned [] := by
  simp [Unsigned]

theorem unsigned_cons (k : Token) (ts : List Token) :
    Unsigned (k :: ts) ↔ Unsigned [k] ∧ Unsigned ts :=
  unsigned_append [k] ts

theorem begins_cons {lang : Language Token} {k : Token} {more : List Token}
    (hmem : k :: more ∈ lang) (hk : Unsigned [k]) (hmore : Unsigned more) : Begins lang [k] :=
  ⟨more, hmem, (unsigned_append [k] more).mpr ⟨hk, hmore⟩⟩

def markWord (m : Mark) : Language Token := {ts | ∃ p, ts = [⟨.mark m, p⟩]}

def nameWord : Language Token := {ts | ∃ s p, ts = [⟨.identifier s, p⟩]}

theorem begins_markWord (m : Mark) : Begins (markWord m) [] :=
  ⟨[⟨.mark m, .start⟩], ⟨.start, rfl⟩, by simp [Unsigned]⟩

theorem offers_markWord (m : Mark) : Offers (markWord m) [] [.mark m] := by
  intro c hc k hk hu
  obtain rfl := List.mem_singleton.mp hc
  exact begins_of_mem ⟨k.pos, by simp [← eq_mark_of_toClass hk]⟩ hu

theorem expectMark_exact (m : Mark) (before ts : List Token) :
    Exact before (markWord m) (expectMark m) ts := by
  cases ts with
  | nil =>
    exact Exact.refuse_nil ((Reply.sticks_stuck ..).mpr rfl) (begins_markWord m)
      (offers_markWord m)
  | cons k ts =>
    by_cases hk : k.kind = .mark m
    · refine Exact.one (a := k) ⟨k.pos, by simp [← hk]⟩ fun us => ?_
      exact (expectMark_yields ..).mpr ⟨rfl, hk⟩
    · have hclass : k.kind.toClass ≠ .mark m := fun h => hk (eq_mark_of_toClass h)
      refine Exact.refuse_cons (e := .unexpected [.mark m] k) (fun us => ?_) rfl
        (begins_markWord m) (offers_markWord m)
      simp [expectMark, expect, hclass]

theorem begins_nameWord : Begins nameWord [] :=
  ⟨[⟨.identifier "x", .start⟩], ⟨"x", .start, rfl⟩, by simp [Unsigned]⟩

theorem offers_nameWord : Offers nameWord [] [.identifier] := by
  intro c hc k hk hu
  obtain rfl := List.mem_singleton.mp hc
  obtain ⟨kind, p⟩ := k
  cases kind with
  | identifier s => exact begins_of_mem ⟨s, p, rfl⟩ hu
  | _ => cases hk

theorem expectName_exact (before ts : List Token) :
    Exact before nameWord expectName ts := by
  cases ts with
  | nil =>
    exact Exact.refuse_nil ((Reply.sticks_stuck ..).mpr rfl) begins_nameWord offers_nameWord
  | cons k ts =>
    cases hk : k.kind with
    | identifier s =>
      refine Exact.one (a := s) ⟨s, k.pos, by simp [← hk]⟩ fun us => ?_
      exact (expectName_yields ..).mpr ⟨k.pos, by simp [← hk]⟩
    | keyword w =>
      refine Exact.refuse_cons (e := .reserved k) (fun us => ?_) rfl begins_nameWord ?_
      · simp [expectName, hk]
      · simp [Offers, GrammarError.expected]
    | _ =>
      refine Exact.refuse_cons (e := .unexpected [.identifier] k) (fun us => ?_) rfl
        begins_nameWord offers_nameWord
      simp [expectName, hk]

def zeroToken : Token := ⟨.integer 0, .start⟩

theorem unsigned_zero : Unsigned [zeroToken] := by
  simp [Unsigned, zeroToken]

theorem factor_zero : [zeroToken] ∈ words Phrase.Factor :=
  ⟨_, .integer 0 .start⟩

theorem sum_zero : [zeroToken] ∈ words Phrase.Sum :=
  ⟨_, .product (.factor (.integer 0 .start))⟩

/-- A factor can go on from every token that the error offers. -/
theorem offers_factorStart : Offers (words Phrase.Factor) [] factorStart := by
  intro c hc k hk hu
  obtain ⟨kind, p⟩ := k
  have hclose : Unsigned [zeroToken, ⟨.mark .closeParen, .start⟩] := by simp [Unsigned, zeroToken]
  simp only [factorStart, List.mem_cons, List.not_mem_nil, or_false] at hc
  rcases hc with rfl | rfl | rfl | rfl | rfl
  · cases kind with
    | integer n => exact begins_of_mem ⟨_, .integer n p⟩ hu
    | _ => cases hk
  · cases kind with
    | identifier s => exact begins_of_mem ⟨_, .name s p⟩ hu
    | _ => cases hk
  · obtain rfl := eq_mark_of_toClass hk
    exact begins_cons ⟨_, .parens p .start (.product (.factor (.integer 0 .start)))⟩ hu hclose
  · obtain rfl := eq_mark_of_toClass hk
    exact begins_cons ⟨_, .plus p (.integer 0 .start)⟩ hu unsigned_zero
  · obtain rfl := eq_mark_of_toClass hk
    exact begins_cons ⟨_, (Phrase.Factor.integer 0 .start).negated p unsigned_zero⟩ hu
      unsigned_zero

/-- A token that starts no factor is refused where it stands. -/
theorem factor_refuse {k : Token} {e : GrammarError} (before ts : List Token)
    (hsticks : ∀ us, (factor (k :: us)).Sticks e)
    (he : e = .reserved k ∨ e = .unexpected factorStart k) :
    Exact before (words Phrase.Factor) factor (k :: ts) := by
  have hbegins : Begins (words Phrase.Factor) [] := ⟨[zeroToken], factor_zero, unsigned_zero⟩
  rcases he with rfl | rfl
  · exact Exact.refuse_cons hsticks rfl hbegins (by simp [Offers, GrammarError.expected])
  · exact Exact.refuse_cons hsticks rfl hbegins offers_factorStart

section Level

variable {operand lang : Language Token} {before ts : List Token}
  {rule reply : (ts : List Token) → Reply Tree ts.length}
  {tail : Tree → (ts : List Token) → Reply Tree (ts.length + 1)}

theorem begins_remainders {first whole : Language Token} (h : ∀ us ∈ first, us ∈ whole) :
    Begins (remainders first whole) [] :=
  ⟨[], fun us hus => by simpa using h us hus, by simp⟩

theorem mul_remainders {first whole : Language Token} {us : List Token}
    (h : us ∈ first * remainders first whole) : us ∈ whole := by
  obtain ⟨vs, hvs, ws, hws, rfl⟩ := Language.mem_mul.mp h
  exact hws vs hvs

/-- A level of operators is an operand and what extends it. -/
theorem exact_level (hone : ∀ us ∈ operand, us ∈ lang)
    (hrule : ∀ us, rule us = (reply us).andMaybe fun left rest _ => tail left rest)
    (hreply : Exact before operand reply ts)
    (htail : ∀ left rest, rest.length < ts.length →
      ∀ before, Exact before (remainders lang lang) (tail left) rest) :
    Exact before lang rule ts := by
  refine Exact.congr (fun us _ => by rw [hrule us]; exact Reply.Same.refl _) ?_
  refine Exact.mono (fun us hus _ => ?_) (Exact.andMaybe (begins_remainders fun us h => h) hreply
    fun used left mid _ hleft => htail left mid hleft.length_lt _)
  obtain ⟨vs, hvs, ws, hws, rfl⟩ := Language.mem_mul.mp hus
  exact hws vs (hone vs hvs)

/-- A level of operators ends where none of its operators comes next. -/
theorem exact_stop {level : Nat} {left : Tree}
    (hstop : ∀ us, Stops (fun k => (ArithOp.ofKindAt? level k).isSome) us →
      (tail left us).Yields left us)
    (h : Stops (fun k => (ArithOp.ofKindAt? level k).isSome) ts) :
    Exact before (remainders lang lang) (tail left) ts := by
  refine Exact.stop (fun _ us hus => by simpa using hus) fun us hus => hstop us ?_
  exact h.congr (fun _ _ hk => by rw [ofKindAt?_congr hk]) hus

/-- One operator with its right operand, and what extends the result. -/
theorem exact_step {left : Tree} {k : Token} (grown : Tree → Tree)
    (hstep : ∀ us ∈ lang, ∀ vs ∈ operand, us ++ k :: vs ∈ lang)
    (hsame : ∀ us, Reply.Same (tail left (k :: us))
      ((reply us).andMaybe fun right rest _ => tail (grown right) rest))
    (hreply : Exact (before ++ [k]) operand reply ts)
    (htail : ∀ right rest, rest.length < ts.length →
      ∀ before, Exact before (remainders lang lang) (tail (grown right)) rest) :
    Exact before (remainders lang lang) (tail left) (k :: ts) := by
  refine Exact.cons hsame (fun us hus _ => ?_) (Exact.andMaybe (begins_remainders fun us h => h)
    hreply fun used right mid _ hright => htail right mid hright.length_lt _)
  obtain ⟨vs, hvs, ws, hws, rfl⟩ := Language.mem_mul.mp hus
  intro taken htaken
  have hmore := hws _ (hstep taken htaken vs hvs)
  simpa using hmore

end Level

theorem sumTail_stop (left : Tree) (ts : List Token)
    (h : Stops (fun k => (ArithOp.ofKindAt? 1 k).isSome) ts) :
    (sumTail left ts).Yields left ts := by
  cases ts with
  | nil => simp [sumTail]
  | cons k ts =>
    have hk : ArithOp.ofKindAt? 1 k.kind = none := by simpa using (stops_cons ..).mp h
    simp [sumTail, hk]

section Factor

variable (p : Position) (before ts : List Token)

/-- A sum in parentheses is read exactly, if the sum is. -/
theorem parens_exact
    (hsum : Exact (before ++ [⟨.mark .openParen, p⟩]) (words Phrase.Sum) sum ts) :
    Exact before (words Phrase.Factor) factor (⟨.mark .openParen, p⟩ :: ts) := by
  refine Exact.cons (fun us => ?_) (fun us hus _ => ?_) (Exact.andThen
    (begins_markWord .closeParen) hsum
    fun used e mid _ _ => (expectMark_exact .closeParen _ mid).map fun _ => e)
  · rw [factor]
    exact Reply.same_later _
  · obtain ⟨vs, ⟨t, hvs⟩, ws, ⟨q, rfl⟩, rfl⟩ := Language.mem_mul.mp hus
    exact ⟨t, .parens p q hvs⟩

theorem plus_exact
    (hfactor : Exact (before ++ [⟨.mark .plus, p⟩]) (words Phrase.Factor) factor ts) :
    Exact before (words Phrase.Factor) factor (⟨.mark .plus, p⟩ :: ts) := by
  refine Exact.cons (fun us => ?_) (fun us hus _ => ?_) hfactor
  · rw [factor]
    exact Reply.same_later _
  · obtain ⟨t, ht⟩ := hus
    exact ⟨t, .plus p ht⟩

/-- A sign is read exactly, if its operand is. -/
theorem minus_exact
    (hfactor : Exact (before ++ [⟨.mark .minus, p⟩]) (words Phrase.Factor) factor ts) :
    Exact before (words Phrase.Factor) factor (⟨.mark .minus, p⟩ :: ts) := by
  refine Exact.cons (fun us => ?_) (fun us hus hu => ?_) (hfactor.map (Tree.negated p))
  · rw [factor]
    exact Reply.same_later _
  · obtain ⟨t, ht⟩ := hus
    exact ⟨_, ht.negated p hu⟩

end Factor

mutual

/-- Factors are read exactly. -/
theorem factor_exact (before : List Token) :
    (ts : List Token) → Exact before (words Phrase.Factor) factor ts
  | [] =>
    Exact.refuse_nil (by simp [factor]) ⟨[zeroToken], factor_zero, unsigned_zero⟩
      offers_factorStart
  | ⟨kind, p⟩ :: ts => by
    cases kind with
    | integer n =>
      exact Exact.one (a := .literal n false p) ⟨_, .integer n p⟩ fun us => by simp [factor]
    | identifier s =>
      exact Exact.one (a := .name s false p) ⟨_, .name s p⟩ fun us => by simp [factor]
    | keyword w =>
      cases w with
      | andWord | orWord | notWord =>
        exact factor_refuse before ts (fun us => by simp [factor]) (.inl rfl)
      | _ => exact factor_refuse before ts (fun us => by simp [factor]) (.inr rfl)
    | mark m =>
      cases m with
      | openParen => exact parens_exact p before ts (sum_exact _ ts)
      | plus => exact plus_exact p before ts (factor_exact _ ts)
      | minus => exact minus_exact p before ts (factor_exact _ ts)
      | _ => exact factor_refuse before ts (fun us => by simp [factor]) (.inr rfl)
    | trivia t => exact factor_refuse before ts (fun us => by simp [factor]) (.inr rfl)
termination_by ts => 3 * ts.length

theorem product_exact (before ts : List Token) :
    Exact before (words Phrase.Product) product ts := by
  refine exact_level (fun us hus => ?_) (fun us => by rw [product]) (factor_exact before ts)
    fun left rest _ before => productTail_exact left before rest
  obtain ⟨t, ht⟩ := hus
  exact ⟨t, .factor ht⟩
termination_by 3 * ts.length + 1

theorem productTail_exact (left : Tree) (before : List Token) : (ts : List Token) →
    Exact before (remainders (words Phrase.Product) (words Phrase.Product)) (productTail left) ts
  | [] => exact_stop (fun _ h => productTail_stops h left) (stops_nil _)
  | k :: ts => by
    cases hop : ArithOp.ofKindAt? 2 k.kind with
    | none => exact exact_stop (fun _ h => productTail_stops h left) (by simp [hop])
    | some op =>
      obtain ⟨hk, hlevel⟩ := ofKindAt?_eq_some hop
      refine exact_step (fun right => .arith op left right false k.pos) ?_ (fun us => ?_)
        (factor_exact _ ts) fun right rest _ before => productTail_exact _ before rest
      · rintro us ⟨l, hl⟩ vs ⟨r, hr⟩
        exact ⟨_, by simpa [← hk] using Phrase.Product.step k.pos hl (precedence_eq_two hlevel) hr⟩
      · simp only [productTail, hop]
        exact Reply.same_later_later _
termination_by ts => 3 * ts.length

/-- Sums are read exactly. -/
theorem sum_exact (before ts : List Token) : Exact before (words Phrase.Sum) sum ts := by
  refine exact_level (fun us hus => ?_) (fun us => by rw [sum]) (product_exact before ts)
    fun left rest _ before => sumTail_exact left before rest
  obtain ⟨t, ht⟩ := hus
  exact ⟨t, .product ht⟩
termination_by 3 * ts.length + 2

theorem sumTail_exact (left : Tree) (before : List Token) : (ts : List Token) →
    Exact before (remainders (words Phrase.Sum) (words Phrase.Sum)) (sumTail left) ts
  | [] => exact_stop (sumTail_stop left) (stops_nil _)
  | k :: ts => by
    cases hop : ArithOp.ofKindAt? 1 k.kind with
    | none => exact exact_stop (sumTail_stop left) (by simp [hop])
    | some op =>
      obtain ⟨hk, hlevel⟩ := ofKindAt?_eq_some hop
      refine exact_step (fun right => .arith op left right false k.pos) ?_ (fun us => ?_)
        (product_exact _ ts) fun right rest _ before => sumTail_exact _ before rest
      · rintro us ⟨l, hl⟩ vs ⟨r, hr⟩
        exact ⟨_, by simpa [← hk] using Phrase.Sum.step k.pos hl (precedence_eq_one hlevel) hr⟩
      · simp only [sumTail, hop]
        exact Reply.same_later_later _
termination_by ts => 3 * ts.length

end

theorem begins_sum : Begins (words Phrase.Sum) [] :=
  ⟨[zeroToken], sum_zero, unsigned_zero⟩

/-- The second side of a comparison is read exactly, or there is none. -/
theorem comparisonTail_exact (left : Tree) (before ts : List Token) :
    Exact before (remainders (words Phrase.Sum) (words Phrase.Comparison)) (comparisonTail left)
      ts := by
  have hnil : [] ∈ remainders (words Phrase.Sum) (words Phrase.Comparison) := by
    intro us ⟨t, ht⟩
    exact ⟨t, by simpa using Phrase.Comparison.sum ht⟩
  have hstop : Stops (fun k => (CompareOp.ofKind? k).isSome) ts → ∀ us, SameHead ts us →
      (comparisonTail left us).Yields left us := by
    intro h us hus
    have h := h.congr (fun _ _ hk => by rw [compareOp_ofKind?_congr hk]) hus
    cases us with
    | nil => simp [comparisonTail]
    | cons k us =>
      have hk : CompareOp.ofKind? k.kind = none := by simpa using (stops_cons ..).mp h
      simp [comparisonTail, hk]
  cases ts with
  | nil => exact Exact.stop (fun _ => hnil) (hstop (stops_nil _))
  | cons k ts =>
    cases hop : CompareOp.ofKind? k.kind with
    | none => exact Exact.stop (fun _ => hnil) (hstop (by simp [hop]))
    | some op =>
      refine Exact.cons (fun us => ?_) (fun us hus _ => ?_)
        ((sum_exact _ ts).map fun right => .compare op left right k.pos)
      · simp only [comparisonTail, hop]
        exact Reply.same_later_later _
      · intro vs ⟨l, hl⟩
        obtain ⟨r, hr⟩ := hus
        exact ⟨_, by simpa [← compareOp_ofKind?_eq_some hop] using
          Phrase.Comparison.compare op k.pos hl hr⟩

/-- Comparisons are read exactly. -/
theorem comparison_exact (before ts : List Token) :
    Exact before (words Phrase.Comparison) comparison ts := by
  have hsum : ∀ us ∈ words Phrase.Sum, us ∈ words Phrase.Comparison :=
    fun us ⟨t, ht⟩ => ⟨t, .sum ht⟩
  exact Exact.mono (fun us hus _ => mul_remainders hus) (Exact.andMaybe
    (begins_remainders hsum) (sum_exact before ts)
    fun used left mid _ _ => comparisonTail_exact left _ mid)

end Scriptlet.Grammar
