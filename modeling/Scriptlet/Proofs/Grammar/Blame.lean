import Scriptlet.Proofs.Grammar.Expressions
import Scriptlet.Proofs.Token.Scanned

/-!
Statements are read exactly, and so are scripts. The error of a script is therefore found at
the first token that no script has there. An assignment needs care: a comparison is no value,
but it begins one, that of a choice; only what follows it tells.
-/
namespace Scriptlet.Grammar

theorem begins_mul_nil {first second : Language Token} (hfirst : Begins first [])
    (hsecond : Begins second []) : Begins (first * second) [] := by
  obtain ⟨us, hus, hu⟩ := hfirst
  obtain ⟨more, hmore, hmoreu⟩ := Exact.begins_mul hsecond hus hu
  exact ⟨us ++ more, hmore, hmoreu⟩

def choiceWords : Language Token := words Phrase.Sum * (markWord .colon * words Phrase.Sum)

theorem begins_choiceWords : Begins choiceWords [] :=
  begins_mul_nil begins_sum (begins_mul_nil (begins_markWord .colon) begins_sum)

theorem choice_exact (test : Tree) (p : Position) (before ts : List Token) :
    Exact before choiceWords (choice test p) ts :=
  Exact.andThen (begins_mul_nil (begins_markWord .colon) begins_sum) (sum_exact before ts)
    fun _ yes mid _ _ => Exact.andThen begins_sum (expectMark_exact .colon _ mid)
      fun _ _ rest _ _ => (sum_exact _ rest).map fun no => Tree.choose test yes no p

theorem mem_value_of_choice {k : Token} {us vs : List Token} (hk : k.kind = .mark .question)
    (hus : us ∈ words Phrase.Comparison) (hvs : vs ∈ choiceWords) :
    us ++ k :: vs ∈ words Phrase.Value := by
  obtain ⟨c, hc⟩ := hus
  obtain ⟨ys, ⟨y, hy⟩, _, hrest, rfl⟩ := Language.mem_mul.mp hvs
  obtain ⟨_, ⟨q, rfl⟩, ns, ⟨n, hn⟩, rfl⟩ := Language.mem_mul.mp hrest
  exact ⟨_, by simpa [← hk] using Phrase.Value.choice k.pos q hc hy hn⟩

/-- A comparison begins a value, if only that of a choice. -/
theorem begins_value {us : List Token} (h : us ∈ words Phrase.Comparison) (hu : Unsigned us) :
    Begins (words Phrase.Value) us := by
  obtain ⟨vs, hvs, hvsu⟩ := begins_choiceWords
  refine ⟨⟨.mark .question, .start⟩ :: vs, mem_value_of_choice rfl h hvs, ?_⟩
  have hquestion : Unsigned [⟨.mark .question, .start⟩] := by simp [Unsigned]
  exact (unsigned_append ..).mpr ⟨hu, (unsigned_cons ..).mpr ⟨hquestion, hvsu⟩⟩

def valueEnds (used : List Token) : Language Token :=
  {vs | used ∈ words Phrase.Comparison → used ++ vs ∈ words Phrase.Value}

def EndsInLet (id : String) (p : Position) (before : List Token) : Prop :=
  ∃ outer q r, before =
    outer ++ [⟨.keyword .letWord, p⟩, ⟨.identifier id, q⟩, ⟨.mark .equals, r⟩]

section ValueTail

variable {id : String} {p : Position} {before used mid : List Token} {value : Tree}

/-- A comparison that no question mark follows is refused right behind it. -/
theorem valueTail_refuse (hbefore : EndsInLet id p before)
    (hused : Unsigned (before ++ used ++ mid) → Phrase.Comparison used value)
    (hvalue : value.isComparison = true) (hmid : ∀ k ∈ mid.head?, k.kind ≠ .mark .question) :
    Exact (before ++ used) (valueEnds used) (valueTail id p value) mid := by
  have hsticks : ∀ us, (∀ k ∈ us.head?, k.kind ≠ .mark .question) →
      (valueTail id p value us).Sticks (.comparisonAssigned id p) := by
    intro us hus
    cases us with
    | nil => simp [valueTail, hvalue]
    | cons k us => simp [valueTail, hvalue, hus k rfl]
  refine Exact.refuse (hsticks mid hmid) fun hu => Locates.here ?_ ?_ ?_ ?_
  · obtain ⟨outer, q, r, rfl⟩ := hbefore
    exact ⟨outer, q, r, used, value, by simp, hused hu, hvalue⟩
  · obtain ⟨more, hmore, hmoreu⟩ := begins_value ⟨value, hused hu⟩ hu.left.right
    exact ⟨more, fun _ => hmore, hmoreu.right⟩
  · simp [Offers, GrammarError.expected]
  · intro k hk more
    refine hsticks _ fun k' hk' => ?_
    obtain rfl : k = k' := by simpa using hk'
    exact hmid k hk

theorem valueTail_stop (hused : Unsigned (before ++ used ++ mid) → Phrase.Comparison used value)
    (hvalue : value.isComparison = false) (hmid : ∀ k ∈ mid.head?, k.kind ≠ .mark .question) :
    Exact (before ++ used) (valueEnds used) (valueTail id p value) mid := by
  refine Exact.stop (a := value) (fun hu _ => ?_) fun us hus => ?_
  · exact ⟨value, by simpa using .sum ((hused hu).sum_of_not_isComparison hvalue)⟩
  · have hus : Stops (fun k => k == .mark .question) us :=
      Stops.congr (fun k hk => by simpa using hmid k hk)
        (fun k k' hk => by simpa using eq_mark_iff hk .question) hus
    cases us with
    | nil => simp [valueTail, hvalue]
    | cons k us =>
      have hk : k.kind ≠ .mark .question := by simpa using (stops_cons ..).mp hus
      simp [valueTail, hvalue, hk]

theorem valueTail_exact (hbefore : EndsInLet id p before)
    (hused : Unsigned (before ++ used ++ mid) → Phrase.Comparison used value) :
    Exact (before ++ used) (valueEnds used) (valueTail id p value) mid := by
  by_cases hmid : ∀ k ∈ mid.head?, k.kind ≠ .mark .question
  · cases hvalue : value.isComparison with
    | true => exact valueTail_refuse hbefore hused hvalue hmid
    | false => exact valueTail_stop hused hvalue hmid
  · cases mid with
    | nil => simp at hmid
    | cons k mid =>
      have hk : k.kind = .mark .question := by simpa using hmid
      refine Exact.cons (fun us => ?_) (fun us hus _ hmem => mem_value_of_choice hk hmem hus)
        (choice_exact value k.pos _ mid)
      simp only [valueTail, hk, if_true]
      exact Reply.same_later_later _

end ValueTail

/-- Values are read exactly after the start of an assignment. -/
theorem value_exact {id : String} {p : Position} {before : List Token} (ts : List Token)
    (hbefore : EndsInLet id p before) :
    Exact before (words Phrase.Value)
      (fun us => (comparison us).andMaybe fun value rest _ => valueTail id p value rest) ts := by
  refine Exact.bind (fun _ => Reply.yields_andMaybe _ _) (fun _ => Reply.sticks_andMaybe _ _)
    (fun _ => begins_value) (fun us hus vs (hvs : vs ∈ valueEnds us) => hvs hus)
    (comparison_exact before ts) ?_
  intro used value mid hts hvalue
  refine valueTail_exact hbefore fun hu => ?_
  rw [List.append_assoc, ← hts] at hu
  obtain ⟨used', hts', hused'⟩ := comparison_sound ts value mid hvalue hu.right
  obtain rfl : used = used' := List.append_cancel_right (hts.symm.trans hts')
  exact hused'

theorem begins_value_nil : Begins (words Phrase.Value) [] := by
  obtain ⟨t, ht⟩ := sum_zero
  exact ⟨[zeroToken], ⟨t, .sum ht⟩, unsigned_zero⟩

def assignmentWords : Language Token := nameWord * (markWord .equals * words Phrase.Value)

/-- Assignments are read exactly behind their `let`. -/
theorem assignment_exact {k : Token} (hk : k.kind = .keyword .letWord) (before ts : List Token) :
    Exact (before ++ [k]) assignmentWords (assignment k.pos) ts := by
  refine Exact.andThen (begins_mul_nil (begins_markWord .equals) begins_value_nil)
    (expectName_exact _ ts) ?_
  intro name id mid hts hname
  refine Exact.andThen begins_value_nil (expectMark_exact .equals _ mid) ?_
  intro equals t rest hmid hequals
  obtain ⟨q, hq⟩ := (expectName_yields ..).mp hname
  obtain ⟨hr, ht⟩ := (expectMark_yields ..).mp hequals
  obtain rfl : name = [⟨.identifier id, q⟩] :=
    List.append_cancel_right (hts.symm.trans hq)
  obtain rfl : equals = [t] := List.append_cancel_right (hmid.symm.trans hr)
  refine (value_exact rest ?_).map fun value => Tree.assign id value k.pos
  exact ⟨before, q, t.pos, by simp [← hk, ← ht]⟩

/-- What a shown expression may start with, some sum does. -/
theorem Phrase.StartsShown.exists_sum {k : Token} (hk : Phrase.StartsShown k.kind) :
    ∃ more, k :: more ∈ words Phrase.Sum := by
  obtain ⟨kind, p⟩ := k
  cases kind with
  | integer n => exact ⟨[], _, .product (.factor (.integer n p))⟩
  | identifier s => exact ⟨[], _, .product (.factor (.name s p))⟩
  | mark m =>
    cases m with
    | openParen =>
      obtain ⟨t, ht⟩ := sum_zero
      exact ⟨_, t, .product (.factor (.parens p .start ht))⟩
    | _ => exact hk.elim
  | _ => exact hk.elim

def sumsFrom (k : Token) : Language Token := {us | us ∈ words Phrase.Sum ∧ us.head? = some k}

/-- A sum that starts as a statement may is not refused at its first token. -/
theorem sumsFrom_exact {k : Token} (hk : Phrase.StartsShown k.kind) (before ts : List Token) :
    Exact before (sumsFrom k) sum (k :: ts) := by
  constructor
  · intro t rest hy
    obtain ⟨used, hts, hmem, hlocal⟩ := (sum_exact before (k :: ts)).taken t rest hy
    refine ⟨used, hts, fun hu => ⟨hmem hu, ?_⟩, hlocal⟩
    obtain ⟨t, ht⟩ := hmem hu
    cases used with
    | nil => exact absurd rfl ht.ne_nil
    | cons k' used =>
      obtain ⟨rfl, _⟩ := List.cons.inj hts
      rfl
  · intro e hs hu
    obtain ⟨pre, rest, hts, hstops, hbegins, hoffers, hhopeless⟩ :=
      (sum_exact before (k :: ts)).located e hs hu
    cases pre with
    | nil =>
      obtain ⟨more, t, ht⟩ := hk.exists_sum
      have hyields := ht.taken [] (stops_nil _)
      obtain rfl : k :: ts = rest := hts
      have hsticks := hhopeless k rfl more
      rw [List.append_nil] at hyields
      exact absurd hsticks (hyields.not_sticks e)
    | cons k' pre =>
      obtain ⟨rfl, rfl⟩ := List.cons.inj hts
      have hbegun : ∀ us, Begins (words Phrase.Sum) (k :: us) → Begins (sumsFrom k) (k :: us) :=
        fun us ⟨more, hmore, hu⟩ => ⟨more, ⟨hmore, rfl⟩, hu⟩
      refine ⟨k :: pre, rest, rfl, hstops, hbegun pre hbegins, ?_, hhopeless⟩
      intro c hc k' hk' hu'
      exact hbegun _ (hoffers c hc k' hk' hu')

theorem statement_shown {k : Token} (hk : Phrase.StartsShown k.kind) (us : List Token) :
    statement (k :: us) = (sum (k :: us)).andThen fun e rest _ =>
      (expectMark .semicolon rest).map fun _ => e.asShown := by
  unfold statement
  cases hkind : k.kind with
  | integer n => simp only
  | identifier s => simp only
  | mark m =>
    rw [hkind] at hk
    cases m with
    | openParen => simp only
    | _ => exact hk.elim
  | _ =>
    rw [hkind] at hk
    exact hk.elim

theorem Phrase.StartsShown.congr {k k' : Token.Kind} (h : k.toClass = k'.toClass)
    (hk : Phrase.StartsShown k) : Phrase.StartsShown k' := by
  cases k with
  | integer n =>
    cases k' with
    | integer n' => trivial
    | _ => cases h
  | identifier s =>
    cases k' with
    | identifier s' => trivial
    | _ => cases h
  | mark m =>
    obtain rfl := eq_mark_of_toClass h.symm
    exact hk
  | _ => exact hk.elim

/-- Expressions that are statements are read exactly. -/
theorem shown_exact {k : Token} (hk : Phrase.StartsShown k.kind) (before ts : List Token) :
    Exact before (words Phrase.Statement) statement (k :: ts) := by
  have hshown : Exact before (sumsFrom k * markWord .semicolon) (fun us => (sum us).andThen
      fun e rest _ => (expectMark .semicolon rest).map fun _ => e.asShown) (k :: ts) :=
    Exact.andThen (begins_markWord .semicolon) (sumsFrom_exact hk before ts)
      fun _ e mid _ _ => (expectMark_exact .semicolon _ mid).map fun _ => e.asShown
  refine Exact.congr (fun us hus => ?_) (hshown.mono fun us hus _ => ?_)
  · obtain ⟨k', us, rfl, hclass⟩ := hus.exists_cons
    rw [statement_shown (Phrase.StartsShown.congr hclass hk)]
    exact Reply.Same.refl _
  · obtain ⟨vs, ⟨⟨t, ht⟩, hhead⟩, ws, ⟨q, rfl⟩, rfl⟩ := Language.mem_mul.mp hus
    cases vs with
    | nil => simp at hhead
    | cons k' vs =>
      obtain rfl : k' = k := by simpa using hhead
      exact ⟨_, .shown q ht hk⟩

theorem begins_statement : Begins (words Phrase.Statement) [] := by
  obtain ⟨t, ht⟩ := sum_zero
  exact ⟨[zeroToken, ⟨.mark .semicolon, .start⟩], ⟨_, .shown .start ht trivial⟩, by
    simp [Unsigned, zeroToken]⟩

theorem begins_body : Begins (words Phrase.Body) [] :=
  ⟨[⟨.mark .closeBrace, .start⟩], ⟨[], [], .start, rfl, .nil⟩, by simp [Unsigned]⟩

theorem begins_block : Begins (words Phrase.Block) [] :=
  ⟨[⟨.mark .openBrace, .start⟩, ⟨.mark .closeBrace, .start⟩], ⟨[], .braces .start .start .nil⟩,
    by simp [Unsigned]⟩

theorem begins_elifs : Begins (words Phrase.Elifs) [] :=
  ⟨[], ⟨[], .nil⟩, unsigned_nil⟩

theorem begins_otherwise : Begins (words Phrase.Otherwise) [] :=
  ⟨[], ⟨[], .absent⟩, unsigned_nil⟩

/-- A token that starts no statement is refused where it stands. -/
theorem notStatement_exact {k : Token}
    (hsticks : ∀ us, (statement (k :: us)).Sticks (.notStatement k)) (before ts : List Token) :
    Exact before (words Phrase.Statement) statement (k :: ts) :=
  Exact.refuse_cons hsticks rfl begins_statement (by simp [Offers, GrammarError.expected])

theorem elifs_stop {ts : List Token} (h : Stops (· == .keyword .elifWord) ts)
    (before : List Token) : Exact before (words Phrase.Elifs) elifs ts := by
  refine Exact.stop (a := []) (fun _ => ⟨[], .nil⟩) fun us hus => ?_
  have h := h.congr (fun k k' hk => by simpa using eq_keyword_iff hk .elifWord) hus
  cases us with
  | nil => simp [elifs]
  | cons k us => simp_all [elifs]

theorem otherwise_stop {ts : List Token} (h : Stops (· == .keyword .elseWord) ts)
    (before : List Token) : Exact before (words Phrase.Otherwise) otherwise ts := by
  refine Exact.stop (a := []) (fun _ => ⟨[], .absent⟩) fun us hus => ?_
  have h := h.congr (fun k k' hk => by simpa using eq_keyword_iff hk .elseWord) hus
  cases us with
  | nil => simp [otherwise]
  | cons k us => simp_all [otherwise]

section Statement

variable (p : Position) (before ts : List Token)

theorem let_exact :
    Exact before (words Phrase.Statement) statement (⟨.keyword .letWord, p⟩ :: ts) := by
  refine Exact.cons (fun us => ?_) (fun us hus _ => ?_) (Exact.andThen
    (begins_markWord .semicolon) (assignment_exact rfl before ts)
    fun used a mid _ _ => (expectMark_exact .semicolon _ mid).map fun _ => a)
  · rw [statement]
    exact Reply.same_later _
  · obtain ⟨_, hassign, _, ⟨s, rfl⟩, rfl⟩ := Language.mem_mul.mp hus
    obtain ⟨_, ⟨id, q, rfl⟩, _, hvalue, rfl⟩ := Language.mem_mul.mp hassign
    obtain ⟨_, ⟨r, rfl⟩, vs, ⟨v, hv⟩, rfl⟩ := Language.mem_mul.mp hvalue
    exact ⟨_, .assign id p q r s hv⟩

variable {ts}
  (hblock : ∀ us, us.length < ts.length → ∀ before, Exact before (words Phrase.Block) block us)
  (helifs : ∀ us, us.length < ts.length → ∀ before, Exact before (words Phrase.Elifs) elifs us)

include hblock

/-- Loops are read exactly, if shorter blocks are. -/
theorem repeat_exact :
    Exact before (words Phrase.Statement) statement (⟨.keyword .repeatWord, p⟩ :: ts) := by
  refine Exact.cons (fun us => ?_) (fun us hus _ => ?_) (Exact.andThen begins_block
    (sum_exact _ ts)
    fun used b mid _ hb => (hblock mid hb.length_lt _).map fun body => Tree.loop b body p)
  · rw [statement]
    exact Reply.same_later _
  · obtain ⟨vs, ⟨b, hb⟩, ws, ⟨body, hbody⟩, rfl⟩ := Language.mem_mul.mp hus
    exact ⟨_, .loop p hb hbody⟩

include helifs

/-- Conditions are read exactly, if shorter blocks and branches are. -/
theorem if_exact
    (hother : ∀ us, us.length < ts.length →
      ∀ before, Exact before (words Phrase.Otherwise) otherwise us) :
    Exact before (words Phrase.Statement) statement (⟨.keyword .ifWord, p⟩ :: ts) := by
  have hafter := begins_mul_nil begins_elifs begins_otherwise
  refine Exact.cons (fun us => ?_) (fun us hus _ => ?_) (Exact.andThen
    (begins_mul_nil begins_block hafter) (comparison_exact _ ts)
    fun _ c r1 _ hc => Exact.andMaybe hafter (hblock r1 hc.length_lt _)
      fun _ body r2 _ hbody => Exact.andMaybe begins_otherwise
        (helifs r2 (hbody.length_lt.trans hc.length_lt) _)
        fun _ others r3 _ hothers => (hother r3 ?_ _).map
          fun last => Tree.branch ⟨c, body, others, last, p⟩)
  · rw [statement]
    exact Reply.same_later _
  · obtain ⟨cs, ⟨c, hc⟩, _, hbranch, rfl⟩ := Language.mem_mul.mp hus
    obtain ⟨bs, ⟨body, hbody⟩, _, hrest, rfl⟩ := Language.mem_mul.mp hbranch
    obtain ⟨es, ⟨others, hothers⟩, ws, ⟨last, hlast⟩, rfl⟩ := Language.mem_mul.mp hrest
    exact ⟨_, .branch p hc hbody hothers hlast⟩
  · exact (Nat.le_of_lt_succ hothers.length_lt).trans_lt (hbody.length_lt.trans hc.length_lt)

theorem elif_exact :
    Exact before (words Phrase.Elifs) elifs (⟨.keyword .elifWord, p⟩ :: ts) := by
  refine Exact.cons (fun us => ?_) (fun us hus _ => ?_) (Exact.andThen
    (begins_mul_nil begins_block begins_elifs) (comparison_exact _ ts)
    fun _ c r1 _ hc => Exact.andMaybe begins_elifs (hblock r1 hc.length_lt _)
      fun _ body r2 _ hbody => (helifs r2 (hbody.length_lt.trans hc.length_lt) _).map
        fun more => Branch.mk c body [] [] p :: more)
  · rw [elifs, if_pos rfl]
    exact Reply.same_later_later _
  · obtain ⟨cs, ⟨c, hc⟩, _, hrest, rfl⟩ := Language.mem_mul.mp hus
    obtain ⟨bs, ⟨body, hbody⟩, es, ⟨others, hothers⟩, rfl⟩ := Language.mem_mul.mp hrest
    exact ⟨_, .cons p hc hbody hothers⟩

end Statement

theorem else_exact (p : Position) {before ts : List Token}
    (hblock : Exact (before ++ [⟨.keyword .elseWord, p⟩]) (words Phrase.Block) block ts) :
    Exact before (words Phrase.Otherwise) otherwise (⟨.keyword .elseWord, p⟩ :: ts) := by
  refine Exact.cons (fun us => ?_) (fun us hus _ => ?_) hblock
  · rw [otherwise, if_pos rfl]
    exact Reply.same_later_later _
  · obtain ⟨body, hbody⟩ := hus
    exact ⟨_, .block p hbody⟩

theorem braces_exact {before ts : List Token}
    (hbody : ∀ us, us.length < ts.length → ∀ before, Exact before (words Phrase.Body) body us) :
    Exact before (words Phrase.Block) block ts := by
  refine Exact.congr (fun us _ => ?_) (Exact.mono (fun us hus _ => ?_) (Exact.andThen begins_body
    (expectMark_exact .openBrace before ts) fun _ _ mid _ hbrace => hbody mid hbrace.length_lt _))
  · rw [block]
    exact Reply.Same.refl _
  · obtain ⟨_, ⟨p, rfl⟩, _, ⟨body, inner, q, rfl, hinner⟩, rfl⟩ := Language.mem_mul.mp hus
    exact ⟨body, .braces p q hinner⟩

theorem body_nil_exact (before : List Token) : Exact before (words Phrase.Body) body [] := by
  have hsticks : (body []).Sticks (.endOfInput [.mark .closeBrace]) := by simp [body]
  refine Exact.refuse_nil hsticks begins_body ?_
  intro c hc k hk hu
  obtain rfl := List.mem_singleton.mp hc
  exact begins_of_mem ⟨[], [], k.pos, by simp [← eq_mark_of_toClass hk], .nil⟩ hu

/-- A statement and the rest of its block are read exactly, if the parts are. -/
theorem body_cons_exact {k : Token} {before ts : List Token} (hk : k.kind ≠ .mark .closeBrace)
    (hstatement : Exact before (words Phrase.Statement) statement (k :: ts))
    (hbody : ∀ us, us.length < (k :: ts).length →
      ∀ before, Exact before (words Phrase.Body) body us) :
    Exact before (words Phrase.Body) body (k :: ts) := by
  refine Exact.congr (fun us hus => ?_) (Exact.mono (fun us hus _ => ?_) (Exact.andThen
    begins_body hstatement
    fun _ s mid _ hs => (hbody mid hs.length_lt _).map fun more => s :: more))
  · obtain ⟨k', us, rfl, hclass⟩ := hus.exists_cons
    have hk' : k'.kind ≠ .mark .closeBrace := fun h => hk ((eq_mark_iff hclass _).mpr h)
    rw [body, if_neg hk']
    exact Reply.Same.refl _
  · obtain ⟨vs, ⟨s, hs⟩, _, ⟨body, inner, q, rfl, hinner⟩, rfl⟩ := Language.mem_mul.mp hus
    exact ⟨_, vs ++ inner, q, by simp, .cons hs hinner⟩

mutual

/-- Statements are read exactly where there are tokens at all. -/
theorem statement_exact (before : List Token) : (k : Token) → (ts : List Token) →
    Exact before (words Phrase.Statement) statement (k :: ts)
  | ⟨kind, p⟩, ts => by
    cases kind with
    | integer n => exact shown_exact (by trivial) before ts
    | identifier s => exact shown_exact (by trivial) before ts
    | keyword w =>
      cases w with
      | letWord => exact let_exact p before ts
      | repeatWord => exact repeat_exact p before fun us _ before => block_exact before us
      | ifWord =>
        exact if_exact p before (fun us _ before => block_exact before us)
          (fun us _ before => elifs_exact before us) fun us _ before => otherwise_exact before us
      | _ => exact notStatement_exact (fun us => by simp [statement]) before ts
    | mark m =>
      cases m with
      | openParen => exact shown_exact (by trivial) before ts
      | _ => exact notStatement_exact (fun us => by simp [statement]) before ts
    | trivia t => exact notStatement_exact (fun us => by simp [statement]) before ts
termination_by k ts => 3 * (k :: ts).length + 1

theorem block_exact (before ts : List Token) : Exact before (words Phrase.Block) block ts :=
  braces_exact fun us _ before => body_exact before us
termination_by 3 * ts.length

theorem body_exact (before : List Token) :
    (ts : List Token) → Exact before (words Phrase.Body) body ts
  | [] => body_nil_exact before
  | k :: ts => by
    by_cases hk : k.kind = .mark .closeBrace
    · exact Exact.one (a := []) ⟨[], [], k.pos, by simp [← hk], .nil⟩ fun us => by simp [body, hk]
    · exact body_cons_exact hk (statement_exact before k ts) fun us _ before =>
        body_exact before us
termination_by ts => 3 * ts.length + 2
decreasing_by
  all_goals
    try simp only [List.length_cons] at *
    omega

theorem elifs_exact (before : List Token) :
    (ts : List Token) → Exact before (words Phrase.Elifs) elifs ts
  | [] => elifs_stop (stops_nil _) before
  | ⟨kind, p⟩ :: ts => by
    by_cases hk : kind = .keyword .elifWord
    · subst hk
      exact elif_exact p before (fun us _ before => block_exact before us)
        fun us _ before => elifs_exact before us
    · exact elifs_stop (by simpa using hk) before
termination_by ts => 3 * ts.length

theorem otherwise_exact (before : List Token) :
    (ts : List Token) → Exact before (words Phrase.Otherwise) otherwise ts
  | [] => otherwise_stop (stops_nil _) before
  | ⟨kind, p⟩ :: ts => by
    by_cases hk : kind = .keyword .elseWord
    · subst hk
      exact else_exact p (block_exact _ ts)
    · exact otherwise_stop (by simpa using hk) before
termination_by ts => 3 * ts.length

end

/-- The error of statements is found at the first token that none of them has there. -/
theorem statements_located {ts : List Token} {e : GrammarError} (h : statements ts = .error e)
    (before : List Token) (hu : Unsigned (before ++ ts)) :
    Locates before (words Phrase.Statements) (fun us => statements us = .error e) e ts := by
  fun_induction statements ts generalizing before with
  | case1 => simp at h
  | case2 k ts e' rest hs =>
    obtain rfl : e' = e := by simpa using h
    have hstatement := statement_exact before k ts
    refine (hstatement.located e' ⟨rest, hs⟩ hu).front (fun us hus hmem => ?_) fun us hus hs => ?_
    · obtain ⟨t, ht⟩ := hmem
      exact begins_of_mem ⟨[t], by simpa using Phrase.Statements.cons ht .nil⟩ hus
    · obtain ⟨k', us, rfl, _⟩ := hus.exists_cons
      obtain ⟨rest', hs⟩ := hs
      rw [statements, hs]
  | case3 k ts s rest hlt hs ih =>
    have hmore : statements rest = .error e := by
      cases hrest : statements rest with
      | ok more => simp [hrest] at h
      | error e' => simpa [hrest] using h
    have hstatement := statement_exact before k ts
    obtain ⟨used, hts, hused, hlocal⟩ := hstatement.taken s rest ⟨hlt, hs⟩
    rw [hts] at hu hused ⊢
    obtain ⟨t, ht⟩ := hused hu
    have hlocated := ih hmore (before ++ used) (by simpa using hu)
    refine Locates.after used hlocated (fun us hus hmem => ?_) fun us hus herror => ?_
    · obtain ⟨more, hmore⟩ := hmem
      exact begins_of_mem ⟨t :: more, .cons ht hmore⟩
        ((unsigned_append ..).mpr ⟨hu.right.left, hus⟩)
    · obtain ⟨k', ks, rfl, _⟩ := ht.head
      have hyields : (statement (k' :: (ks ++ us))).Yields s us := hlocal us hus
      obtain ⟨_, hs'⟩ := hyields
      rw [List.cons_append, statements, hs']
      simp [herror]

/-- The tokens begin a script. -/
def Viable (ts : List Token) : Prop :=
  ∃ more t, program (ts ++ more) = .ok t

theorem Begins.viable {ts : List Token} (h : Begins (words Phrase.Statements) ts) :
    Viable ts := by
  obtain ⟨more, ⟨body, hbody⟩, _⟩ := h
  exact ⟨more, .program body, (Phrase.Program.statements hbody).eq_ok⟩

/-- The error of a script is found at the first token that no script has there, or where the
tokens end. The tokens before that place begin a script and stay one with any token that the
error offers; with the token found there they begin none. -/
theorem program_error_first {source : String} {ts : List Token} {e : GrammarError}
    (hscan : Token.scan source = .ok ts) (h : program ts = .error e) :
    ∃ pre rest, ts = pre ++ rest ∧ e.StopsAt pre rest ∧ Viable pre ∧
      (∀ k ∈ rest.head?, ¬ Viable (pre ++ [k])) ∧
      ∀ c ∈ e.expected, ∀ k : Token, k.kind.toClass = c → Unsigned [k] → Viable (pre ++ [k]) := by
  have herror : ∀ us, program us = .error e ↔ statements us = .error e := by
    intro us
    cases hus : statements us <;> simp [program, hus]
  obtain ⟨pre, rest, hts, hstops, hbegins, hoffers, hhopeless⟩ :=
    statements_located ((herror ts).mp h) [] (Token.scan_unsigned hscan)
  refine ⟨pre, rest, hts, hstops, hbegins.viable, ?_, ?_⟩
  · rintro k hk ⟨more, t, ht⟩
    rw [List.append_assoc, List.singleton_append] at ht
    have hsame := (herror _).mpr (hhopeless k hk more)
    rw [hsame] at ht
    cases ht
  · intro c hc k hk hu
    exact (hoffers c hc k hk hu).viable

/-- The tokens of `repeat 2 { let b = 1 < n; }`. -/
def testAssigned : List Token :=
  [⟨.keyword .repeatWord, ⟨1, 1⟩⟩, ⟨.integer 2, ⟨1, 8⟩⟩, ⟨.mark .openBrace, ⟨1, 10⟩⟩,
    ⟨.keyword .letWord, ⟨1, 12⟩⟩, ⟨.identifier "b", ⟨1, 16⟩⟩, ⟨.mark .equals, ⟨1, 18⟩⟩,
    ⟨.integer 1, ⟨1, 20⟩⟩, ⟨.mark .less, ⟨1, 22⟩⟩, ⟨.identifier "n", ⟨1, 24⟩⟩,
    ⟨.mark .semicolon, ⟨1, 25⟩⟩, ⟨.mark .closeBrace, ⟨1, 27⟩⟩]

/-- The comparison could still be that of a choice. The semicolon says that it is not. -/
theorem testAssigned_error_first :
    Token.scan "repeat 2 \x7b let b = 1 < n; \x7d" = .ok testAssigned ∧
    program testAssigned = .error (.comparisonAssigned "b" ⟨1, 12⟩) ∧
    ∃ pre rest, testAssigned = pre ++ rest ∧
      GrammarError.StopsAt (.comparisonAssigned "b" ⟨1, 12⟩) pre rest ∧ Viable pre ∧
      ∀ k ∈ rest.head?, ¬ Viable (pre ++ [k]) := by
  have hscan : Token.scan "repeat 2 \x7b let b = 1 < n; \x7d" = .ok testAssigned := by
    with_unfolding_all rfl
  have herror : program testAssigned = .error (.comparisonAssigned "b" ⟨1, 12⟩) := by
    with_unfolding_all rfl
  obtain ⟨pre, rest, hts, hstops, hviable, hfirst, _⟩ := program_error_first hscan herror
  exact ⟨hscan, herror, pre, rest, hts, hstops, hviable, hfirst⟩

end Scriptlet.Grammar
