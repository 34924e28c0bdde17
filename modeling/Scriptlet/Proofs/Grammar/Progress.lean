import Scriptlet.Proofs.Grammar.Blame

/-!
Every rule of the grammar makes progress. A rule takes tokens from the front only: what it leaves
is an end of what it was given, also when it is stuck, and after a success it is shorter. How
far a success went was decided by the tokens taken and the class of the one after them. The
repetitions of the grammar are therefore loops that end: with at most one turn for each token,
and one more to stop, such a loop gives what its rule gives.
-/
namespace Scriptlet.Grammar

namespace Reply

variable {α β : Type} {n : Nat} {r : Reply α n} {ts : List Token}

def Leaves (r : Reply α n) (ts : List Token) : Prop :=
  r.rest <:+ ts

theorem Leaves.map (h : r.Leaves ts) (f : α → β) : (r.map f).Leaves ts := by
  cases r <;> exact h

theorem Leaves.later (h : r.Leaves ts) : r.later.Leaves ts := by
  cases r <;> exact h

theorem Leaves.cons (h : r.Leaves ts) (k : Token) : r.Leaves (k :: ts) :=
  h.trans (List.suffix_cons k ts)

theorem Leaves.andThen {f : α → (rest : List Token) → rest.length < n → Reply β rest.length}
    (h : r.Leaves ts) (hf : ∀ a rest hlt, (f a rest hlt).Leaves rest) :
    (r.andThen f).Leaves ts := by
  cases r with
  | stuck e rest => exact h
  | done a rest hlt =>
    have hnext := (hf a rest hlt).trans h
    simp only [Reply.andThen]
    generalize f a rest hlt = next at hnext ⊢
    cases next <;> exact hnext

theorem Leaves.andMaybe
    {f : α → (rest : List Token) → rest.length < n → Reply β (rest.length + 1)}
    (h : r.Leaves ts) (hf : ∀ a rest hlt, (f a rest hlt).Leaves rest) :
    (r.andMaybe f).Leaves ts := by
  cases r with
  | stuck e rest => exact h
  | done a rest hlt =>
    have hnext := (hf a rest hlt).trans h
    simp only [Reply.andMaybe]
    generalize f a rest hlt = next at hnext ⊢
    cases next <;> exact hnext

end Reply

open Reply

theorem expectMark_leaves (m : Mark) (ts : List Token) : (expectMark m ts).Leaves ts := by
  cases ts with
  | nil => exact List.suffix_refl []
  | cons k ts =>
    rw [expectMark, expect]
    split <;> exact List.suffix_cons k ts

theorem expectName_leaves (ts : List Token) : (expectName ts).Leaves ts := by
  cases ts with
  | nil => exact List.suffix_refl []
  | cons k ts =>
    rw [expectName]
    split <;> exact List.suffix_cons k ts

mutual

/-- A factor leaves an end of its tokens, and so does every rule for expressions. -/
theorem factor_leaves : (ts : List Token) → (factor ts).Leaves ts
  | [] => by
    rw [factor]
    exact List.suffix_refl []
  | ⟨kind, p⟩ :: ts => by
    rw [factor]
    cases kind with
    | keyword k => cases k <;> exact List.suffix_cons _ ts
    | mark m =>
      cases m with
      | openParen =>
        refine Leaves.later (Leaves.cons ((sum_leaves ts).andThen fun e rest _ => ?_) _)
        exact (expectMark_leaves .closeParen rest).map _
      | plus => exact ((factor_leaves ts).cons _).later
      | minus => exact (((factor_leaves ts).map _).cons _).later
      | _ => exact List.suffix_cons _ ts
    | _ => exact List.suffix_cons _ ts
termination_by ts => 3 * ts.length

theorem product_leaves (ts : List Token) : (product ts).Leaves ts := by
  rw [product]
  exact (factor_leaves ts).andMaybe fun left rest _ => productTail_leaves left rest
termination_by 3 * ts.length + 1

theorem productTail_leaves (left : Tree) : (ts : List Token) → (productTail left ts).Leaves ts
  | [] => by
    rw [productTail]
    exact List.suffix_refl []
  | t :: ts => by
    rw [productTail]
    cases ArithOp.ofKindAt? 2 t.kind with
    | none => exact List.suffix_refl _
    | some op =>
      refine Leaves.later (Leaves.later (Leaves.cons ?_ t))
      exact (factor_leaves ts).andMaybe fun right rest _ => productTail_leaves _ rest
termination_by ts => 3 * ts.length

theorem sum_leaves (ts : List Token) : (sum ts).Leaves ts := by
  rw [sum]
  exact (product_leaves ts).andMaybe fun left rest _ => sumTail_leaves left rest
termination_by 3 * ts.length + 2

theorem sumTail_leaves (left : Tree) : (ts : List Token) → (sumTail left ts).Leaves ts
  | [] => by
    rw [sumTail]
    exact List.suffix_refl []
  | t :: ts => by
    rw [sumTail]
    cases ArithOp.ofKindAt? 1 t.kind with
    | none => exact List.suffix_refl _
    | some op =>
      refine Leaves.later (Leaves.later (Leaves.cons ?_ t))
      exact (product_leaves ts).andMaybe fun right rest _ => sumTail_leaves _ rest
termination_by ts => 3 * ts.length

end

theorem comparison_leaves (ts : List Token) : (comparison ts).Leaves ts := by
  refine (sum_leaves ts).andMaybe fun left rest _ => ?_
  cases rest with
  | nil => exact List.suffix_refl []
  | cons t rest =>
    rw [comparisonTail]
    cases CompareOp.ofKind? t.kind with
    | none => exact List.suffix_refl _
    | some op => exact (((sum_leaves rest).map _).cons t).later.later

theorem choice_leaves (test : Tree) (p : Position) (ts : List Token) :
    (choice test p ts).Leaves ts := by
  refine (sum_leaves ts).andThen fun yes rest _ => ?_
  refine (expectMark_leaves .colon rest).andThen fun _ rest _ => ?_
  exact (sum_leaves rest).map _

theorem valueTail_leaves (id : String) (p : Position) (value : Tree) (ts : List Token) :
    (valueTail id p value ts).Leaves ts := by
  cases ts with
  | nil =>
    rw [valueTail]
    split <;> exact List.suffix_refl []
  | cons t ts =>
    rw [valueTail]
    split
    · exact ((choice_leaves value t.pos ts).cons t).later.later
    · split <;> exact List.suffix_refl _

theorem assignment_leaves (p : Position) (ts : List Token) : (assignment p ts).Leaves ts := by
  refine (expectName_leaves ts).andThen fun id rest _ => ?_
  refine (expectMark_leaves .equals rest).andThen fun _ rest _ => ?_
  refine Leaves.map ?_ _
  exact (comparison_leaves rest).andMaybe fun value rest _ => valueTail_leaves id p value rest

/-- The rule for an expression that is a statement of its own. -/
theorem shown_leaves (ts : List Token) : ((sum ts).andThen fun e rest _ =>
    (expectMark .semicolon rest).map fun _ => e.asShown).Leaves ts :=
  (sum_leaves ts).andThen fun _ rest _ => (expectMark_leaves .semicolon rest).map _

mutual

/-- A statement leaves an end of its tokens, and so do the rules for blocks. -/
theorem statement_leaves : (ts : List Token) → (statement ts).Leaves ts
  | [] => by
    rw [statement]
    exact List.suffix_refl []
  | ⟨kind, p⟩ :: ts => by
    rw [statement]
    cases kind with
    | integer n => exact shown_leaves _
    | identifier s => exact shown_leaves _
    | keyword k =>
      cases k with
      | letWord =>
        refine Leaves.later (Leaves.cons ((assignment_leaves p ts).andThen fun a rest _ => ?_) _)
        exact (expectMark_leaves .semicolon rest).map _
      | repeatWord =>
        refine Leaves.later (Leaves.cons ((sum_leaves ts).andThen fun bound rest _ => ?_) _)
        exact (block_leaves rest).map _
      | ifWord =>
        refine Leaves.later (Leaves.cons ((comparison_leaves ts).andThen fun test rest _ => ?_) _)
        refine (block_leaves rest).andMaybe fun body rest _ => ?_
        refine (elifs_leaves rest).andMaybe fun others rest _ => ?_
        exact (otherwise_leaves rest).map _
      | _ => exact List.suffix_refl _
    | mark m =>
      cases m with
      | openParen => exact shown_leaves _
      | _ => exact List.suffix_refl _
    | trivia t => exact List.suffix_refl _
termination_by ts => 3 * ts.length + 1

theorem block_leaves (ts : List Token) : (block ts).Leaves ts := by
  rw [block]
  exact (expectMark_leaves .openBrace ts).andThen fun _ rest _ => body_leaves rest
termination_by 3 * ts.length

theorem body_leaves : (ts : List Token) → (body ts).Leaves ts
  | [] => by
    rw [body]
    exact List.suffix_refl []
  | t :: ts => by
    rw [body]
    split
    · exact List.suffix_cons t ts
    · refine (statement_leaves (t :: ts)).andThen fun s rest _ => ?_
      exact (body_leaves rest).map _
termination_by ts => 3 * ts.length + 2
decreasing_by
  all_goals
    try simp only [List.length_cons] at *
    omega

theorem elifs_leaves : (ts : List Token) → (elifs ts).Leaves ts
  | [] => by
    rw [elifs]
    exact List.suffix_refl []
  | t :: ts => by
    rw [elifs]
    split
    · refine Leaves.later (Leaves.later (Leaves.cons ?_ t))
      refine (comparison_leaves ts).andThen fun test rest _ => ?_
      refine (block_leaves rest).andMaybe fun body rest _ => ?_
      exact (elifs_leaves rest).map _
    · exact List.suffix_refl _
termination_by ts => 3 * ts.length

theorem otherwise_leaves : (ts : List Token) → (otherwise ts).Leaves ts
  | [] => by
    rw [otherwise]
    exact List.suffix_refl []
  | t :: ts => by
    rw [otherwise]
    split
    · exact ((block_leaves ts).cons t).later.later
    · exact List.suffix_refl _
termination_by ts => 3 * ts.length

end

structure Progresses {α : Type} (rule : (ts : List Token) → Reply α ts.length) : Prop where
  /-- What it leaves is an end of its tokens, whether it succeeds or is stuck. -/
  suffix : ∀ ts, (rule ts).rest <:+ ts
  /-- After a success that end is shorter. -/
  shorter : ∀ ts a rest, (rule ts).Yields a rest → rest.length < ts.length
  /-- A success depends on the tokens taken and on the class of the one after them. -/
  oneAhead : ∀ used rest a, (rule (used ++ rest)).Yields a rest → ∀ rest', SameHead rest rest' →
    (rule (used ++ rest')).Yields a rest'

/-- A rule that reads exactly looks no further than it has to. -/
theorem Progresses.of_exact {α : Type} {rule : (ts : List Token) → Reply α ts.length}
    {lang : Language Token} (hleaves : ∀ ts, (rule ts).Leaves ts)
    (hexact : ∀ ts a rest, (rule ts).Yields a rest → Exact [] lang rule ts) :
    Progresses rule where
  suffix := hleaves
  shorter _ _ _ hy := hy.length_lt
  oneAhead used rest a hy := by
    obtain ⟨used', hused, _, hlocal⟩ := (hexact _ a rest hy).taken a rest hy
    obtain rfl : used = used' := List.append_cancel_right hused
    exact hlocal

section Loop

variable {σ ρ : Type}

/-- Turn after turn until one gives an answer, and none if the turns run out before. -/
def loop (turn : σ → σ ⊕ ρ) : Nat → σ → Option ρ
  | 0, _ => none
  | n + 1, s =>
    match turn s with
    | .inl s' => loop turn n s'
    | .inr answer => some answer

/-- A loop ends if every turn gives its answer or shrinks the state and keeps the answer. -/
theorem loop_eq_some {turn : σ → σ ⊕ ρ} (size : σ → Nat) (answer : σ → ρ)
    (hturn : ∀ s, turn s = .inr (answer s) ∨
      ∃ s', turn s = .inl s' ∧ size s' < size s ∧ answer s' = answer s)
    (n : Nat) (s : σ) (hn : size s < n) : loop turn n s = some (answer s) := by
  induction n generalizing s with
  | zero => omega
  | succ n ih =>
    rw [loop]
    rcases hturn s with hstop | ⟨s', hnext, hsize, hanswer⟩
    · rw [hstop]
    · have hrest := ih s' (by omega)
      rw [hanswer] at hrest
      rw [hnext]
      exact hrest

end Loop

namespace Reply

variable {α β σ ρ : Type} {n : Nat}

def outcome (r : Reply α n) : Except GrammarError α × List Token :=
  (r.toExcept, r.rest)

@[simp] theorem outcome_later (r : Reply α n) : r.later.outcome = r.outcome := by
  cases r <;> rfl

theorem outcome_map (r : Reply α n) (f : α → β) :
    (r.map f).outcome = (r.outcome.1.map f, r.outcome.2) := by
  cases r <;> rfl

theorem outcome_andThen_done (a : α) (rest : List Token) (h : rest.length < n)
    (f : α → (rest : List Token) → rest.length < n → Reply β rest.length) :
    ((done a rest h).andThen f).outcome = (f a rest h).outcome := by
  simp only [andThen]
  cases f a rest h <;> rfl

theorem outcome_andMaybe_done (a : α) (rest : List Token) (h : rest.length < n)
    (f : α → (rest : List Token) → rest.length < n → Reply β (rest.length + 1)) :
    ((done a rest h).andMaybe f).outcome = (f a rest h).outcome := by
  simp only [andMaybe]
  cases f a rest h <;> rfl

/-- A turn of a loop that takes one phrase: `next` makes its value part of the state, and an error
ends the loop. -/
def turn (r : Reply α n) (next : α → σ) :
    (List Token × σ) ⊕ (Except GrammarError ρ × List Token) :=
  match r with
  | done a rest _ => .inl (rest, next a)
  | stuck e rest => .inr (.error e, rest)

end Reply

def programTurn : List Token × List Tree →
    (List Token × List Tree) ⊕ (Except GrammarError (List Tree) × List Token)
  | ([], read) => .inr (.ok read, [])
  | (t :: ts, read) =>
    match statement (t :: ts) with
    | .stuck e _ => .inr (.error e, [])
    | .done s rest _ => .inl (rest, read ++ [s])

def bodyTurn : List Token × List Tree →
    (List Token × List Tree) ⊕ (Except GrammarError (List Tree) × List Token)
  | ([], _) => .inr (.error (.endOfInput [.mark .closeBrace]), [])
  | (t :: ts, read) =>
    if t.kind = .mark .closeBrace then .inr (.ok read, ts)
    else (statement (t :: ts)).turn fun s => read ++ [s]

def branchAt (p : Position) (ts : List Token) : Reply Branch ts.length :=
  (comparison ts).andThen fun test rest _ =>
    (block rest).map fun body => Branch.mk test body [] [] p

def elifTurn : List Token × List Branch →
    (List Token × List Branch) ⊕ (Except GrammarError (List Branch) × List Token)
  | ([], read) => .inr (.ok read, [])
  | (t :: ts, read) =>
    if t.kind = .keyword .elifWord then (branchAt t.pos ts).turn fun b => read ++ [b]
    else .inr (.ok read, t :: ts)

def operatorTurn (level : Nat) (operand : (ts : List Token) → Reply Tree ts.length) :
    List Token × Tree → (List Token × Tree) ⊕ (Except GrammarError Tree × List Token)
  | ([], left) => .inr (.ok left, [])
  | (t :: ts, left) =>
    match ArithOp.ofKindAt? level t.kind with
    | none => .inr (.ok left, t :: ts)
    | some op => (operand ts).turn fun right => .arith op left right false t.pos

section Lists

variable {α : Type}
  {turn : List Token × List α →
    (List Token × List α) ⊕ (Except GrammarError (List α) × List Token)}
  {result : List Token → Except GrammarError (List α) × List Token}

/-- A turn does what the rule does that reads a list: it stops with what the rule gives, put after
what was read before, or it takes one member, and the rule gives that and what it gives for
the tokens left. -/
def TurnsLike (turn : List Token × List α →
      (List Token × List α) ⊕ (Except GrammarError (List α) × List Token))
    (result : List Token → Except GrammarError (List α) × List Token) : Prop :=
  ∀ ts read,
    turn (ts, read) = .inr ((result ts).1.map (read ++ ·), (result ts).2) ∨
    ∃ a rest, turn (ts, read) = .inl (rest, read ++ [a]) ∧ rest.length < ts.length ∧
      result ts = ((result rest).1.map (a :: ·), (result rest).2)

/-- A loop whose turns do what a rule does comes to what the rule gives. -/
theorem TurnsLike.loop_eq (h : TurnsLike turn result) (ts : List Token) :
    loop turn (ts.length + 1) (ts, []) = some (result ts) := by
  let answer (s : List Token × List α) : Except GrammarError (List α) × List Token :=
    ((result s.1).1.map (s.2 ++ ·), (result s.1).2)
  have hturn : ∀ s, turn s = .inr (answer s) ∨
      ∃ s', turn s = .inl s' ∧ s'.1.length < s.1.length ∧ answer s' = answer s := by
    rintro ⟨ts, read⟩
    rcases h ts read with hstop | ⟨a, rest, hmember, hlt, hresult⟩
    · exact .inl hstop
    · refine .inr ⟨_, hmember, hlt, ?_⟩
      simp only [answer, hresult]
      cases (result rest).1 <;> simp [Except.map]
  have hloop := loop_eq_some (·.1.length) answer hturn (ts.length + 1) (ts, []) (Nat.lt_succ_self _)
  rw [hloop]
  simp only [answer]
  cases hresult : result ts with
  | mk answer rest => cases answer <;> simp [Except.map]

end Lists

/-- The turns of a block do what the rule for its statements does. -/
theorem body_turns : TurnsLike bodyTurn fun ts => (body ts).outcome := by
  intro ts read
  cases ts with
  | nil =>
    have hbody : (body []).outcome = (.error (.endOfInput [.mark .closeBrace]), []) := by
      rw [body]
      rfl
    exact .inl (by simp [bodyTurn, hbody, Except.map])
  | cons t ts =>
    by_cases hclose : t.kind = .mark .closeBrace
    · have hbody : (body (t :: ts)).outcome = (.ok [], ts) := by
        rw [body, if_pos hclose]
        rfl
      exact .inl (by simp [bodyTurn, hclose, hbody, Except.map])
    · cases hs : statement (t :: ts) with
      | stuck e rest =>
        have hbody : (body (t :: ts)).outcome = (.error e, rest) := by
          rw [body, if_neg hclose, hs]
          rfl
        exact .inl (by simp [bodyTurn, hclose, hs, turn, hbody, Except.map])
      | done s rest hlt =>
        have hbody : (body (t :: ts)).outcome =
            ((body rest).outcome.1.map (s :: ·), (body rest).outcome.2) := by
          rw [body, if_neg hclose, hs, outcome_andThen_done, outcome_map]
        exact .inr ⟨s, rest, by simp [bodyTurn, hclose, hs, turn], hlt, hbody⟩

theorem elifs_branchAt {t : Token} (h : t.kind = .keyword .elifWord) (ts : List Token) :
    (elifs (t :: ts)).outcome =
      ((branchAt t.pos ts).andMaybe fun b rest _ => (elifs rest).map (b :: ·)).outcome := by
  rw [elifs, if_pos h, outcome_later, outcome_later, branchAt]
  cases comparison ts with
  | stuck e rest => rfl
  | done test mid hmid =>
    rw [outcome_andThen_done]
    cases hblock : block mid with
    | stuck e rest =>
      simp only [andThen, hblock]
      rfl
    | done inner rest hrest =>
      simp only [andThen, hblock, map, outcome_andMaybe_done]

theorem elifs_turns : TurnsLike elifTurn fun ts => (elifs ts).outcome := by
  intro ts read
  cases ts with
  | nil =>
    have helifs : (elifs []).outcome = (.ok [], []) := by
      rw [elifs]
      rfl
    exact .inl (by simp [elifTurn, helifs, Except.map])
  | cons t ts =>
    by_cases helif : t.kind = .keyword .elifWord
    · have helifs := elifs_branchAt helif ts
      cases hb : branchAt t.pos ts with
      | stuck e rest =>
        have hstuck : (elifs (t :: ts)).outcome = (.error e, rest) := by
          rw [helifs, hb]
          rfl
        exact .inl (by simp [elifTurn, helif, hb, turn, hstuck, Except.map])
      | done b rest hlt =>
        rw [hb, outcome_andMaybe_done, outcome_map] at helifs
        exact .inr ⟨b, rest, by simp [elifTurn, helif, hb, turn], Nat.lt_succ_of_lt hlt, helifs⟩
    · have helifs : (elifs (t :: ts)).outcome = (.ok [], t :: ts) := by
        rw [elifs, if_neg helif]
        rfl
      exact .inl (by simp [elifTurn, helif, helifs, Except.map])

theorem program_turns : TurnsLike programTurn fun ts => (statements ts, []) := by
  intro ts read
  cases ts with
  | nil =>
    have hnil : statements [] = .ok [] := by rw [statements]
    exact .inl (by simp [programTurn, hnil, Except.map])
  | cons t ts =>
    cases hs : statement (t :: ts) with
    | stuck e rest =>
      have hstuck : statements (t :: ts) = .error e := by simp only [statements, hs]
      exact .inl (by simp [programTurn, hs, hstuck, Except.map])
    | done s rest hlt =>
      have hdone : (statements (t :: ts), ([] : List Token)) =
          ((statements rest).map (s :: ·), []) := by
        rw [statements, hs]
        rfl
      exact .inr ⟨s, rest, by simp [programTurn, hs], hlt, hdone⟩

section Operators

variable {level : Nat} {operand : (ts : List Token) → Reply Tree ts.length}
  {tail : Tree → (ts : List Token) → Reply Tree (ts.length + 1)}

/-- The rule for what follows an operand is the loop over the operators of its level. -/
theorem operator_loop (hnil : ∀ left, tail left [] = .done left [] (Nat.lt_succ_self _))
    (hstop : ∀ left t ts, ArithOp.ofKindAt? level t.kind = none →
      tail left (t :: ts) = .done left (t :: ts) (Nat.lt_succ_self _))
    (hgo : ∀ left t ts op, ArithOp.ofKindAt? level t.kind = some op →
      tail left (t :: ts) = (Reply.andMaybe (operand ts) fun right rest _ =>
        tail (.arith op left right false t.pos) rest).later.later)
    (left : Tree) (ts : List Token) :
    loop (operatorTurn level operand) (ts.length + 1) (ts, left) = some (tail left ts).outcome := by
  have hturn : ∀ s, operatorTurn level operand s = .inr (tail s.2 s.1).outcome ∨
      ∃ s', operatorTurn level operand s = .inl s' ∧ s'.1.length < s.1.length ∧
        (tail s'.2 s'.1).outcome = (tail s.2 s.1).outcome := by
    rintro ⟨_ | ⟨t, ts⟩, left⟩
    · exact .inl (by rw [hnil]; rfl)
    · cases hop : ArithOp.ofKindAt? level t.kind with
      | none => exact .inl (by rw [operatorTurn, hop, hstop left t ts hop]; rfl)
      | some op =>
        rw [hgo left t ts op hop]
        cases hright : operand ts with
        | stuck e rest => exact .inl (by simp only [operatorTurn, hop, hright]; rfl)
        | done right rest hlt =>
          refine .inr ⟨(rest, .arith op left right false t.pos), ?_, Nat.lt_succ_of_lt hlt, ?_⟩
          · simp only [operatorTurn, hop, hright, turn]
          · simp only [outcome_later, outcome_andMaybe_done]
  exact loop_eq_some (·.1.length) (fun s => (tail s.2 s.1).outcome) hturn (ts.length + 1) (ts, left)
    (Nat.lt_succ_self _)

end Operators

/-- Statements are read from the front, looking one token ahead at most. -/
theorem statement_progresses : Progresses statement := by
  have hexact : ∀ ts s rest, (statement ts).Yields s rest →
      Exact [] (words Phrase.Statement) statement ts := by
    intro ts s rest hy
    cases ts with
    | nil => exact absurd hy.length_lt (Nat.not_lt_zero _)
    | cons k ts => exact statement_exact [] k ts
  exact .of_exact statement_leaves hexact

/-- Every rule goes through its tokens from the front, taking at least one when it succeeds and
looking at most one ahead. So each loop over them ends, one turn per token and a last one being
enough, and what it ends with is what its rule gives. -/
theorem rules_progress :
    (Progresses statement ∧ Progresses block ∧ Progresses comparison ∧ Progresses sum ∧
      Progresses product ∧ Progresses factor) ∧
    ∀ ts : List Token,
      loop programTurn (ts.length + 1) (ts, []) = some (statements ts, []) ∧
      loop bodyTurn (ts.length + 1) (ts, []) = some (body ts).outcome ∧
      loop elifTurn (ts.length + 1) (ts, []) = some (elifs ts).outcome ∧
      (∀ left, loop (operatorTurn 1 product) (ts.length + 1) (ts, left) =
        some (sumTail left ts).outcome) ∧
      ∀ left, loop (operatorTurn 2 factor) (ts.length + 1) (ts, left) =
        some (productTail left ts).outcome := by
  refine ⟨⟨statement_progresses, .of_exact block_leaves fun ts _ _ _ => block_exact [] ts,
    .of_exact comparison_leaves fun ts _ _ _ => comparison_exact [] ts,
    .of_exact sum_leaves fun ts _ _ _ => sum_exact [] ts,
    .of_exact product_leaves fun ts _ _ _ => product_exact [] ts,
    .of_exact factor_leaves fun ts _ _ _ => factor_exact [] ts⟩, fun ts => ?_⟩
  refine ⟨program_turns.loop_eq ts, body_turns.loop_eq ts, elifs_turns.loop_eq ts, fun left => ?_,
    fun left => ?_⟩
  · exact operator_loop (fun _ => by rw [sumTail]) (fun _ _ _ h => by rw [sumTail, h])
      (fun _ _ _ _ h => by rw [sumTail, h]) left ts
  · exact operator_loop (fun _ => by rw [productTail]) (fun _ _ _ h => by rw [productTail, h])
      (fun _ _ _ _ h => by rw [productTail, h]) left ts

end Scriptlet.Grammar
