import Scriptlet.Proofs.Tree.Moved

/-!
Grammar rules do not look at places. Given moved tokens, a rule takes as many of them as it
took before, gives the same tree moved, or is stuck with the same error moved. The two
replies have different types, as each bounds its leftover by its own tokens, so they are
compared by a relation; every way of joining replies preserves it and each rule follows
the recursion of its own definition.
-/
namespace Scriptlet.Grammar

variable {f : Position → Position}

namespace Reply

variable {α β : Type} {n m : Nat}

/-- The second reply is the first with its places moved, where `g` moves those of a value. -/
inductive Moves (f : Position → Position) (g : α → α) : Reply α n → Reply α m → Prop
  | done (a : α) (rest : List Token) (h : rest.length < n)
      (h' : (rest.map (Token.moved f)).length < m) :
      Moves f g (.done a rest h) (.done (g a) (rest.map (Token.moved f)) h')
  | stuck (e : GrammarError) (rest : List Token) :
      Moves f g (.stuck e rest) (.stuck (e.moved f) (rest.map (Token.moved f)))

variable {g : α → α} {g' : β → β} {r : Reply α n} {r' : Reply α m}

theorem Moves.eq_done {a : α} {rest : List Token} {hn : rest.length < n}
    (h : Moves f g (.done a rest hn) r') :
    ∃ hm, r' = .done (g a) (rest.map (Token.moved f)) hm := by
  cases h with
  | done a rest hn hm => exact ⟨hm, rfl⟩

theorem Moves.eq_stuck {e : GrammarError} {rest : List Token}
    (h : Moves f g (.stuck e rest : Reply α n) r') :
    r' = .stuck (e.moved f) (rest.map (Token.moved f)) := by
  cases h with
  | stuck e rest => rfl

theorem Moves.later (h : Moves f g r r') : Moves f g r.later r'.later := by
  cases h with
  | done a rest hn hm => exact .done a rest _ _
  | stuck e rest => exact .stuck e rest

theorem Moves.map {k k' : α → β} (h : Moves f g r r') (hk : ∀ a, k' (g a) = g' (k a)) :
    Moves f g' (r.map k) (r'.map k') := by
  cases h with
  | done a rest hn hm =>
    simp only [Reply.map, hk]
    exact .done (k a) rest _ _
  | stuck e rest => exact .stuck e rest

/-- Replies that move do so one after the other. -/
theorem Moves.andThen {k : α → (rest : List Token) → rest.length < n → Reply β rest.length}
    {k' : α → (rest : List Token) → rest.length < m → Reply β rest.length}
    (h : Moves f g r r') (hk : ∀ a rest (hn : rest.length < n) hm,
      Moves f g' (k a rest hn) (k' (g a) (rest.map (Token.moved f)) hm)) :
    Moves f g' (r.andThen k) (r'.andThen k') := by
  cases h with
  | done a rest hn hm =>
    have hnext := hk a rest hn hm
    simp only [Reply.andThen]
    generalize k a rest hn = next at hnext ⊢
    generalize k' (g a) (rest.map (Token.moved f)) hm = next' at hnext ⊢
    cases hnext with
    | done b rest' hb hb' => exact .done b rest' _ _
    | stuck e rest' => exact .stuck e rest'
  | stuck e rest => exact .stuck e rest

theorem Moves.andMaybe
    {k : α → (rest : List Token) → rest.length < n → Reply β (rest.length + 1)}
    {k' : α → (rest : List Token) → rest.length < m → Reply β (rest.length + 1)}
    (h : Moves f g r r') (hk : ∀ a rest (hn : rest.length < n) hm,
      Moves f g' (k a rest hn) (k' (g a) (rest.map (Token.moved f)) hm)) :
    Moves f g' (r.andMaybe k) (r'.andMaybe k') := by
  cases h with
  | done a rest hn hm =>
    have hnext := hk a rest hn hm
    simp only [Reply.andMaybe]
    generalize k a rest hn = next at hnext ⊢
    generalize k' (g a) (rest.map (Token.moved f)) hm = next' at hnext ⊢
    cases hnext with
    | done b rest' hb hb' => exact .done b rest' _ _
    | stuck e rest' => exact .stuck e rest'
  | stuck e rest => exact .stuck e rest

end Reply

open Reply

theorem expectMark_moves (m : Mark) (ts : List Token) :
    Moves f (Token.moved f) (expectMark m ts) (expectMark m (ts.map (Token.moved f))) := by
  cases ts with
  | nil => exact .stuck (.endOfInput [.mark m]) []
  | cons t ts =>
    rw [List.map_cons, expectMark, expectMark, expect, expect, Token.moved_kind]
    by_cases hclass : t.kind.toClass = .mark m
    · rw [if_pos hclass, if_pos hclass]
      exact .done t ts _ _
    · rw [if_neg hclass, if_neg hclass]
      exact .stuck (.unexpected [.mark m] t) ts

theorem expectName_moves (ts : List Token) :
    Moves f id (expectName ts) (expectName (ts.map (Token.moved f))) := by
  cases ts with
  | nil => exact .stuck (.endOfInput [.identifier]) []
  | cons t ts =>
    obtain ⟨kind, p⟩ := t
    cases kind with
    | identifier s => exact .done s ts _ _
    | keyword k => exact .stuck (.reserved ⟨.keyword k, p⟩) ts
    | _ => exact .stuck (.unexpected [.identifier] _) ts

mutual

/-- Factors are read the same wherever they stand; whether a sign is folded into a literal depends
on the operand alone. -/
theorem factor_moves : (ts : List Token) →
    Moves f (Tree.moved f) (factor ts) (factor (ts.map (Token.moved f)))
  | [] => by
    rw [List.map_nil, factor]
    exact .stuck (.endOfInput factorStart) []
  | ⟨kind, p⟩ :: ts => by
    rw [List.map_cons, factor, factor]
    cases kind with
    | integer n => exact .done (Tree.literal n false p) ts _ _
    | identifier s => exact .done (Tree.name s false p) ts _ _
    | keyword k =>
      cases k with
      | andWord => exact .stuck (.reserved _) ts
      | orWord => exact .stuck (.reserved _) ts
      | notWord => exact .stuck (.reserved _) ts
      | _ => exact .stuck (.unexpected factorStart _) ts
    | mark m =>
      cases m with
      | openParen =>
        refine Moves.later ((sum_moves ts).andThen fun e rest _ _ => ?_)
        exact (expectMark_moves .closeParen rest).map fun _ => rfl
      | plus => exact (factor_moves ts).later
      | minus => exact ((factor_moves ts).map (Tree.negated_moved f p)).later
      | _ => exact .stuck (.unexpected factorStart _) ts
    | trivia t => exact .stuck (.unexpected factorStart _) ts
termination_by ts => 3 * ts.length

theorem product_moves (ts : List Token) :
    Moves f (Tree.moved f) (product ts) (product (ts.map (Token.moved f))) := by
  rw [product, product]
  exact (factor_moves ts).andMaybe fun left rest _ _ => productTail_moves left rest
termination_by 3 * ts.length + 1

theorem productTail_moves (left : Tree) : (ts : List Token) →
    Moves f (Tree.moved f) (productTail left ts)
      (productTail (left.moved f) (ts.map (Token.moved f)))
  | [] => by
    rw [List.map_nil, productTail, productTail]
    exact .done left [] _ _
  | t :: ts => by
    rw [List.map_cons, productTail, productTail, Token.moved_kind]
    cases ArithOp.ofKindAt? 2 t.kind with
    | none => exact .done left (t :: ts) _ _
    | some op =>
      refine ((factor_moves ts).andMaybe fun right rest _ _ => ?_).later.later
      exact productTail_moves (.arith op left right false t.pos) rest
termination_by ts => 3 * ts.length

theorem sum_moves (ts : List Token) :
    Moves f (Tree.moved f) (sum ts) (sum (ts.map (Token.moved f))) := by
  rw [sum, sum]
  exact (product_moves ts).andMaybe fun left rest _ _ => sumTail_moves left rest
termination_by 3 * ts.length + 2

theorem sumTail_moves (left : Tree) : (ts : List Token) →
    Moves f (Tree.moved f) (sumTail left ts)
      (sumTail (left.moved f) (ts.map (Token.moved f)))
  | [] => by
    rw [List.map_nil, sumTail, sumTail]
    exact .done left [] _ _
  | t :: ts => by
    rw [List.map_cons, sumTail, sumTail, Token.moved_kind]
    cases ArithOp.ofKindAt? 1 t.kind with
    | none => exact .done left (t :: ts) _ _
    | some op =>
      refine ((product_moves ts).andMaybe fun right rest _ _ => ?_).later.later
      exact sumTail_moves (.arith op left right false t.pos) rest
termination_by ts => 3 * ts.length

end

theorem comparisonTail_moves (left : Tree) (ts : List Token) :
    Moves f (Tree.moved f) (comparisonTail left ts)
      (comparisonTail (left.moved f) (ts.map (Token.moved f))) := by
  cases ts with
  | nil => exact .done left [] _ _
  | cons t ts =>
    rw [List.map_cons, comparisonTail, comparisonTail, Token.moved_kind]
    cases CompareOp.ofKind? t.kind with
    | none => exact .done left (t :: ts) _ _
    | some op =>
      refine Moves.later (Moves.later ?_)
      exact (sum_moves ts).map fun right => rfl

theorem comparison_moves (ts : List Token) :
    Moves f (Tree.moved f) (comparison ts) (comparison (ts.map (Token.moved f))) :=
  (sum_moves ts).andMaybe fun left rest _ _ => comparisonTail_moves left rest

theorem choice_moves (test : Tree) (p : Position) (ts : List Token) :
    Moves f (Tree.moved f) (choice test p ts)
      (choice (test.moved f) (f p) (ts.map (Token.moved f))) := by
  refine (sum_moves ts).andThen fun yes rest _ _ => ?_
  refine (expectMark_moves .colon rest).andThen fun _ rest _ _ => ?_
  exact (sum_moves rest).map fun no => rfl

theorem valueTail_moves (id : String) (p : Position) (value : Tree) (ts : List Token) :
    Moves f (Tree.moved f) (valueTail id p value ts)
      (valueTail id (f p) (value.moved f) (ts.map (Token.moved f))) := by
  cases ts with
  | nil =>
    rw [List.map_nil, valueTail, valueTail, Tree.isComparison_moved]
    cases value.isComparison with
    | true => exact .stuck (.comparisonAssigned id p) []
    | false => exact .done value [] _ _
  | cons t ts =>
    rw [List.map_cons, valueTail, valueTail, Tree.isComparison_moved, Token.moved_kind]
    by_cases hquestion : t.kind = .mark .question
    · rw [if_pos hquestion, if_pos hquestion]
      exact (choice_moves value t.pos ts).later.later
    · rw [if_neg hquestion, if_neg hquestion]
      cases value.isComparison with
      | true => exact .stuck (.comparisonAssigned id p) (t :: ts)
      | false => exact .done value (t :: ts) _ _

theorem assignment_moves (p : Position) (ts : List Token) :
    Moves f (Tree.moved f) (assignment p ts) (assignment (f p) (ts.map (Token.moved f))) := by
  refine (expectName_moves ts).andThen fun id rest _ _ => ?_
  refine (expectMark_moves .equals rest).andThen fun _ rest _ _ => ?_
  refine Moves.map ?_ fun value => rfl
  exact (comparison_moves rest).andMaybe fun value rest _ _ => valueTail_moves id p value rest

/-- The rule for an expression that is a statement of its own. -/
theorem shown_moves (ts : List Token) :
    Moves f (Tree.moved f)
      ((sum ts).andThen fun e rest _ => (expectMark .semicolon rest).map fun _ => e.asShown)
      ((sum (ts.map (Token.moved f))).andThen fun e rest _ =>
        (expectMark .semicolon rest).map fun _ => e.asShown) :=
  (sum_moves ts).andThen fun e rest _ _ =>
    (expectMark_moves .semicolon rest).map fun _ => Tree.asShown_moved f e

mutual

/-- Statements are read the same wherever they stand, with the blocks in them. -/
theorem statement_moves : (ts : List Token) →
    Moves f (Tree.moved f) (statement ts) (statement (ts.map (Token.moved f)))
  | [] => by
    rw [List.map_nil, statement]
    exact .stuck .noStatement []
  | ⟨kind, p⟩ :: ts => by
    rw [List.map_cons, statement, statement]
    cases kind with
    | integer n => exact shown_moves (⟨.integer n, p⟩ :: ts)
    | identifier s => exact shown_moves (⟨.identifier s, p⟩ :: ts)
    | keyword k =>
      cases k with
      | letWord =>
        refine Moves.later ((assignment_moves p ts).andThen fun a rest _ _ => ?_)
        exact (expectMark_moves .semicolon rest).map fun _ => rfl
      | repeatWord =>
        refine Moves.later ((sum_moves ts).andThen fun bound rest _ _ => ?_)
        exact (block_moves rest).map fun body => rfl
      | ifWord =>
        refine Moves.later ((comparison_moves ts).andThen fun test rest _ _ => ?_)
        refine (block_moves rest).andMaybe fun body rest _ _ => ?_
        refine (elifs_moves rest).andMaybe fun others rest _ _ => ?_
        exact (otherwise_moves rest).map fun last => rfl
      | _ => exact .stuck (.notStatement _) (_ :: ts)
    | mark m =>
      cases m with
      | openParen => exact shown_moves (⟨.mark .openParen, p⟩ :: ts)
      | _ => exact .stuck (.notStatement _) (_ :: ts)
    | trivia t => exact .stuck (.notStatement _) (_ :: ts)
termination_by ts => 3 * ts.length + 1

theorem block_moves (ts : List Token) :
    Moves f (Tree.movedAll f) (block ts) (block (ts.map (Token.moved f))) := by
  rw [block, block]
  exact (expectMark_moves .openBrace ts).andThen fun _ rest _ _ => body_moves rest
termination_by 3 * ts.length

theorem body_moves : (ts : List Token) →
    Moves f (Tree.movedAll f) (body ts) (body (ts.map (Token.moved f)))
  | [] => by
    rw [List.map_nil, body]
    exact .stuck (.endOfInput [.mark .closeBrace]) []
  | t :: ts => by
    rw [List.map_cons, body, body, Token.moved_kind]
    by_cases hclose : t.kind = .mark .closeBrace
    · rw [if_pos hclose, if_pos hclose]
      exact .done [] ts _ _
    · rw [if_neg hclose, if_neg hclose]
      refine (statement_moves (t :: ts)).andThen fun s rest _ _ => ?_
      exact (body_moves rest).map fun more => rfl
termination_by ts => 3 * ts.length + 2
decreasing_by
  all_goals
    try simp only [List.length_cons] at *
    omega

theorem elifs_moves : (ts : List Token) →
    Moves f (Branch.movedAll f) (elifs ts) (elifs (ts.map (Token.moved f)))
  | [] => by
    rw [List.map_nil, elifs]
    exact .done [] [] _ _
  | t :: ts => by
    rw [List.map_cons, elifs, elifs, Token.moved_kind]
    by_cases helif : t.kind = .keyword .elifWord
    · rw [if_pos helif, if_pos helif]
      refine Moves.later (Moves.later ((comparison_moves ts).andThen fun test rest _ _ => ?_))
      refine (block_moves rest).andMaybe fun body rest _ _ => ?_
      exact (elifs_moves rest).map fun more => rfl
    · rw [if_neg helif, if_neg helif]
      exact .done [] (t :: ts) _ _
termination_by ts => 3 * ts.length

theorem otherwise_moves : (ts : List Token) →
    Moves f (Tree.movedAll f) (otherwise ts) (otherwise (ts.map (Token.moved f)))
  | [] => by
    rw [List.map_nil, otherwise]
    exact .done [] [] _ _
  | t :: ts => by
    rw [List.map_cons, otherwise, otherwise, Token.moved_kind]
    by_cases helse : t.kind = .keyword .elseWord
    · rw [if_pos helse, if_pos helse]
      exact (block_moves ts).later.later
    · rw [if_neg helse, if_neg helse]
      exact .done [] (t :: ts) _ _
termination_by ts => 3 * ts.length

end

/-- Statements are read the same wherever their tokens stand. They leave no tokens over, so this is
an equation. -/
theorem statements_moved (ts : List Token) :
    statements (ts.map (Token.moved f)) =
      ((statements ts).map (Tree.movedAll f)).mapError (GrammarError.moved f) := by
  induction ts using statements.induct with
  | case1 =>
    rw [List.map_nil, statements]
    rfl
  | case2 t ts e rest hstuck =>
    have hmoves := statement_moves (f := f) (t :: ts)
    rw [hstuck, List.map_cons] at hmoves
    rw [List.map_cons, statements, statements, hstuck, hmoves.eq_stuck]
    rfl
  | case3 t ts s rest hlt hdone ih =>
    have hmoves := statement_moves (f := f) (t :: ts)
    rw [hdone, List.map_cons] at hmoves
    obtain ⟨_, hmoved⟩ := hmoves.eq_done
    rw [List.map_cons, statements, statements, hdone, hmoved]
    simp only [ih]
    cases statements rest <;> rfl

/-- A program is read the same wherever its tokens stand. -/
theorem program_moved (ts : List Token) :
    program (ts.map (Token.moved f)) =
      ((program ts).map (Tree.moved f)).mapError (GrammarError.moved f) := by
  rw [program, statements_moved, program]
  cases statements ts <;> rfl

end Scriptlet.Grammar
