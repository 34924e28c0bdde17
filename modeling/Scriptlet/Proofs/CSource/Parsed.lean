import Scriptlet.Proofs.CSource.ReadBack
import Scriptlet.Proofs.CSource.Tokens

/-!
The C program that code stands for. Reading the tokens of code by the rules of C gives the
program that follows the code node by node: parentheses are where the rules need them, and
each `else` meets its own `if`.
-/
namespace Scriptlet.CSource

open C

def Code.expr : Code → C.Expr
  | .number n =>
    if n.toInt < 0 then .neg (.number (-n.toInt).toNat) else .number n.toInt.toNat
  | .var id => .var id
  | .arith op l r => .arith op l.expr r.expr
  | .compare op l r => .compare op l.expr r.expr
  | .choose c y n => .choose c.expr y.expr n.expr
  | _ => .number 0

mutual

def Code.stmt : Code → C.Stmt
  | .printNumber n => .print (n.toInt.repr ++ "\n") []
  | .print v => .print "%i\n" [v.expr]
  | .set declares id v => if declares then .declare id v.expr else .assign id v.expr
  | .branch chain => chain.stmt
  | .loop counter turns body =>
    counted ((counter, .number 0), .compare .less (.var counter) (.number turns), counter)
      (.block (Code.stmts body))
  | _ => .skip

def Code.stmts : List Code → C.Stmt
  | [] => .skip
  | c :: cs => .seq c.stmt (Code.stmts cs)

def Chain.stmt : Chain → C.Stmt
  | .mk test body others last =>
    .branch test.expr (.block (Code.stmts body))
      (Chain.elseStmt others (if last.isEmpty then .skip else .block (Code.stmts last)))

def Chain.elseStmt : List Chain → C.Stmt → C.Stmt
  | [], last => last
  | .mk test body _ _ :: cs, last =>
    .branch test.expr (.block (Code.stmts body)) (Chain.elseStmt cs last)

end

theorem andThen_some {α β : Type} {ts rest : List C.Token} (h : rest.length < ts.length) (a : α)
    (next : α → (rest : List C.Token) → rest.length < ts.length → Option β) :
    andThen ts (some (a, rest)) next = next a rest h := by
  simp [andThen, h]

def NoOperator (level : Nat) (rest : List C.Token) : Prop :=
  ∀ t ∈ rest.head?, ∀ n, level ≤ n → operator? n t = none

theorem NoOperator.mono {m n : Nat} {rest : List C.Token} (hle : m ≤ n) (h : NoOperator m rest) :
    NoOperator n rest :=
  fun t ht k hk => h t ht k (Nat.le_trans hle hk)

theorem operations_stop {level : Nat} {rest : List C.Token} (h : NoOperator level rest)
    (e : Expr) : operations level e rest = some (e, rest) := by
  cases rest with
  | nil => simp [operations]
  | cons t ts => simp [operations, h t rfl level (Nat.le_refl _)]

/-- The tokens are read as the expression by the rule of the level, before anything that is no
operator of a tighter level. -/
structure ReadsAt (level : Nat) (ts : List C.Token) (e : Expr) : Prop where
  ne_nil : ts ≠ []
  read : ∀ rest, NoOperator (level + 1) rest → operand level (ts ++ rest) = operations level e rest

theorem length_lt_append {ts : List C.Token} (h : ts ≠ []) (rest : List C.Token) :
    rest.length < (ts ++ rest).length := by
  have hpos := List.length_pos_iff.mpr h
  rw [List.length_append]
  omega

theorem ReadsAt.operand_eq {level : Nat} {ts : List C.Token} {e : Expr} (h : ReadsAt level ts e)
    {rest : List C.Token} (hstop : NoOperator level rest) :
    operand level (ts ++ rest) = some (e, rest) := by
  rw [h.read rest (hstop.mono (Nat.le_succ _)), operations_stop hstop]

theorem ReadsAt.down {level : Nat} {ts : List C.Token} {e : Expr} (hlevel : level < 3)
    (h : ReadsAt (level + 1) ts e) : ReadsAt level ts e where
  ne_nil := h.ne_nil
  read := by
    intro rest hstop
    rw [operand, if_pos hlevel, h.operand_eq hstop, andThen_some (length_lt_append h.ne_nil rest)]

theorem ReadsAt.mono {m n : Nat} {ts : List C.Token} {e : Expr} (hle : m ≤ n) (hn : n ≤ 3)
    (h : ReadsAt n ts e) : ReadsAt m ts e := by
  induction hle with
  | refl => exact h
  | step _ ih => exact ih (by omega) (h.down (by omega))

theorem operator?_three (t : C.Token) {level : Nat} (h : 3 ≤ level) : operator? level t = none := by
  unfold operator?
  split
  case h_7 => rfl
  all_goals omega

/-- A factor is an operand of the last level. -/
theorem readsAt_factor {ts : List C.Token} {e : Expr} (hts : ts ≠ [])
    (h : ∀ rest, factor (ts ++ rest) = some (e, rest)) : ReadsAt 3 ts e where
  ne_nil := hts
  read := by
    intro rest _
    have hstop : NoOperator 3 rest := fun t _ n hn => operator?_three t hn
    rw [operand, if_neg (by decide), h, operations_stop hstop]

/-- A mark is an operator of one level at most. -/
theorem operator?_unique {m n : Nat} {t : C.Token} {op : Expr → Expr → Expr}
    (h : operator? m t = some op) (hne : n ≠ m) : operator? n t = none := by
  unfold operator? at h ⊢
  split at h <;> split <;> simp_all

/-- Operands and an operator between them are read as the operation. -/
theorem ReadsAt.operation {level : Nat} {ts us : List C.Token} {l r : Expr} {t : C.Token}
    {op : Expr → Expr → Expr} (hl : ReadsAt level ts l) (hr : ReadsAt (level + 1) us r)
    (ht : operator? level t = some op) : ReadsAt level (ts ++ t :: us) (op l r) where
  ne_nil := by simp
  read := by
    intro rest hstop
    have hnext : NoOperator (level + 1) (t :: (us ++ rest)) := by
      intro k hk n hn
      cases hk
      exact operator?_unique ht (by omega)
    rw [List.append_assoc, List.cons_append, hl.read _ hnext, operations, ht]
    simp only [hr.operand_eq hstop, andThen_some (length_lt_append hr.ne_nil rest)]

def Ends (rest : List C.Token) : Prop :=
  NoOperator 0 rest ∧ rest.head? ≠ some (.mark '?')

theorem noOperator_mark {c : Char} (h : c ∈ [')', ';', ':', '?']) (rest : List C.Token) :
    NoOperator 0 (.mark c :: rest) := by
  simp only [List.mem_cons, List.not_mem_nil, or_false] at h
  intro t ht n _
  cases ht
  rcases h with rfl | rfl | rfl | rfl <;> rcases n with _ | _ | _ | n <;> rfl

theorem ends_mark {c : Char} (h : c ∈ [')', ';', ':']) (rest : List C.Token) :
    Ends (.mark c :: rest) := by
  simp only [List.mem_cons, List.not_mem_nil, or_false] at h
  constructor
  · apply noOperator_mark
    rcases h with rfl | rfl | rfl <;> decide
  · rcases h with rfl | rfl | rfl <;> simp

/-- What is read at the loosest level is an expression, if it ends there. -/
theorem ReadsAt.expression_eq {ts : List C.Token} {e : Expr} (h : ReadsAt 0 ts e)
    {rest : List C.Token} (hend : Ends rest) : expression (ts ++ rest) = some (e, rest) := by
  rw [expression, h.operand_eq hend.1, andThen_some (length_lt_append h.ne_nil rest),
    if_neg hend.2]

theorem ReadsAt.parens {ts : List C.Token} {e : Expr} (h : ReadsAt 0 ts e) :
    ReadsAt 3 (.mark '(' :: (ts ++ [.mark ')'])) e := by
  refine readsAt_factor (by simp) fun rest => ?_
  have hinner := h.expression_eq (ends_mark (c := ')') (by simp) rest)
  rw [List.cons_append, List.append_assoc, factor]
  simp [hinner, expect]

/-- An operand is read at a level where parentheses stand around what is too loose for it. -/
theorem ReadsAt.inParens {m : Nat} {ts : List C.Token} {e : Expr} (h : ReadsAt m ts e)
    (hm : m ≤ 3) (level : Nat) (hlevel : level ≤ 3) :
    ReadsAt level (inParens (decide (m < level)) ts) e := by
  by_cases hloose : m < level
  · have hparens := (h.mono m.zero_le hm).parens
    simpa only [CSource.inParens, hloose, decide_true, if_true] using
      hparens.mono hlevel (Nat.le_refl 3)
  · simpa [CSource.inParens, hloose] using h.mono (Nat.not_lt.mp hloose) hm

theorem readsAt_nat (n : Nat) : ReadsAt 3 [.number n] (.number n) :=
  readsAt_factor (by simp) fun rest => by simp [factor]

theorem readsAt_var {id : String} (h : isFree id = true) : ReadsAt 3 [.word id] (.var id) :=
  readsAt_factor (by simp) fun rest => by simp [factor, h]

/-- A number is read with its sign. -/
theorem readsAt_number (n : Int64) : ReadsAt 3 (Code.number n).tokens (Code.number n).expr := by
  by_cases hneg : n.toInt < 0
  · refine readsAt_factor (by simp [Code.tokens, hneg]) fun rest => ?_
    simp [Code.tokens, Code.expr, hneg, factor]
  · simpa [Code.tokens, Code.expr, hneg] using readsAt_nat n.toInt.toNat

theorem operator?_arith (op : ArithOp) :
    operator? op.precedence (.mark op.mark.char) = some (.arith op) := by
  cases op <;> rfl

theorem operator?_compare (op : CompareOp) :
    operator? 0 (.mark op.mark.char) = some (.compare op) := by
  cases op <;> rfl

theorem Code.tightness_bounds (c : Code) : 1 ≤ c.tightness ∧ c.tightness ≤ 3 := by
  cases c with
  | arith op l r => cases op <;> simp [Code.tightness, ArithOp.precedence]
  | _ => simp [Code.tightness]

/-- The tokens of arithmetic are read at the level of its operator. -/
theorem Code.IsSum.readsAt : {c : Code} → c.IsSum IsVariable → ReadsAt c.tightness c.tokens c.expr
  | .number n, _ => readsAt_number n
  | .var id, h => readsAt_var h.2
  | .arith op l r, h => by
    have hprecedence : op.precedence + 1 ≤ 3 := by cases op <;> decide
    have hleft := (IsSum.readsAt h.1).inParens l.tightness_bounds.2 op.precedence (by omega)
    have hright := (IsSum.readsAt h.2).inParens r.tightness_bounds.2 (op.precedence + 1) hprecedence
    rw [← needsParens_left] at hleft
    rw [← needsParens_right] at hright
    exact hleft.operation hright (operator?_arith op)

theorem Code.IsSum.readsAt_zero {c : Code} (h : c.IsSum IsVariable) : ReadsAt 0 c.tokens c.expr :=
  h.readsAt.mono (Nat.zero_le _) c.tightness_bounds.2

theorem Code.IsTest.readsAt_zero {c : Code} (h : c.IsTest IsVariable) :
    ReadsAt 0 c.tokens c.expr := by
  cases c with
  | compare op l r =>
    have hright := h.2.readsAt.mono r.tightness_bounds.1 r.tightness_bounds.2
    exact h.1.readsAt_zero.operation hright (operator?_compare op)
  | _ => exact IsSum.readsAt_zero h

/-- The tokens of a value are read as one expression, a choice included. -/
theorem Code.IsValue.expression_eq {c : Code} (h : c.IsValue IsVariable) {rest : List C.Token}
    (hend : Ends rest) : expression (c.tokens ++ rest) = some (c.expr, rest) := by
  cases c with
  | choose c y n =>
    have htest := h.1.readsAt_zero
    have hyes := h.2.1.readsAt_zero
    have hno := h.2.2.readsAt_zero
    simp only [Code.tokens, Code.expr, List.append_assoc, List.cons_append]
    rw [expression, htest.operand_eq (noOperator_mark (by simp) _),
      andThen_some (length_lt_append htest.ne_nil _)]
    simp only [List.head?_cons, List.tail_cons, if_true,
      hyes.expression_eq (ends_mark (c := ':') (by simp) _),
      andThen_some (length_lt_append hyes.ne_nil _), hno.expression_eq hend, Option.map_some]
  | _ => exact (IsSum.readsAt_zero h).expression_eq hend

theorem assignment_eq {id : String} {v : Code} (hid : isFree id = true) (hv : v.IsValue IsVariable)
    {rest : List C.Token} (hend : Ends rest) :
    assignment (.word id :: .mark '=' :: (v.tokens ++ rest)) = some ((id, v.expr), rest) := by
  simp [assignment, identifier?, hid, expect, hv.expression_eq hend]

/-- The head of a counted loop is read as what counts it. -/
theorem loopHead_eq {counter : String} (h : isFree counter = true) (turns : Nat)
    (rest : List C.Token) :
    loopHead (.mark '(' :: .word "int" :: .word counter :: .mark '=' :: .number 0 :: .mark ';' ::
        .word counter :: .mark '<' :: .number turns :: .mark ';' :: .word counter ::
        .pair '+' '+' :: .mark ')' :: rest) =
      some (((counter, .number 0), .compare .less (.var counter) (.number turns), counter),
        rest) := by
  have hzero (rest' : List C.Token) : expression (.number 0 :: .mark ';' :: rest') =
      some (.number 0, .mark ';' :: rest') :=
    ((readsAt_nat 0).mono (by decide) (by decide)).expression_eq (ends_mark (by simp) rest')
  have hleft := (readsAt_var h).mono (m := 0) (by decide) (by decide)
  have hright := (readsAt_nat turns).mono (m := 1) (by decide) (by decide)
  have htest (rest' : List C.Token) :
      expression (.word counter :: .mark '<' :: .number turns :: .mark ';' :: rest') =
        some (.compare .less (.var counter) (.number turns), .mark ';' :: rest') :=
    (hleft.operation hright (operator?_compare .less)).expression_eq (ends_mark (by simp) rest')
  simp [loopHead, assignment, identifier?, expect, h, hzero, htest]

/-- The tokens of a statement start with one that says so. -/
theorem Code.IsStatement.exists_head {c : Code} (h : c.IsStatement IsVariable) :
    ∃ t ts, c.tokens = t :: ts ∧ startsStatement t = true := by
  suffices hhead : ∃ t, c.tokens.head? = some t ∧ startsStatement t = true by
    obtain ⟨t, ht, hstart⟩ := hhead
    obtain ⟨ts, hts⟩ := List.head?_eq_some_iff.mp ht
    exact ⟨t, ts, hts, hstart⟩
  cases c with
  | printNumber n => exact ⟨.word "printf", by simp [Code.tokens], rfl⟩
  | print v => exact ⟨.word "printf", by simp [Code.tokens], rfl⟩
  | set declares id v =>
    cases declares with
    | false => exact ⟨.word id, by simp [Code.tokens], by simp [startsStatement, h.1.2]⟩
    | true => exact ⟨.word "int", by simp [Code.tokens], rfl⟩
  | branch chain =>
    cases chain with
    | mk test body others last => exact ⟨.word "if", by simp [Code.tokens, Chain.tokens], rfl⟩
  | loop counter turns body => exact ⟨.word "for", by simp [Code.tokens], rfl⟩
  | _ => exact h.elim

def NoElse (rest : List C.Token) : Prop :=
  rest.head? ≠ some (.word "else")

def NoStatement (rest : List C.Token) : Prop :=
  NoElse rest ∧ ∀ t ∈ rest.head?, startsStatement t = false

/-- No statement continues the branch before it. -/
theorem Code.AllStatements.noElse {cs : List Code} (h : Code.AllStatements IsVariable cs)
    {rest : List C.Token} (hrest : NoStatement rest) : NoElse (Code.tokensAll cs ++ rest) := by
  cases cs with
  | nil => exact hrest.1
  | cons c cs =>
    obtain ⟨t, ts, htokens, hstart⟩ := h.1.exists_head
    rw [Code.tokensAll, htokens]
    rintro heq
    cases heq
    exact absurd hstart (by decide)

theorem noStatement_mark (c : Char) (rest : List C.Token) : NoStatement (.mark c :: rest) := by
  constructor
  · simp [NoElse]
  · intro t ht
    cases ht
    rfl

theorem statement_printNumber (n : Int64) (rest : List C.Token) :
    statement ((Code.printNumber n).tokens ++ rest) = some ((Code.printNumber n).stmt, rest) := by
  simp [Code.tokens, Code.stmt, statement, simple, printed, expect]

theorem statement_print {v : Code} (h : v.IsSum IsVariable) (rest : List C.Token) :
    statement ((Code.print v).tokens ++ rest) = some ((Code.print v).stmt, rest) := by
  have hvalue := h.readsAt_zero.expression_eq (ends_mark (c := ')') (by simp) (.mark ';' :: rest))
  simp [Code.tokens, Code.stmt, statement, simple, printed, expect, hvalue]

theorem ne_of_isFree {s w : String} (h : isFree s = true) (hw : isFree w = false) : s ≠ w := by
  rintro rfl
  simp [hw] at h

theorem statement_set {id : String} {v : Code} (hid : isFree id = true) (h : v.IsValue IsVariable)
    (declares : Bool) (rest : List C.Token) :
    statement ((Code.set declares id v).tokens ++ rest) =
      some ((Code.set declares id v).stmt, rest) := by
  have hassign := assignment_eq hid h (ends_mark (c := ';') (by simp) rest)
  cases declares with
  | true => simp [Code.tokens, Code.stmt, statement, simple, expect, hassign]
  | false =>
    have hif := ne_of_isFree hid (w := "if") rfl
    have hfor := ne_of_isFree hid (w := "for") rfl
    have hint := ne_of_isFree hid (w := "int") rfl
    have hprintf := ne_of_isFree hid (w := "printf") rfl
    simp [Code.tokens, Code.stmt, statement, simple, expect, hassign, hif, hfor, hint, hprintf]

theorem block_eq {ts rest : List C.Token} {s : C.Stmt}
    (h : items (ts ++ .mark '\x7d' :: rest) = some (s, .mark '\x7d' :: rest)) :
    block (inBraces ts ++ rest) = some (.block s, rest) := by
  simp [inBraces, block, h, expect]

theorem length_lt_inBraces (ts rest : List C.Token) :
    rest.length < (inBraces ts ++ rest).length :=
  length_lt_append (by simp [inBraces]) rest

/-- What is done when no condition holds, if anything is. -/
theorem otherwise_last {last : List Code} {rest : List C.Token}
    (h : items (Code.tokensAll last ++ .mark '\x7d' :: rest) =
      some (Code.stmts last, .mark '\x7d' :: rest)) (hrest : NoElse rest) :
    otherwise ((if last.isEmpty then [] else .word "else" :: inBraces (Code.tokensAll last)) ++
        rest) =
      some (if last.isEmpty then .skip else .block (Code.stmts last), rest) := by
  cases last with
  | nil => exact (otherwise.eq_1 rest).trans (if_neg hrest)
  | cons c cs =>
    have hblock := block_eq h
    have hbrace : (inBraces (Code.tokensAll (c :: cs)) ++ rest).head? ≠ some (.word "if") := by
      simp [inBraces]
    simp only [List.isEmpty_cons, Bool.false_eq_true, if_false, List.cons_append]
    rw [otherwise, List.head?_cons, if_pos rfl, List.tail_cons, if_neg hbrace, hblock]

/-- A branch whose parts are read, whatever the other branches are. -/
theorem statement_branch {test : Code} (htest : test.IsTest IsVariable) {ts us rest : List C.Token}
    {s t : C.Stmt} (hblock : block (inBraces ts ++ (us ++ rest)) = some (s, us ++ rest))
    (hothers : otherwise (us ++ rest) = some (t, rest)) :
    statement (.word "if" :: .mark '(' ::
        (test.tokens ++ .mark ')' :: (inBraces ts ++ (us ++ rest)))) =
      some (.branch test.expr s t, rest) := by
  have hcondition : condition (.mark '(' ::
      (test.tokens ++ .mark ')' :: (inBraces ts ++ (us ++ rest)))) =
        some (test.expr, inBraces ts ++ (us ++ rest)) := by
    have hread := htest.readsAt_zero.expression_eq
      (ends_mark (c := ')') (by simp) (inBraces ts ++ (us ++ rest)))
    simp [condition, expect, hread]
  have hlength : (inBraces ts ++ (us ++ rest)).length < (C.Token.mark '(' ::
      (test.tokens ++ .mark ')' :: (inBraces ts ++ (us ++ rest)))).length := by
    simp only [List.length_cons, List.length_append]
    omega
  rw [statement, if_pos rfl, hcondition, andThen_some hlength, hblock,
    andThen_some (length_lt_inBraces ts _), hothers]
  rfl

mutual

/-- The tokens of a statement are read as that statement. -/
theorem Code.IsStatement.statement_eq : {c : Code} → c.IsStatement IsVariable →
    (rest : List C.Token) → NoElse rest → statement (c.tokens ++ rest) = some (c.stmt, rest)
  | .printNumber n, _, rest, _ => statement_printNumber n rest
  | .print v, h, rest, _ => statement_print h rest
  | .set declares id v, h, rest, _ => statement_set h.1.2 h.2 declares rest
  | .branch chain, h, rest, hrest => Chain.IsChain.statement_eq h rest hrest
  | .loop counter turns body, h, rest, _ => by
    have hitems := Code.AllStatements.items_eq h.2 (.mark '\x7d' :: rest) (noStatement_mark _ _)
    have hhead := loopHead_eq h.1.2 turns (inBraces (Code.tokensAll body) ++ rest)
    simp only [Code.tokens, Code.stmt, List.cons_append, List.nil_append]
    rw [statement, if_neg (by decide), if_pos rfl, hhead,
      andThen_some (by simp only [List.length_cons]; omega), block_eq hitems]
    rfl

/-- Statements are read one after the other. -/
theorem Code.AllStatements.items_eq : {cs : List Code} → Code.AllStatements IsVariable cs →
    (rest : List C.Token) → NoStatement rest →
      items (Code.tokensAll cs ++ rest) = some (Code.stmts cs, rest)
  | [], _, rest, hrest => by
    cases rest with
    | nil => simp [Code.tokensAll, Code.stmts, items]
    | cons t ts => simp [Code.tokensAll, Code.stmts, items, hrest.2 t rfl]
  | c :: cs, h, rest, hrest => by
    have hstatement := Code.IsStatement.statement_eq h.1 _ (h.2.noElse hrest)
    have hitems := Code.AllStatements.items_eq h.2 rest hrest
    obtain ⟨t, ts, htokens, hstart⟩ := h.1.exists_head
    have htokens_ne : c.tokens ≠ [] := by simp [htokens]
    have hlength := length_lt_append htokens_ne (Code.tokensAll cs ++ rest)
    rw [Code.tokensAll, Code.stmts, List.append_assoc]
    rw [htokens, List.cons_append] at hstatement hlength ⊢
    rw [items, if_pos hstart, hstatement, andThen_some hlength, hitems]
    rfl

theorem Chain.IsChain.statement_eq : {c : Chain} → c.IsChain IsVariable → (rest : List C.Token) →
    NoElse rest → statement (c.tokens ++ rest) = some (c.stmt, rest)
  | .mk test body others last, h, rest, hrest => by
    have hitems (rest' : List C.Token) := Code.AllStatements.items_eq h.2.1 (.mark '\x7d' :: rest')
      (noStatement_mark _ _)
    have hlast := Code.AllStatements.items_eq h.2.2.2 (.mark '\x7d' :: rest) (noStatement_mark _ _)
    have hothers : otherwise ((Chain.elseTokens others ++
        if last.isEmpty then [] else .word "else" :: inBraces (Code.tokensAll last)) ++ rest) =
          some (Chain.elseStmt others (if last.isEmpty then .skip else .block (Code.stmts last)),
            rest) := by
      rw [List.append_assoc]
      exact Chain.AllElifs.otherwise_eq h.2.2.1 (otherwise_last hlast hrest)
    have hbranch := statement_branch h.1 (block_eq (hitems _)) hothers
    simpa [Chain.tokens, Chain.stmt] using hbranch

theorem Chain.AllElifs.otherwise_eq : {cs : List Chain} → Chain.AllElifs IsVariable cs →
    {ts rest : List C.Token} → {s : C.Stmt} → otherwise (ts ++ rest) = some (s, rest) →
      otherwise (Chain.elseTokens cs ++ (ts ++ rest)) = some (Chain.elseStmt cs s, rest)
  | [], _, ts, rest, s, hlast => hlast
  | .mk test body others last :: cs, h, ts, rest, s, hlast => by
    obtain ⟨⟨htest, hbody, rfl, rfl⟩, hcs⟩ := h
    have hitems (rest' : List C.Token) := Code.AllStatements.items_eq hbody (.mark '\x7d' :: rest')
      (noStatement_mark _ _)
    have hothers := Chain.AllElifs.otherwise_eq hcs hlast
    rw [← List.append_assoc] at hothers
    have hbranch := statement_branch htest (block_eq (hitems _)) hothers
    rw [otherwise]
    simpa [Chain.elseTokens, Chain.tokens, Chain.elseStmt] using hbranch

end

/-- The text of a whole program is read as the statements of its code. -/
theorem parse_main {body : List Code} (h : Code.AllStatements IsVariable body) (step : Nat) :
    C.parse ((Code.main body).text step 0) = some (Code.stmts body) := by
  have hclosing : NoStatement C.closing := by
    constructor
    · simp [NoElse, C.closing]
    · intro t ht
      cases ht
      decide
  have hitems := h.items_eq C.closing hclosing
  have hopening : C.opening <+: C.opening ++ (Code.tokensAll body ++ C.closing) :=
    List.prefix_append _ _
  rw [C.parse, scan_main (h.mono fun _ hs => hs.1) step]
  simp only [Code.tokens, List.append_assoc, Option.bind_eq_bind, Option.bind_some, hopening,
    if_true, List.drop_left, hitems]
  rfl

end Scriptlet.CSource
