import Mathlib.Algebra.Group.Nat.Defs
import Scriptlet.Proofs.C.Semantics
import Scriptlet.Proofs.CSource.Parsed
import Scriptlet.Proofs.Tree.Visits

/-!
Code runs as the script does. Where the integers of a script are small enough for C and the
variables of both have the same values, the C program of a piece of code computes the same
values, prints the same text and leaves the variables in agreement again.
-/
namespace Scriptlet

open C

/-- A visit to a part without division, whose loops have constant bounds and in which
every integer that is computed has an `int`. -/
structure Visit.IsPlain (x : Visit) : Prop where
  undivided : .div ∉ x.part.operators
  constant : ∀ b ∈ x.part.bounds, b.names = []
  small : x.StaysWithin (2 ^ 31 - 1)

theorem Visit.IsPlain.enters {x y : Visit} (h : x.IsPlain) (hxy : Enters x y) : y.IsPlain where
  undivided hdiv := h.undivided (hxy.holds.gather_subset hdiv)
  constant b hb := h.constant b (hxy.holds.gather_subset hb)
  small := h.small.enters hxy

structure Visit.IsInside (D : String → Prop) (x : Visit) : Prop extends x.IsPlain where
  targets : ∀ id ∈ x.part.targets, D id

theorem Visit.IsInside.enters {D : String → Prop} {x y : Visit} (h : x.IsInside D)
    (hxy : Enters x y) : y.IsInside D where
  toIsPlain := h.toIsPlain.enters hxy
  targets id hid := h.targets id (hxy.holds.gather_subset hid)

namespace CSource

/-- The variables of `D` hold the same integers in the script and in C. -/
def Agrees (D : String → Prop) (b : Bindings) (env : String → Option Int) : Prop :=
  ∀ id, D id → ∃ n : Int64, b.get? id = some (.integer n) ∧ env id = some n.toInt

/-- An assignment on both sides keeps them in agreement. -/
theorem Agrees.define {D : String → Prop} {b : Bindings} {env : String → Option Int}
    (h : Agrees D b env) (id : String) (n : Int64) :
    Agrees D (b.define id (.integer n)) fun x => if x = id then some n.toInt else env x := by
  intro x hx
  by_cases heq : x = id
  · exact ⟨n, by simp [heq], by simp [heq]⟩
  · obtain ⟨k, hk, henv⟩ := h x hx
    exact ⟨k, by simp [Ne.symm heq, hk], by simp [heq, henv]⟩

theorem toInt?_eq_some {n : Int} (h : -(2 ^ 31 - 1) ≤ n ∧ n ≤ 2 ^ 31 - 1) : toInt? n = some n := by
  unfold toInt?
  rw [if_pos (by omega)]

theorem eval_number {n : Int64} (h : -(2 ^ 31 - 1) ≤ n.toInt ∧ n.toInt ≤ 2 ^ 31 - 1)
    (env : String → Option Int) : (Code.number n).expr.eval env = some n.toInt := by
  by_cases hneg : n.toInt < 0
  · have habs : toInt? ((-n.toInt).toNat : Int) = some (-n.toInt) := by
      rw [Int.toNat_of_nonneg (by omega)]
      exact toInt?_eq_some (by omega)
    have hback : toInt? (- -n.toInt) = some n.toInt := by
      rw [Int.neg_neg]
      exact toInt?_eq_some h
    rw [Code.expr, if_pos hneg, Expr.eval, Expr.eval, habs]
    exact hback
  · have habs : toInt? (n.toInt.toNat : Int) = some n.toInt := by
      rw [Int.toNat_of_nonneg (by omega)]
      exact toInt?_eq_some h
    rw [Code.expr, if_neg hneg, Expr.eval, habs]

/-- Without division integers give an integer, and the result is exact. -/
theorem apply_integers {op : ArithOp} (hop : op ≠ .div) {a b : Int64} {v : Value}
    (h : op.apply (.integer a) (.integer b) = .ok v) :
    ∃ n : Int64, v = .integer n ∧
      (-(2 ^ 31 - 1) ≤ n.toInt ∧ n.toInt ≤ 2 ^ 31 - 1 →
        arith? op a.toInt b.toInt = some n.toInt) := by
  simp only [ArithOp.apply, if_neg hop, Value.integer?] at h
  cases hexact : op.onIntegers? a b with
  | none => simp [hexact] at h
  | some n =>
    simp only [hexact, Except.ok.injEq] at h
    refine ⟨n, h.symm, fun hsmall => ?_⟩
    have hn := toInt?_eq_some hsmall
    cases op with
    | add => rwa [arith?, ← Integer.ofInt?_eq_some_iff.mp hexact]
    | sub => rwa [arith?, ← Integer.ofInt?_eq_some_iff.mp hexact]
    | mul => rwa [arith?, ← Integer.ofInt?_eq_some_iff.mp hexact]
    | div => exact absurd rfl hop

section Expressions

variable {D : String → Prop} {m : Machine} {env : String → Option Int}

/-- The code of a sum computes its integer, whether the sum is shown or not. -/
theorem eval_sum (hagrees : Agrees D m.bindings env) {t : Tree} {c : Code} (hcode : Drafted t c)
    (hshape : t.IsQuiet ∨ t.IsShownSum) (hnames : ∀ id ∈ t.names, D id) {k : Nat} {v : Value}
    {m' : Machine} (hplain : Visit.IsPlain ⟨.tree t, k, m⟩) (hvalue : t.value? m.bindings = some v)
    (hrun : Gives t.run m (some v) m') :
    ∃ n : Int64, v = .integer n ∧ c.expr.eval env = some n.toInt := by
  induction hcode generalizing k v m' with
  | literal n shown p =>
    cases hvalue
    exact ⟨n, rfl, eval_number (hplain.small.value hrun) env⟩
  | name id shown p =>
    obtain ⟨n, hn, henv⟩ := hagrees id (hnames id (by simp))
    exact ⟨n, Option.some.inj (hvalue.symm.trans hn), henv⟩
  | compare | choose => exact hshape.elim False.elim False.elim
  | @arith l r c d op shown p left right ihl ihr =>
    have hl : l.IsQuiet := hshape.elim (·.1) (·.1)
    have hr : r.IsQuiet := hshape.elim (·.2.1) (·.2.1)
    simp only [Tree.value?, Option.bind_eq_some_iff] at hvalue
    obtain ⟨x, hx, y, hy, happly⟩ := hvalue
    have hxrun := (hl.isSilent.runsSilently m _ _).mpr ⟨x, hx, rfl, rfl⟩
    have hyrun := (hr.isSilent.runsSilently m _ _).mpr ⟨y, hy, rfl, rfl⟩
    obtain ⟨a, rfl, ha⟩ := ihl (.inl hl)
      (fun id hid => hnames id (by simp [hid]))
      (hplain.enters (.arithLeft ..)) hx hxrun
    obtain ⟨b, rfl, hb⟩ := ihr (.inl hr)
      (fun id hid => hnames id (by simp [hid]))
      (hplain.enters (.arithRight _ _ _ _ _ hxrun)) hy hyrun
    have hop : op ≠ .div := by
      rintro rfl
      exact hplain.undivided (by simp [Part.gather])
    cases hresult : op.apply (.integer a) (.integer b) with
    | error fault => simp [hresult, Except.toOption] at happly
    | ok w =>
      obtain rfl : w = v := by simpa [hresult, Except.toOption] using happly
      obtain ⟨n, rfl, harith⟩ := apply_integers hop hresult
      refine ⟨n, rfl, ?_⟩
      simp only [Code.expr, Expr.eval, ha, hb, Option.bind_some]
      exact harith (hplain.small.value hrun)

/-- Arithmetic has the same value in C as in the script. -/
theorem eval_quiet (hagrees : Agrees D m.bindings env) {t : Tree} {c : Code} (hcode : Drafted t c)
    (hshape : t.IsQuiet) (hnames : ∀ id ∈ t.names, D id) {k : Nat} {v : Value}
    (hplain : Visit.IsPlain ⟨.tree t, k, m⟩) (hvalue : t.value? m.bindings = some v) :
    ∃ n : Int64, v = .integer n ∧ c.expr.eval env = some n.toInt :=
  eval_sum hagrees hcode (.inl hshape) hnames hplain hvalue
    ((hshape.isSilent.runsSilently m _ _).mpr ⟨v, hvalue, rfl, rfl⟩)

theorem holds_integer (n : Int64) : (Value.integer n).holds = true ↔ n.toInt ≠ 0 := by
  rw [Value.holds, bne_iff_ne, ← Int64.toInt_zero, Ne, Ne, Int64.toInt_inj]

/-- A comparison holds in a script where C gives other than zero for it. -/
theorem holds_compare (op : CompareOp) (a b : Int64) :
    (Value.truth (op.apply (.integer a) (.integer b))).holds = true ↔
      C.compare op a.toInt b.toInt ≠ 0 := by
  cases op <;>
    simp [Value.holds, CompareOp.apply, Value.integer?, CompareOp.onIntegers, C.compare,
      Int64.lt_iff_toInt_lt]

/-- The code of a condition is not zero exactly when the condition holds. -/
theorem eval_test (hagrees : Agrees D m.bindings env) {t : Tree} {c : Code} (hcode : Drafted t c)
    (hshape : t.IsTest) (hnames : ∀ id ∈ t.names, D id) {k : Nat} {v : Value}
    (hplain : Visit.IsPlain ⟨.tree t, k, m⟩) (hvalue : t.value? m.bindings = some v) :
    ∃ a, c.expr.eval env = some a ∧ (v.holds = true ↔ a ≠ 0) := by
  obtain hquiet | ⟨op, l, r, p, rfl, hl, hr⟩ := hshape.isQuiet_or_compare
  · obtain ⟨n, rfl, hn⟩ := eval_quiet hagrees hcode hquiet hnames hplain hvalue
    exact ⟨n.toInt, hn, holds_integer n⟩
  · cases hcode with
    | compare _ _ left right =>
      simp only [Tree.value?, Option.bind_eq_some_iff, Option.map_eq_some_iff] at hvalue
      obtain ⟨x, hx, y, hy, rfl⟩ := hvalue
      have hxrun := (hl.isSilent.runsSilently m _ _).mpr ⟨x, hx, rfl, rfl⟩
      obtain ⟨a, rfl, ha⟩ := eval_quiet hagrees left hl
        (fun id hid => hnames id (by simp [hid])) (hplain.enters (.compareLeft ..)) hx
      obtain ⟨b, rfl, hb⟩ := eval_quiet hagrees right hr
        (fun id hid => hnames id (by simp [hid]))
        (hplain.enters (.compareRight _ _ _ _ hxrun)) hy
      exact ⟨_, by simp [Code.expr, Expr.eval, ha, hb], holds_compare op a b⟩

/-- What is assigned has the same value in C as in the script. -/
theorem eval_value (hagrees : Agrees D m.bindings env) {t : Tree} {c : Code} (hcode : Drafted t c)
    (hshape : t.IsValue) (hnames : ∀ id ∈ t.names, D id) {k : Nat} {v : Value}
    (hplain : Visit.IsPlain ⟨.tree t, k, m⟩) (hvalue : t.value? m.bindings = some v) :
    ∃ n : Int64, v = .integer n ∧ c.expr.eval env = some n.toInt := by
  obtain hquiet | ⟨test, y, n, p, rfl, htest, hy, hn⟩ := hshape.isQuiet_or_choose
  · exact eval_quiet hagrees hcode hquiet hnames hplain hvalue
  · cases hcode with
    | choose _ testCode yesCode noCode =>
      simp only [Tree.value?, Option.bind_eq_some_iff] at hvalue
      obtain ⟨x, hx, hchosen⟩ := hvalue
      have hxrun := (htest.isSilent.runsSilently m _ _).mpr ⟨x, hx, rfl, rfl⟩
      obtain ⟨a, ha, hiff⟩ := eval_test hagrees testCode htest
        (fun id hid => hnames id (by simp [hid])) (hplain.enters (.choiceTest ..)) hx
      cases hholds : x.holds with
      | true =>
        rw [hholds, if_pos rfl] at hchosen
        obtain ⟨b, rfl, hb⟩ := eval_quiet hagrees yesCode hy
          (fun id hid => hnames id (by simp [hid]))
          (hplain.enters (.choiceYes _ _ _ _ hxrun hholds)) hchosen
        exact ⟨b, rfl, by simp [Code.expr, Expr.eval, ha, hiff.mp hholds, hb]⟩
      | false =>
        rw [hholds, if_neg Bool.false_ne_true] at hchosen
        obtain ⟨b, rfl, hb⟩ := eval_quiet hagrees noCode hn
          (fun id hid => hnames id (by simp [hid]))
          (hplain.enters (.choiceNo _ _ _ _ hxrun hholds)) hchosen
        have hzero : a = 0 := by
          have hnot := mt hiff.mpr (by simp [hholds])
          omega
        exact ⟨b, rfl, by simp [Code.expr, Expr.eval, ha, hzero, hb]⟩

end Expressions

/-- From variables that agree, the C statement runs to variables that agree again and prints
what the script has printed from the one machine to the other. -/
def Follows (D : String → Prop) (s : Stmt) (m m' : Machine) : Prop :=
  ∀ ss, Agrees D m.bindings (Scope.lookup ss) → ∃ ss' out, Exec s ss ss' out ∧
    m'.output.text = m.output.text ++ out ∧ Agrees D m'.bindings (Scope.lookup ss') ∧
    Scope.Keeps D ss ss'

namespace Follows

variable {D : String → Prop} {s t : Stmt} {m m₁ m' : Machine}

theorem skip (D : String → Prop) (m : Machine) : Follows D .skip m m :=
  fun ss hagrees => ⟨ss, "", .skip ss, by simp, hagrees, .refl ss⟩

theorem seq (h : Follows D s m m₁) (h' : Follows D t m₁ m') : Follows D (.seq s t) m m' := by
  intro ss hagrees
  obtain ⟨ss₁, out, hexec, hout, hagrees₁, hkeeps⟩ := h ss hagrees
  obtain ⟨ss₂, out', hexec', hout', hagrees₂, hkeeps'⟩ := h' ss₁ hagrees₁
  refine ⟨ss₂, out ++ out', .seq hexec hexec', ?_, hagrees₂, hkeeps.trans hkeeps'⟩
  rw [hout', hout, String.append_assoc]

theorem block (h : Follows D s m m') : Follows D (.block s) m m' := by
  intro ss hagrees
  obtain ⟨scopes, out, hexec, hout, hagrees', hkeeps⟩ :=
    h (Scope.empty :: ss) (by simpa using hagrees)
  obtain ⟨ss', rfl, hkeeps'⟩ := hkeeps.of_disjoint fun _ _ => rfl
  exact ⟨ss', out, .block hexec, hout, by simpa using hagrees', hkeeps'⟩

theorem yes {c : Expr} (test : ∀ env, Agrees D m.bindings env → ∃ a, c.eval env = some a ∧ a ≠ 0)
    (h : Follows D s m m') (t : Stmt) : Follows D (.branch c s t) m m' := by
  intro ss hagrees
  obtain ⟨a, ha, hne⟩ := test _ hagrees
  obtain ⟨ss', out, hexec, hrest⟩ := h ss hagrees
  exact ⟨ss', out, .yes ha hne hexec, hrest⟩

theorem no {c : Expr} (test : ∀ env, Agrees D m.bindings env → c.eval env = some 0)
    (h : Follows D t m m') (s : Stmt) : Follows D (.branch c s t) m m' := by
  intro ss hagrees
  obtain ⟨ss', out, hexec, hrest⟩ := h ss hagrees
  exact ⟨ss', out, .no (test _ hagrees) hexec, hrest⟩

theorem assign {e : Expr} {id : String} {x : Value} (hid : D id)
    (value : ∀ env, Agrees D m.bindings env →
      ∃ n : Int64, x = .integer n ∧ e.eval env = some n.toInt) :
    Follows D (.assign id e) m { m with bindings := m.bindings.define id x } := by
  intro ss hagrees
  obtain ⟨n, rfl, hn⟩ := value _ hagrees
  have hsome : (Scope.lookup ss id).isSome = true := by
    obtain ⟨k, _, hk⟩ := hagrees id hid
    simp [hk]
  obtain ⟨ss', hassign, hkeeps, hlookup⟩ := Scope.exists_assign? hid n.toInt ss hsome
  refine ⟨ss', "", .assign hn hassign, by simp, ?_, hkeeps⟩
  rw [funext hlookup]
  exact hagrees.define id n

/-- A statement that prints changes no variable. -/
theorem print {format : String} {es : List Expr} {v : Value}
    (values : ∀ env, Agrees D m.bindings env → ∃ vs, evalAll env es = some vs ∧
      formatted format.toList vs = some (v.text ++ "\n").toList)
    (hprint : Gives (Run.print v) m () m') : Follows D (.print format es) m m' := by
  intro ss hagrees
  obtain ⟨hcomplete, rfl⟩ := (Run.gives_print ..).mp hprint
  obtain ⟨vs, hvs, hformatted⟩ := values _ hagrees
  refine ⟨ss, v.text ++ "\n", ?_, Output.text_write hcomplete, hagrees, .refl ss⟩
  simpa using Exec.print hvs hformatted

end Follows

section Loops

variable {D : String → Prop} {counter : String} {n : Nat}

def counterScope (counter : String) (i : Nat) : Scope :=
  Scope.empty.set counter i

theorem counterScope_eq_none (hcounter : ¬ D counter) {x : String} (hx : D x) (i : Nat) :
    counterScope counter i x = none := by
  have hne : x ≠ counter := fun heq => hcounter (heq ▸ hx)
  simp [counterScope, Scope.set, hne, Scope.empty]

theorem lookup_counter (i : Nat) (ss : List Scope) :
    Scope.lookup (counterScope counter i :: ss) counter = some (i : Int) := by
  simp [counterScope, Scope.lookup_set]

/-- A counter is no variable of the script, so it hides none. -/
theorem Agrees.under_counter {b : Bindings} {ss : List Scope} (hcounter : ¬ D counter) (i : Nat) :
    Agrees D b (Scope.lookup (counterScope counter i :: ss)) ↔ Agrees D b (Scope.lookup ss) := by
  have hlookup : ∀ x, D x → Scope.lookup (counterScope counter i :: ss) x = Scope.lookup ss x :=
    fun x hx => Scope.lookup_cons_of_none (counterScope_eq_none hcounter hx i) ss
  constructor
  · intro h x hx
    rw [← hlookup x hx]
    exact h x hx
  · intro h x hx
    rw [hlookup x hx]
    exact h x hx

/-- Whether there is a turn left after `i` of them. -/
theorem eval_counter_lt (hn : n ≤ 2 ^ 31 - 1) (i : Nat) (ss : List Scope) :
    (Expr.compare .less (.var counter) (.number n)).eval
      (Scope.lookup (counterScope counter i :: ss)) = some (if i < n then 1 else 0) := by
  have hbound : toInt? (n : Int) = some (n : Int) := toInt?_eq_some (by omega)
  simp [Expr.eval, lookup_counter, hbound, C.compare]

theorem eval_counter_next {i : Nat} (hi : i < n) (hn : n ≤ 2 ^ 31 - 1) (ss : List Scope) :
    (Expr.arith .add (.var counter) (.number 1)).eval
      (Scope.lookup (counterScope counter i :: ss)) = some ((i + 1 : Nat) : Int) := by
  have hcounter : (Expr.var counter).eval (Scope.lookup (counterScope counter i :: ss)) =
      some (i : Int) := lookup_counter i ss
  have hone : (Expr.number 1).eval (Scope.lookup (counterScope counter i :: ss)) =
      some ((1 : Nat) : Int) := toInt?_eq_some (by omega)
  have hnext : toInt? (i + 1 : Nat) = some ((i + 1 : Nat) : Int) := toInt?_eq_some (by omega)
  rw [Expr.eval, hcounter, hone, Option.bind_some, Option.bind_some, arith?, ← Int.natCast_add,
    hnext]

/-- The step of a loop counts its turn. -/
theorem exec_counter_step {i : Nat} (hi : i < n) (hn : n ≤ 2 ^ 31 - 1) (ss : List Scope) :
    Exec (.assign counter (.arith .add (.var counter) (.number 1)))
      (counterScope counter i :: ss) (counterScope counter (i + 1) :: ss) "" := by
  have hset :
      (counterScope counter i).set counter (i + 1 : Nat) = counterScope counter (i + 1) := by
    funext x
    by_cases hx : x = counter <;> simp [counterScope, Scope.set, hx]
  have hdeclared : (counterScope counter i counter).isSome = true := by
    simp [counterScope, Scope.set]
  refine .assign (eval_counter_next hi hn ss) ?_
  rw [Scope.assign?, if_pos hdeclared, hset]

/-- The remaining turns of a counted loop, from a turn that the script has come to. -/
theorem exec_turns {act : Run Unit} {body : Stmt} {m m' : Machine} (hcounter : ¬ D counter)
    (hn : n ≤ 2 ^ 31 - 1)
    (hbody : ∀ i m₁ m₂, i < n → Gives (Run.times i act) m () m₁ → Gives act m₁ () m₂ →
      Follows D body m₁ m₂) {left i : Nat} {m₁ : Machine} (hleft : i + left = n)
    (hearlier : Gives (Run.times i act) m () m₁) (hlater : Gives (Run.times left act) m₁ () m')
    {ss : List Scope} (hagrees : Agrees D m₁.bindings (Scope.lookup ss)) :
    ∃ ss' out, Exec (.whileLoop (.compare .less (.var counter) (.number n))
        (.seq body (.assign counter (.arith .add (.var counter) (.number 1)))))
        (counterScope counter i :: ss) (counterScope counter n :: ss') out ∧
      m'.output.text = m₁.output.text ++ out ∧ Agrees D m'.bindings (Scope.lookup ss') ∧
      Scope.Keeps D ss ss' := by
  -- On the turns that are left: the counter goes up while they go down.
  induction left generalizing i m₁ ss with
  | zero =>
    obtain ⟨_, rfl⟩ := (gives_pure ..).mp hlater
    obtain rfl : i = n := hleft
    refine ⟨ss, "", .done ?_, by simp, hagrees, .refl ss⟩
    simpa using eval_counter_lt hn i ss
  | succ left ih =>
    obtain ⟨m₂, hact, hmore⟩ := (gives_times_succ ..).mp hlater
    have hi : i < n := by omega
    obtain ⟨scopes, out, hexec, hout, hagrees', hkeeps⟩ :=
      hbody i m₁ m₂ hi hearlier hact _ ((Agrees.under_counter hcounter i).mpr hagrees)
    obtain ⟨ss₁, rfl, hkeeps₁⟩ := hkeeps.of_disjoint fun _ hx =>
      counterScope_eq_none hcounter hx i
    obtain ⟨ss₂, out', hexec', hout', hagrees₂, hkeeps₂⟩ := ih (i := i + 1) (by omega)
      (gives_times_snoc hearlier hact) hmore ((Agrees.under_counter hcounter i).mp hagrees')
    refine ⟨ss₂, out ++ "" ++ out', .turn (v := 1) ?_ (by decide)
      (.seq hexec (exec_counter_step hi hn ss₁)) hexec', ?_, hagrees₂, hkeeps₁.trans hkeeps₂⟩
    · simpa [hi] using eval_counter_lt hn i ss
    · rw [hout', hout, String.append_empty, String.append_assoc]

/-- A counted loop follows a loop, if each turn follows a turn. -/
theorem Follows.loop {body : List Tree} {cs : List Code} {m m' : Machine}
    (hcounter : ¬ D counter) (hn : n ≤ 2 ^ 31 - 1)
    (hbody : ∀ i m₁ m₂, i < n → Gives (Run.times i (Tree.runAll body)) m () m₁ →
      Gives (Tree.runAll body) m₁ () m₂ → Follows D (Code.stmts cs) m₁ m₂)
    (hturns : Gives (Run.times n (Tree.runAll body)) m () m') :
    Follows D (Code.loop counter n cs).stmt m m' := by
  intro ss hagrees
  have hblock i m₁ m₂ hi hearlier hact := (hbody i m₁ m₂ hi hearlier hact).block
  obtain ⟨ss', out, hexec, hout, hagrees', hkeeps⟩ := exec_turns hcounter hn hblock
    (Nat.zero_add n) ((gives_pure ..).mpr ⟨rfl, rfl⟩) hturns hagrees
  have hdeclare : Exec (.declare counter (.number 0)) (Scope.empty :: ss)
      (counterScope counter 0 :: ss) "" :=
    .declare rfl (toInt?_eq_some (n := 0) (by omega))
  refine ⟨ss', "" ++ out, ?_, by rw [hout, String.empty_append], hagrees', hkeeps⟩
  exact .block (.seq hdeclare hexec)

end Loops

section Statements

variable {D : String → Prop} {m m' : Machine} {k : Nat}

theorem formatted_plain {cs : List Char} (h : ∀ c ∈ cs, c ≠ '%') (vs : List Int) :
    formatted cs vs = some cs := by
  induction cs with
  | nil => simp [formatted]
  | cons c cs ih =>
    have hc : c ≠ '%' := h c (by simp)
    have hcs := ih fun d hd => h d (List.mem_cons_of_mem _ hd)
    rw [formatted]
    · simp [hcs]
    · simp [hc]
    · simp [hc]

/-- Printing in C follows the expression that is shown. -/
theorem follows_shown {t : Tree} {c : Code} (hcode : Drafted t c) (hshape : t.IsShownSum)
    (hnames : ∀ id ∈ t.names, D id) (hplain : Visit.IsPlain ⟨.tree t, k, m⟩) {a : Option Value}
    (hrun : Gives t.run m a m') : Follows D (Code.shownAt .statement true c).stmt m m' := by
  obtain ⟨v, hvalue, rfl, hprint⟩ := (hshape.gives_run m m' a).mp hrun
  have heval env (hagrees : Agrees D m.bindings env) :=
    eval_sum hagrees hcode (.inr hshape) hnames hplain hvalue hrun
  have hformat env (hagrees : Agrees D m.bindings env) : ∃ vs, evalAll env [c.expr] = some vs ∧
      formatted "%i\n".toList vs = some (v.text ++ "\n").toList := by
    obtain ⟨n, rfl, hn⟩ := heval env hagrees
    exact ⟨[n.toInt], by simp [evalAll, hn], by simp [formatted, Value.text]⟩
  cases hcode with
  | literal n shown p =>
    cases hvalue
    refine .print (v := .integer n) (fun env hagrees => ⟨[], rfl, ?_⟩) hprint
    refine formatted_plain (fun c hc => ?_) []
    rw [String.toList_append, List.mem_append] at hc
    rcases hc with hdigit | hend
    · exact (plain_of_mem_repr hdigit).2.2.2
    · obtain rfl : c = '\n' := by simpa using hend
      decide
  | name id shown p => exact .print hformat hprint
  | arith op shown p left right => exact .print hformat hprint
  | compare op p left right => exact hshape.elim
  | choose p test yes no => exact hshape.elim

def Covers (D : String → Prop) (d : Draft) : Prop :=
  ∀ id, d.bindings.contains id = true ↔ D id

theorem Covers.after {d d' : Draft} {ids : List String} (h : Covers D d)
    (hbound : ∀ id, d'.bindings.contains id = true ↔ d.bindings.contains id = true ∨ id ∈ ids)
    (hids : ∀ id ∈ ids, D id) : Covers D d' := by
  intro id
  rw [hbound, h id]
  exact ⟨fun hid => hid.elim (fun h => h) (hids id), .inl⟩

/-- The bound of a loop is constant, so the draft has found the number of turns, and since
it has been computed, that number is an `int`. -/
theorem turns_eq {b : Tree} {body : List Tree} {p : Position} {d : Draft} {x y : Value}
    {n n' : Nat} {env : String → Option Int} (hplain : Visit.IsPlain ⟨.tree (.loop b body p), k, m⟩)
    (hshape : b.IsQuiet) (hdraft : b.value? d.bindings = some x) (hcount : x.count p = .ok n)
    (hvalue : b.value? m.bindings = some y) (hcount' : y.count p = .ok n')
    (hagrees : Agrees D m.bindings env) : n' = n ∧ n ≤ 2 ^ 31 - 1 := by
  have hnames : b.names = [] := hplain.constant b (by simp [Part.gather])
  have hsame : b.value? m.bindings = b.value? d.bindings := Tree.value?_congr b (by simp [hnames])
  obtain rfl : y = x := Option.some.inj (hvalue.symm.trans (hsame.trans hdraft))
  obtain ⟨c, hc⟩ := exists_drafted hshape.isExpression
  have hbound := hplain.enters (.bound b body p k m)
  obtain ⟨i, rfl, _⟩ := eval_quiet hagrees hc hshape (by simp [hnames]) hbound hvalue
  have hsmall := hbound.small.value ((hshape.isSilent.runsSilently m _ _).mpr ⟨_, hvalue, rfl, rfl⟩)
  rw [hcount] at hcount'
  cases hcount'
  cases hcount
  exact ⟨rfl, by omega⟩

/-- Whether the condition of a branch holds is what C finds. -/
theorem eval_condition {t : Tree} {c : Code} (hcode : Drafted t c) (hshape : t.IsTest)
    (hnames : ∀ id ∈ t.names, D id) (hplain : Visit.IsPlain ⟨.tree t, k, m⟩) {x : Value}
    (hvalue : t.value? m.bindings = some x) (env : String → Option Int)
    (hagrees : Agrees D m.bindings env) :
    (x.holds = true → ∃ a, c.expr.eval env = some a ∧ a ≠ 0) ∧
      (x.holds = false → c.expr.eval env = some 0) := by
  obtain ⟨a, ha, hiff⟩ := eval_test hagrees hcode hshape hnames hplain hvalue
  refine ⟨fun hholds => ⟨a, ha, hiff.mp hholds⟩, fun hfails => ?_⟩
  have hzero : ¬ a ≠ 0 := mt hiff.mpr (by simp [hfails])
  rw [ha, Decidable.of_not_not hzero]

mutual

/-- The C statement of a statement follows it, once all the variables it assigns to are
declared. -/
theorem DraftsTo.follows (hfresh : ∀ n, ¬ D (Counters.name n)) {t : Tree} {c : Code}
    {d d' : Draft} : DraftsTo t d c d' → Covers D d → ∀ {k m m' a},
    Visit.IsInside D ⟨.tree t, k, m⟩ → Gives t.run m a m' → Follows D c.stmt m m'
  | .shown shape code bound, hd, k, m, m', a, hinside, hrun =>
    follows_shown code shape (fun id hid => (hd id).mp (bound id hid)) hinside.toIsPlain hrun
  | @DraftsTo.assign v c d _ id p shape _ code bound, hd, k, m, m', a, hinside, hrun => by
    obtain ⟨x, hx, rfl, rfl⟩ := (gives_run_assign shape.isSilent id p m m' a).mp hrun
    have hid : D id := hinside.targets id (by simp [Part.gather])
    simp only [Code.stmt, (hd id).mpr hid, Bool.not_true, Bool.false_eq_true, if_false]
    have hplain := hinside.toIsPlain.enters (.assigned id v p k m)
    exact .assign hid fun env hagrees => eval_value hagrees code shape
      (fun id hid => (hd id).mp (bound id hid)) hplain hx
  | @DraftsTo.loop b body cs d d' x n p shape value count block, hd, k, m, m', a, hinside,
    hrun => by
    obtain ⟨y, n', hy, hn', rfl, hturns⟩ := (gives_run_loop shape.isSilent body p m m' a).mp hrun
    intro ss hagrees
    obtain ⟨rfl, hsmall⟩ := turns_eq hinside.toIsPlain shape value count hy hn' hagrees
    have hbound := (shape.isSilent.runsSilently m _ _).mpr ⟨y, hy, rfl, rfl⟩
    refine Follows.loop (hfresh _) hsmall (fun i m₁ m₂ hi hearlier hact => ?_) hturns ss hagrees
    exact block.follows hfresh hd (hinside.enters (.turn p k hbound hn' hi hearlier)) hact
  | @DraftsTo.branch t body last others c cs ds chains d d₁ d₂ d' p shape code bound block elifs
      otherwise, hd, k, m, m', a, hinside, hrun => by
    obtain ⟨rfl, held, hchain⟩ := (gives_run_branch _ m m' a).mp hrun
    have hbranch := hinside.enters (.chain _ k m)
    have hbody : ∀ id ∈ Tree.targetsAll body, D id := fun id hid =>
      hbranch.targets id (by simp [Part.gather, hid])
    have hothers : ∀ id ∈ Branch.targetsAll others, D id := fun id hid =>
      hbranch.targets id (by simp [Part.gather, hid])
    -- Blocks that do not run are drafted too, but assign only to what is declared already.
    have hd₁ := hd.after block.contains_iff hbody
    have hd₂ := hd₁.after elifs.contains_iff hothers
    obtain ⟨x, hx, hcases⟩ :=
      (gives_run_chain shape.isSilent body others last p m m' held).mp hchain
    have htest := (shape.isSilent.runsSilently m _ _).mpr ⟨x, hx, rfl, rfl⟩
    have hcondition := eval_condition code shape
      (fun id hid => (hd id).mp (bound id hid))
      (hbranch.toIsPlain.enters (.branchTest t body others last p k m)) hx
    rcases hcases with ⟨hholds, _, hblock⟩ | ⟨hfails, _, hfound⟩ | ⟨hfails, _, m₁, hnone, hlast⟩
    · have hyes := hbranch.enters (.branchYes body others last p k htest hholds)
      exact .yes (fun env hagrees => (hcondition env hagrees).1 hholds)
        (block.follows hfresh hd hyes hblock).block _
    · have hfirst := hbranch.enters (.branchNo body others last p k htest hfails)
      exact .no (fun env hagrees => (hcondition env hagrees).2 hfails)
        ((elifs.follows hfresh hd₁ hfirst hfound).1 rfl _) _
    · have hfirst := hbranch.enters (.branchNo body others last p k htest hfails)
      have hinner := hbranch.enters (.branchLast body last p k htest hfails hnone)
      obtain ⟨rfl, hskip⟩ := (elifs.follows hfresh hd₁ hfirst hnone).2 rfl
      refine .no (fun env hagrees => (hcondition env hagrees).2 hfails) (hskip _ _ ?_) _
      have hfollows := otherwise.follows hfresh hd₂ hinner hlast
      cases otherwise with
      | nil =>
        obtain ⟨_, rfl⟩ := (gives_pure ..).mp hlast
        exact .skip D m₁
      | cons _ _ => exact hfollows.block

theorem DraftsAll.follows (hfresh : ∀ n, ¬ D (Counters.name n)) {ts : List Tree}
    {cs : List Code} {d d' : Draft} : DraftsAll ts d cs d' → Covers D d → ∀ {k m m'},
    Visit.IsInside D ⟨.block ts, k, m⟩ → Gives (Tree.runAll ts) m () m' →
      Follows D (Code.stmts cs) m m'
  | .nil _, _, k, m, m', _, hrun => by
    obtain ⟨_, rfl⟩ := (gives_pure ..).mp hrun
    exact .skip D m
  | @DraftsAll.cons t ts c cs d d₁ d' head tail, hd, k, m, m', hinside, hrun => by
    obtain ⟨a, m₁, hhead, htail⟩ := (gives_runAll_cons t ts m m').mp hrun
    have htree := hinside.enters (.head t ts k m)
    have hd₁ := hd.after head.contains_iff htree.targets
    exact .seq (head.follows hfresh hd htree hhead)
      (tail.follows hfresh hd₁ (hinside.enters (.tail ts k hhead)) htail)

/-- If one of the branches holds, C runs its block; if none does, C comes to whatever
stands after them. -/
theorem DraftsElifs.follows (hfresh : ∀ n, ¬ D (Counters.name n)) {bs : List Branch}
    {cs : List Chain} {d d' : Draft} : DraftsElifs bs d cs d' → Covers D d →
    ∀ {k m m' held}, Visit.IsInside D ⟨.first bs, k, m⟩ → Gives (Branch.runFirst bs) m held m' →
      (held = true → ∀ last, Follows D (Chain.elseStmt cs last) m m') ∧
      (held = false → m' = m ∧ ∀ last m₂, Follows D last m m₂ →
        Follows D (Chain.elseStmt cs last) m m₂)
  | .nil _, _, k, m, m', held, _, hrun => by
    obtain ⟨rfl, rfl⟩ := (gives_pure ..).mp hrun
    exact ⟨nofun, fun _ => ⟨rfl, fun _ _ h => h⟩⟩
  | @DraftsElifs.cons t body others c cs chains d d₁ d' p shape code bound block tail, hd, k, m, m',
      held, hinside, hrun => by
    have hbranch := hinside.enters (.firstHead _ others k m)
    have hd₁ := hd.after block.contains_iff fun id hid =>
      hbranch.targets id (by simp [Part.gather, hid])
    have htestPlain := hbranch.toIsPlain.enters (.branchTest t body [] [] p k m)
    have hnames : ∀ id ∈ t.names, D id := fun id hid => (hd id).mp (bound id hid)
    rcases (gives_runFirst_cons ..).mp hrun with ⟨rfl, hthis⟩ | ⟨m₁, hthis, hothers⟩
    · obtain ⟨x, hx, hholds, hblock⟩ := (gives_run_elif shape.isSilent body p m m').1.mp hthis
      have htest := (shape.isSilent.runsSilently m _ _).mpr ⟨x, hx, rfl, rfl⟩
      have hcondition env h := (eval_condition code shape hnames htestPlain hx env h).1 hholds
      have hfollows := block.follows hfresh hd
        (hbranch.enters (.branchYes body [] [] p k htest hholds)) hblock
      exact ⟨fun _ last => .yes hcondition hfollows.block _, nofun⟩
    · obtain ⟨x, hx, hfails, rfl⟩ := (gives_run_elif shape.isSilent body p m m₁).2.mp hthis
      have hcondition env h := (eval_condition code shape hnames htestPlain hx env h).2 hfails
      obtain ⟨hfound, hnone⟩ := tail.follows hfresh hd₁ (hinside.enters (.firstTail others k hthis))
        hothers
      refine ⟨fun hheld last => .no hcondition (hfound hheld last) _, fun hheld => ?_⟩
      obtain ⟨rfl, hskip⟩ := hnone hheld
      exact ⟨rfl, fun last m₂ hlast => .no hcondition (hskip last m₂ hlast) _⟩

end

end Statements

end CSource

end Scriptlet
