import Scriptlet.Proofs.CSource.Safety

/-!
Loops and chains of branches in plainer terms. A loop is its body written out as many times as
its bound says, and the bound says so before the first turn. A chain, if its later branches
have none of their own, is the one where each branch stands in the last block of the branch
before it; both run the block of the first condition that holds, and no condition after it.
-/
namespace Scriptlet

/-- A tree that gives a value assigns nothing: a statement inside it would have none to give. -/
theorem Tree.bindings_of_gives_value : {t : Tree} → {m m' : Machine} → {v : Value} →
    Gives t.run m (some v) m' → m'.bindings = m.bindings
  | .program _, _, _, _, h => by simp [Tree.run] at h
  | .literal _ _ _, _, _, _, h => Run.bindings_of_gives_give h
  | .name id shown p, m, m', v, h => by
    obtain ⟨x, m₁, hresolve, hgive⟩ := (gives_bind ..).mp h
    obtain ⟨_, rfl⟩ := (Attempt.gives_resolve ..).mp hresolve
    exact Run.bindings_of_gives_give hgive
  | .arith op l r shown p, m, m', v, h => by
    simp only [Tree.run, gives_bind, Run.gives_needed] at h
    obtain ⟨_, m₁, hl, x, _, ⟨rfl, rfl⟩, _, m₂, hr, y, _, ⟨rfl, rfl⟩, hgive⟩ := h
    have hoperands := (bindings_of_gives_value hr).trans (bindings_of_gives_value hl)
    cases happly : op.apply x y with
    | error fault => simp [happly] at hgive
    | ok w =>
      rw [happly] at hgive
      exact (Run.bindings_of_gives_give hgive).trans hoperands
  | .compare op l r p, m, m', v, h => by
    simp only [Tree.run, gives_bind, Run.gives_needed, gives_pure] at h
    obtain ⟨_, m₁, hl, x, _, ⟨rfl, rfl⟩, _, m₂, hr, y, _, ⟨rfl, rfl⟩, _, rfl⟩ := h
    exact (bindings_of_gives_value hr).trans (bindings_of_gives_value hl)
  | .assign _ _ _, _, _, _, h => by simp [Tree.run] at h
  | .choose c y n p, m, m', v, h => by
    simp only [Tree.run, gives_bind, Run.gives_needed] at h
    obtain ⟨_, m₁, hc, x, _, ⟨rfl, rfl⟩, hside⟩ := h
    have htest := bindings_of_gives_value hc
    by_cases hholds : x.holds = true
    · rw [if_pos hholds] at hside
      exact (bindings_of_gives_value hside).trans htest
    · rw [if_neg hholds] at hside
      exact (bindings_of_gives_value hside).trans htest
  | .branch _, _, _, _, h => by simp [Tree.run] at h
  | .loop _ _ _, _, _, _, h => by simp [Tree.run] at h

section Loops

/-- The turns of a loop, one after another, are one long block. -/
theorem Run.times_runAll (n : Nat) (body : List Tree) :
    Run.times n (Tree.runAll body) = Tree.runAll (List.replicate n body).flatten := by
  induction n with
  | zero => rfl
  | succ n ih => rw [Run.times, ih, List.replicate_succ, List.flatten_cons, Tree.runAll_append]

/-- A loop runs its body as often as its bound says, one turn behind the other. -/
theorem Tree.run_loop (bound : Tree) (body : List Tree) (p : Position) :
    (Tree.loop bound body p).run = bound.runValue >>= fun v => Attempt.ofExcept (v.count p) >>=
      fun n => (Tree.program (List.replicate n body).flatten).run := by
  simp only [Tree.run, Tree.runValue, bind_assoc, Run.times_runAll]

/-- A loop, whatever its bound and body are and on whatever machine. If the bound gives a value
that is a number of turns, the loop does what the statements of its body do, written one
after another as many times. They start where the bound ends, with the bindings that the
loop began with, and on the very same machine unless something in the bound is shown. If the
bound fails or is no number of turns, so does the loop, and all it ever runs is the bound. -/
theorem Tree.loop_unrolled (bound : Tree) (body : List Tree) (p : Position) (m : Machine) :
    (∀ v m₁ n, Gives bound.runValue m v m₁ → v.count p = .ok n →
      m₁.bindings = m.bindings ∧ (bound.IsSilent → m₁ = m) ∧
      (Tree.loop bound body p).run.run m =
        (Tree.program (List.replicate n body).flatten).run.run m₁) ∧
    ∀ e m₁, (Fails bound.runValue m e m₁ ∨
        ∃ v, Gives bound.runValue m v m₁ ∧ v.count p = .error e) →
      (Tree.loop bound body p).run.run m = (.error e, m₁) ∧
      ∀ k y, Enters ⟨.tree (.loop bound body p), k, m⟩ y → y.part = .tree bound := by
  refine ⟨fun v m₁ n hbound hcount => ?_, fun e m₁ hends => ?_⟩
  · have hrun := (gives_runValue ..).mp hbound
    refine ⟨Tree.bindings_of_gives_value hrun, fun hsilent => ?_, ?_⟩
    · obtain ⟨_, _, _, hsame⟩ := (hsilent.runsSilently _ _ _).mp hrun
      exact hsame
    · rw [Tree.run_loop, hbound.run_bind, hcount]
      rfl
  · have hnone : ∀ v m₂ n, Gives bound.run m (some v) m₂ → v.count p ≠ .ok n := by
      intro v m₂ n hrun hcount
      have hvalue := (gives_runValue ..).mpr hrun
      rcases hends with hfails | ⟨w, hgives, herror⟩
      · rw [Fails, show bound.runValue.run m = _ from hvalue] at hfails
        cases hfails
      · obtain ⟨rfl, _⟩ := hvalue.unique hgives
        rw [hcount] at herror
        cases herror
    refine ⟨?_, fun k y henters => ?_⟩
    · rw [Tree.run_loop]
      rcases hends with hfails | ⟨v, hgives, herror⟩
      · exact hfails.run_bind _
      · rw [hgives.run_bind, herror]
        rfl
    · cases henters with
      | bound => rfl
      | turn p k hrun hcount => exact absurd hcount (hnone _ _ _ hrun)

/-- The statements `x; let x = x - 1;`. -/
def countDown : List Tree :=
  [.name "x" true ⟨1, 12⟩,
    .assign "x" (.arith .sub (.name "x" false ⟨1, 23⟩) (.literal 1 false ⟨1, 27⟩) false ⟨1, 25⟩)
      ⟨1, 15⟩]

/-- The loop `repeat x { x; let x = x - 1; }` turns three times where `x` is three, though its
bound falls with every turn. -/
theorem countDown_unrolled :
    (Tree.loop (.name "x" false ⟨1, 8⟩) countDown ⟨1, 1⟩).run.run
        { bindings := Bindings.empty.define "x" (.integer 3) } =
      (Tree.program (countDown ++ countDown ++ countDown)).run.run
        { bindings := Bindings.empty.define "x" (.integer 3) } ∧
    ((Tree.program (countDown ++ countDown ++ countDown)).run.run
        { bindings := Bindings.empty.define "x" (.integer 3) }).2.output.text = "3\n2\n1\n" := by
  have hbound : Gives (Tree.name "x" false ⟨1, 8⟩).runValue
      { bindings := Bindings.empty.define "x" (.integer 3) } (.integer 3)
      { bindings := Bindings.empty.define "x" (.integer 3) } := by
    rw [gives_runValue]
    have hsilent : (Tree.name "x" false ⟨1, 8⟩).IsSilent := rfl
    refine (hsilent.runsSilently _ _ _).mpr ⟨.integer 3, ?_, rfl, rfl⟩
    simp [Tree.value?]
  obtain ⟨_, _, hrun⟩ := (Tree.loop_unrolled _ countDown ⟨1, 1⟩ _).1 _ _ 3 hbound rfl
  exact ⟨hrun, rfl⟩

end Loops

namespace Branch

def arm : Branch → Tree × List Tree
  | mk test body _ _ _ => (test, body)

def IsSingle : Branch → Prop
  | mk _ _ others last _ => others = [] ∧ last = []

/-- The chain of two-way branches: every branch after the first stands, with those after it,
in the last block of the one before. -/
def nested (test : Tree) (body : List Tree) : List Branch → List Tree → Position → Branch
  | [], last, p => ⟨test, body, [], last, p⟩
  | ⟨c, block, _, _, q⟩ :: others, last, p =>
    ⟨test, body, [], [.branch (nested c block others last q)], p⟩

/-- Runs the conditions in order until one holds, and gives the block to run then. -/
def select (last : List Tree) : List (Tree × List Tree) → Run (List Tree)
  | [] => pure last
  | (test, body) :: arms => do
    if (← test.runValue).holds then pure body else select last arms

/-- All the conditions give values that do not hold, one after another from the first machine
to the second. -/
inductive Passes : List (Tree × List Tree) → Machine → Machine → Prop
  | nil (m : Machine) : Passes [] m m
  | cons {test : Tree} {v : Value} {m m₁ m₂ : Machine} {arms : List (Tree × List Tree)}
      (body : List Tree) (value : Gives test.runValue m v m₁) (fails : v.holds = false)
      (rest : Passes arms m₁ m₂) : Passes ((test, body) :: arms) m m₂

/-- What a chain comes to: the block of the first condition that holds, the last block if none
does, or the error of a condition before which none held. -/
inductive Decides (last : List Tree) (m : Machine) :
    List (Tree × List Tree) → Except RunError (List Tree) → Machine → Prop
  | holds {test : Tree} {v : Value} {m₁ m₂ : Machine} (before : List (Tree × List Tree))
      (body : List Tree) (after : List (Tree × List Tree)) (passed : Passes before m m₁)
      (value : Gives test.runValue m₁ v m₂) (holds : v.holds = true) :
      Decides last m (before ++ (test, body) :: after) (.ok body) m₂
  | none {arms : List (Tree × List Tree)} {m₁ : Machine} (passed : Passes arms m m₁) :
      Decides last m arms (.ok last) m₁
  | fails {test : Tree} {e : RunError} {m₁ m₂ : Machine} (before : List (Tree × List Tree))
      (body : List Tree) (after : List (Tree × List Tree)) (passed : Passes before m m₁)
      (value : Fails test.runValue m₁ e m₂) :
      Decides last m (before ++ (test, body) :: after) (.error e) m₂

section Select

variable {last body : List Tree} {test : Tree} {v : Value} {m m₁ m₂ : Machine}
  {arms : List (Tree × List Tree)} {r : Except RunError (List Tree)}

theorem run_select_holds (value : Gives test.runValue m v m₁) (holds : v.holds = true) :
    (select last ((test, body) :: arms)).run m = (.ok body, m₁) := by
  rw [select, value.run_bind, if_pos holds]
  rfl

theorem run_select_fails (value : Gives test.runValue m v m₁) (fails : v.holds = false) :
    (select last ((test, body) :: arms)).run m = (select last arms).run m₁ := by
  rw [select, value.run_bind, if_neg (by rw [fails]; exact Bool.false_ne_true)]

/-- Branches whose tests do not hold are passed over. -/
theorem Passes.run_select {before : List (Tree × List Tree)} (h : Passes before m m₁)
    (last : List Tree) (arms : List (Tree × List Tree)) :
    (select last (before ++ arms)).run m = (select last arms).run m₁ := by
  induction h with
  | nil m => rfl
  | cons body value fails _ ih => rw [List.cons_append, run_select_fails value fails, ih]

/-- What decides a chain is what its run comes to. -/
theorem Decides.run_select (h : Decides last m arms r m₁) : (select last arms).run m = (r, m₁) := by
  cases h with
  | holds before body after passed value holds =>
    rw [passed.run_select, run_select_holds value holds]
  | none passed =>
    have hall := passed.run_select last []
    rw [List.append_nil] at hall
    rw [hall]
    rfl
  | fails before body after passed value => rw [passed.run_select, select, value.run_bind]

/-- One more condition in front that does not hold. -/
theorem Decides.cons (body : List Tree) (value : Gives test.runValue m v m₁)
    (hfails : v.holds = false) (h : Decides last m₁ arms r m₂) :
    Decides last m ((test, body) :: arms) r m₂ := by
  cases h with
  | holds before block after passed hvalue hholds =>
    exact .holds ((test, body) :: before) block after (.cons body value hfails passed) hvalue hholds
  | none passed => exact .none (.cons body value hfails passed)
  | fails before block after passed herror =>
    exact .fails ((test, body) :: before) block after (.cons body value hfails passed) herror

/-- Whatever the run of a chain comes to is what decides the chain. -/
theorem decides_select (last : List Tree) (arms : List (Tree × List Tree)) (m : Machine) :
    Decides last m arms ((select last arms).run m).1 ((select last arms).run m).2 := by
  induction arms generalizing m with
  | nil => exact .none (.nil m)
  | cons first arms ih =>
    obtain ⟨test, body⟩ := first
    cases htest : test.runValue.run m with
    | mk result m₁ =>
      cases result with
      | error e =>
        have hfails : Fails test.runValue m e m₁ := htest
        rw [select, hfails.run_bind]
        exact .fails [] body arms (.nil m) hfails
      | ok v =>
        have hvalue : Gives test.runValue m v m₁ := htest
        cases hholds : v.holds with
        | true =>
          rw [run_select_holds hvalue hholds]
          exact .holds [] body arms (.nil m) hvalue hholds
        | false =>
          rw [run_select_fails hvalue hholds]
          exact (ih m₁).cons body hvalue hholds

end Select

/-- Branches that have none of their own, tried one after another before a last block. -/
theorem runFirst_eq_select {others : List Branch} (h : ∀ b ∈ others, b.IsSingle)
    (last : List Tree) :
    (runFirst others >>= fun held => if held then pure () else Tree.runAll last) =
      select last (others.map arm) >>= Tree.runAll := by
  induction others with
  | nil => simp [runFirst, select]
  | cons b others ih =>
    obtain ⟨c, block, _, _, p⟩ := b
    obtain ⟨rfl, rfl⟩ := h _ List.mem_cons_self
    have hrest := ih fun b hb => h b (List.mem_cons_of_mem _ hb)
    rw [List.map_cons, arm, select, runFirst, Branch.run]
    simp only [Tree.runValue, bind_assoc]
    refine bind_congr fun a => bind_congr fun v => ?_
    by_cases hholds : v.holds = true
    · simp [hholds]
    · simp [hholds, runFirst, Tree.runAll, ← hrest]

/-- A chain whose later branches have none of their own. -/
theorem run_eq_select (test : Tree) (body : List Tree) {others : List Branch}
    (h : ∀ b ∈ others, b.IsSingle) (last : List Tree) (p : Position) :
    (Tree.branch ⟨test, body, others, last, p⟩).run =
      select last ((test, body) :: others.map arm) >>= fun block => (Tree.program block).run := by
  rw [Tree.run, Branch.run, select]
  simp only [Tree.runValue, bind_assoc]
  refine bind_congr fun a => bind_congr fun v => ?_
  by_cases hholds : v.holds = true
  · simp [hholds, Tree.run]
  · -- Whether a branch held says no more than that the last block is not run.
    have hrest := congrArg (fun run => run >>= fun _ => (pure none : Run (Option Value)))
      (runFirst_eq_select h last)
    simp only [bind_assoc] at hrest
    simp only [hholds, Bool.false_eq_true, if_false, Tree.run, bind_assoc, ← hrest]
    refine bind_congr fun held => ?_
    cases held <;> simp

/-- A block that is nothing but a branch. -/
theorem run_program_branch (b : Branch) : (Tree.program [.branch b]).run = (Tree.branch b).run := by
  simp [Tree.run, Tree.runAll]

/-- Branches nested in one another run as the chain of them does. -/
theorem run_nested (test : Tree) (body : List Tree) (others : List Branch) (last : List Tree)
    (p : Position) :
    (Tree.branch (nested test body others last p)).run =
      select last ((test, body) :: others.map arm) >>= fun block => (Tree.program block).run := by
  induction others generalizing test body p with
  | nil => exact run_eq_select test body (List.forall_mem_nil _) last p
  | cons b others ih =>
    obtain ⟨c, block, _, _, q⟩ := b
    rw [nested, run_eq_select test body (List.forall_mem_nil _), List.map_nil]
    simp only [select, bind_assoc]
    refine bind_congr fun v => ?_
    by_cases hholds : v.holds = true
    · simp only [if_pos hholds]
    · simp only [if_neg hholds]
      rw [pure_bind, run_program_branch, ih, List.map_cons, arm]

end Branch

theorem Branch.AllElifs.isSingle {others : List Branch} (h : AllElifs others) :
    ∀ b ∈ others, b.IsSingle := by
  induction others with
  | nil => exact List.forall_mem_nil _
  | cons b others ih =>
    obtain ⟨c, block, elifs, last, p⟩ := b
    exact List.forall_mem_cons.mpr ⟨⟨h.1.2.2.1, h.1.2.2.2⟩, ih h.2⟩

namespace Script

/-- In a script, at whatever depth, the later branches of a chain have none of their own. -/
theorem isSingle_of_parse {source : String} {t c : Tree} {body last : List Tree}
    {others : List Branch} {p : Position} (hparse : parse source = .ok t)
    (hwithin : Relation.ReflTransGen Part.Holds (.tree t) (.branch ⟨c, body, others, last, p⟩)) :
    ∀ b ∈ others, b.IsSingle := by
  have hproper : ∀ part, Relation.ReflTransGen Part.Holds (.tree t) part → part.IsProper := by
    intro part hpart
    induction hpart with
    | refl => exact isProper_of_parse hparse
    | tail _ hholds ih => exact ih.holds hholds
  obtain ⟨_, _, helifs, _⟩ := hproper _ hwithin
  exact helifs.isSingle

/-- Chains of branches as scripts have them: those after the first have no branches and no last
block of their own. Such a chain runs as the nested one does, on every machine. There is
one thing that its conditions come to, and the chain does that: it runs the block of the first
condition that holds, whatever the later ones are, or the last block if none holds, or
fails with the error of a condition. -/
theorem chain_nested :
    (∀ source t c body others last p, parse source = .ok t →
      Relation.ReflTransGen Part.Holds (.tree t) (.branch ⟨c, body, others, last, p⟩) →
      ∀ b ∈ others, b.IsSingle) ∧
    ∀ c body others last p, (∀ b ∈ others, b.IsSingle) →
      (Tree.branch ⟨c, body, others, last, p⟩).run =
        (Tree.branch (Branch.nested c body others last p)).run ∧
      ∀ m, ∃ r m', Branch.Decides last m ((c, body) :: others.map Branch.arm) r m' ∧
        (∀ r₁ m₁, Branch.Decides last m ((c, body) :: others.map Branch.arm) r₁ m₁ →
          r₁ = r ∧ m₁ = m') ∧
        (Tree.branch ⟨c, body, others, last, p⟩).run.run m = match r with
          | .ok block => (Tree.program block).run.run m'
          | .error e => (.error e, m') := by
  refine ⟨fun source t c body others last p hparse hwithin => isSingle_of_parse hparse hwithin, ?_⟩
  intro c body others last p hsingle
  have hrun := Branch.run_eq_select c body hsingle last p
  refine ⟨hrun.trans (Branch.run_nested c body others last p).symm, fun m => ?_⟩
  have hdecides := Branch.decides_select last ((c, body) :: others.map Branch.arm) m
  refine ⟨_, _, hdecides, fun r₁ m₁ hother => ?_, ?_⟩
  · rw [hother.run_select]
    exact ⟨rfl, rfl⟩
  · rw [hrun, run_bind]
    cases (Branch.select last ((c, body) :: others.map Branch.arm)).run m with
    | mk r m' => cases r <;> rfl

/-- The chain `if 0 { 1; } elif 1 { 2; } elif y { 3; }`. -/
def secondHolds : Branch :=
  ⟨.literal 0 false ⟨1, 4⟩, [.literal 1 true ⟨1, 8⟩],
    [⟨.literal 1 false ⟨1, 18⟩, [.literal 2 true ⟨1, 22⟩], [], [], ⟨1, 13⟩⟩,
      ⟨.name "y" false ⟨1, 32⟩, [.literal 3 true ⟨1, 36⟩], [], [], ⟨1, 27⟩⟩], [], ⟨1, 1⟩⟩

/-- The chain `if 0 { 1; } else { if 1 { 2; } else { if y { 3; } } }`, with the places of the
branches in `secondHolds`. -/
def secondHoldsInside : Branch :=
  ⟨.literal 0 false ⟨1, 4⟩, [.literal 1 true ⟨1, 8⟩], [],
    [.branch ⟨.literal 1 false ⟨1, 18⟩, [.literal 2 true ⟨1, 22⟩], [],
      [.branch ⟨.name "y" false ⟨1, 32⟩, [.literal 3 true ⟨1, 36⟩], [], [], ⟨1, 27⟩⟩], ⟨1, 13⟩⟩],
    ⟨1, 1⟩⟩

/-- The second condition holds, so it is not found out that there is no `y`. -/
theorem secondHolds_nested :
    parse "if 0 \x7b 1; \x7d elif 1 \x7b 2; \x7d elif y \x7b 3; \x7d" =
      .ok (.program [.branch secondHolds]) ∧
    (Tree.branch secondHolds).run = (Tree.branch secondHoldsInside).run ∧
    (Tree.branch secondHolds).run.run {} = (.ok none, ⟨.empty, ⟨"2\n", none⟩⟩) := by
  have hparse : parse "if 0 \x7b 1; \x7d elif 1 \x7b 2; \x7d elif y \x7b 3; \x7d" =
      .ok (.program [.branch secondHolds]) := by with_unfolding_all rfl
  have hwithin : Relation.ReflTransGen Part.Holds (.tree (.program [.branch secondHolds]))
      (.branch secondHolds) :=
    .tail (.tail (.single (.program _)) (.head _ _)) (.chain _)
  have hsingle := chain_nested.1 _ _ _ _ _ _ _ hparse hwithin
  exact ⟨hparse, (chain_nested.2 _ _ _ _ _ hsingle).1, rfl⟩

end Script

end Scriptlet
