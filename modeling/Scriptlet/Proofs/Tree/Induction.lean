import Scriptlet.Proofs.Tree.Moved
import Scriptlet.Proofs.Tree.Visits

/-!
Induction over runs. What can be said of a run does not depend on the kinds of nodes but on the
few things that runs are put together from: looking up a name, showing a value, assigning to
a name, asking for a value or a count, and failing at an operator. `RunRules` lists what a
property has to satisfy for these, and then it holds of the run of every part. A property may
speak of a second run beside the first, that of the same part with its places moved, so that
runs of moved trees are compared by the same induction.
-/
namespace Scriptlet

/-- From `m` the tree has come to its value, and what is left is to give it, shown or not. -/
inductive Tree.ComesTo : Tree → Machine → Value → Machine → Prop
  | literal (n : Int64) (shown : Bool) (p : Position) (m : Machine) :
      ComesTo (.literal n shown p) m (.integer n) m
  | name {id : String} {v : Value} {m m' : Machine} (shown : Bool) (p : Position)
      (value : Gives (Run.resolve id p) m v m') : ComesTo (.name id shown p) m v m'
  | arith {op : ArithOp} {l r : Tree} {x y v : Value} {m m₁ m' : Machine} (shown : Bool)
      (p : Position) (left : Gives l.run m (some x) m₁) (right : Gives r.run m₁ (some y) m')
      (value : op.apply x y = .ok v) : ComesTo (.arith op l r shown p) m v m'

theorem Tree.ComesTo.gives_run {t : Tree} {m m₁ m' : Machine} {v : Value} {a : Option Value}
    (h : t.ComesTo m v m₁) (hgives : Gives (Run.give v t.isShown) m₁ a m') :
    Gives t.run m a m' := by
  cases h with
  | literal => exact hgives
  | name shown p value => exact (gives_bind ..).mpr ⟨v, m₁, value, hgives⟩
  | @arith op l r x y _ _ m₂ _ shown p left right value =>
    simp only [Tree.run, gives_bind, Run.gives_needed]
    refine ⟨some x, m₂, left, x, m₂, ⟨rfl, rfl⟩, some y, m₁, right, y, m₁, ⟨rfl, rfl⟩, ?_⟩
    rw [value]
    exact hgives

/-- The rules for a property of runs. `P x run run' m` says it of `run`, done from `m` within
`x`, and of `run'`, the run of the same part with its places moved by `f`. The parts in
question are those with `Q`. -/
structure RunRules (f : Position → Position) (Q : Part → Prop)
    (P : {α : Type} → Visit → Run α → Run α → Machine → Prop) : Prop where
  part {a b : Part} : Q a → a.Holds b → Q b
  of_pure {α : Type} {x : Visit} {m : Machine} (a : α) : P x (pure a) (pure a) m
  bind {α β : Type} {x : Visit} {run run' : Run α} {next next' : α → Run β} {m : Machine} :
    P x run run' m → (∀ a m₁, Gives run m a m₁ → P x (next a) (next' a) m₁) →
      P x (run >>= next) (run' >>= next') m
  enters {α : Type} {x y : Visit} {run run' : Run α} :
    Enters x y → P y run run' y.machine → P x run run' y.machine
  resolve {x : Visit} {id : String} {shown : Bool} {p : Position} {m : Machine} :
    Q (.tree (.name id shown p)) → P x (Run.resolve id p) (Run.resolve id (f p)) m
  give {t : Tree} {k : Nat} {m m₁ : Machine} {v : Value} : Q (.tree t) → t.ComesTo m v m₁ →
    P ⟨.tree t, k, m⟩ (Run.give v t.isShown) (Run.give v t.isShown) m₁
  fault {x : Visit} {op : ArithOp} {l r : Tree} {shown : Bool} {p : Position} {a b : Value}
    {fault : ArithOp.Fault} {m : Machine} : Q (.tree (.arith op l r shown p)) →
    op.apply a b = .error fault →
    P x (Run.fail (.arithmetic fault p) : Run (Option Value))
      (Run.fail (.arithmetic fault (f p))) m
  needed {x : Visit} {t : Tree} {a : Option Value} {m m₁ : Machine} : Q x.part →
    x.part.Holds (.tree t) → (∀ ts, x.part ≠ .block ts) → Gives t.run m a m₁ →
    P x (Run.needed t.pos a) (Run.needed (t.moved f).pos a) m₁
  define {id : String} {v : Tree} {p : Position} {k : Nat} {a : Value} {m m₁ : Machine} :
    Q (.tree (.assign id v p)) → Gives v.run m (some a) m₁ →
    P ⟨.tree (.assign id v p), k, m⟩ (Run.define id a) (Run.define id a) m₁
  count {x : Visit} {b : Tree} {body : List Tree} {p : Position} {v : Value} {m : Machine} :
    Q (.tree (.loop b body p)) →
    P x (Attempt.ofExcept (v.count p)) (Attempt.ofExcept (v.count (f p))) m

namespace RunRules

variable {f : Position → Position} {Q : Part → Prop}
  {P : {α : Type} → Visit → Run α → Run α → Machine → Prop}

section Steps

variable (rules : RunRules f Q P) {α β : Type} {x : Visit} {m : Machine}

include rules

/-- A run that goes on with the value of a tree in `x`. -/
theorem operand {t : Tree} {k : Nat} {next next' : Value → Run β} (hx : Q x.part)
    (hblock : ∀ ts, x.part ≠ .block ts) (henters : Enters x ⟨.tree t, k, m⟩)
    (ht : P ⟨.tree t, k, m⟩ t.run (t.moved f).run m)
    (hnext : ∀ v m₁, Gives t.run m (some v) m₁ → P x (next v) (next' v) m₁) :
    P x (t.run >>= fun a => Run.needed t.pos a >>= next)
      ((t.moved f).run >>= fun a => Run.needed (t.moved f).pos a >>= next') m := by
  refine rules.bind (rules.enters henters ht) fun a m₁ hrun => ?_
  refine rules.bind (rules.needed hx henters.holds hblock hrun) fun v m₂ hneeded => ?_
  obtain ⟨rfl, rfl⟩ := (Run.gives_needed ..).mp hneeded
  exact hnext v m₂ hrun

/-- The turns of a loop, each from where the turns before it end. -/
theorem times {act act' : Run Unit} {n : Nat}
    (hact : ∀ i m₁, i < n → Gives (Run.times i act) m () m₁ → P x act act' m₁) :
    P x (Run.times n act) (Run.times n act') m := by
  have hleft : ∀ j i m₁, i + j = n → Gives (Run.times i act) m () m₁ →
      P x (Run.times j act) (Run.times j act') m₁ := by
    intro j
    induction j with
    | zero => exact fun i m₁ _ _ => rules.of_pure ()
    | succ j ih =>
      intro i m₁ hij hearlier
      refine rules.bind (hact i m₁ (by omega) hearlier) fun _ m₂ hturn => ?_
      exact ih (i + 1) m₂ (by omega) (gives_times_snoc hearlier hturn)
  exact hleft n 0 m (by omega) ((gives_pure ..).mpr ⟨rfl, rfl⟩)

end Steps

mutual

/-- What the rules keep holds of the run of every tree. -/
theorem tree (rules : RunRules f Q P) : (t : Tree) → Q (.tree t) → (k : Nat) → (m : Machine) →
    P ⟨.tree t, k, m⟩ t.run (t.moved f).run m
  | .program body, h, k, m => by
    have hbody := block rules body (rules.part h (.program body)) k m
    exact rules.bind (rules.enters (.program body k m) hbody) fun _ _ _ => rules.of_pure none
  | .literal n shown p, h, k, m => rules.give h (.literal n shown p m)
  | .name id shown p, h, k, m =>
    rules.bind (rules.resolve h) fun v m₁ hvalue => rules.give h (.name shown p hvalue)
  | .arith op l r shown p, h, k, m => by
    refine rules.operand h nofun (.arithLeft op l r shown p k m)
      (tree rules l (rules.part h (.arithLeft op l r shown p)) _ _) fun a m₁ hleft => ?_
    refine rules.operand h nofun (.arithRight op r shown p k hleft)
      (tree rules r (rules.part h (.arithRight op l r shown p)) _ _) fun b m₂ hright => ?_
    cases happly : op.apply a b with
    | ok v => exact rules.give h (.arith shown p hleft hright happly)
    | error fault => exact rules.fault h happly
  | .compare op l r p, h, k, m => by
    refine rules.operand h nofun (.compareLeft op l r p k m)
      (tree rules l (rules.part h (.compareLeft op l r p)) _ _) fun a m₁ hleft => ?_
    refine rules.operand h nofun (.compareRight op r p k hleft)
      (tree rules r (rules.part h (.compareRight op l r p)) _ _) fun b m₂ hright => ?_
    exact rules.of_pure _
  | .assign id v p, h, k, m => by
    refine rules.operand h nofun (.assigned id v p k m)
      (tree rules v (rules.part h (.assigned id v p)) _ _) fun a m₁ hvalue => ?_
    exact rules.bind (rules.define h hvalue) fun _ _ _ => rules.of_pure none
  | .choose c y n p, h, k, m => by
    refine rules.operand h nofun (.choiceTest c y n p k m)
      (tree rules c (rules.part h (.choiceTest c y n p)) _ _) fun a m₁ htest => ?_
    by_cases hholds : a.holds = true
    · rw [if_pos hholds, if_pos hholds]
      have hyes := tree rules y (rules.part h (.choiceYes c y n p)) (k + c.bounds.length) m₁
      exact rules.enters (.choiceYes y n p k htest hholds) hyes
    · rw [if_neg hholds, if_neg hholds]
      have hno := tree rules n (rules.part h (.choiceNo c y n p))
        (k + c.bounds.length + y.bounds.length) m₁
      exact rules.enters (.choiceNo y n p k htest (eq_false_of_ne_true hholds)) hno
  | .branch chain, h, k, m => by
    have hchain := branch rules chain (rules.part h (.chain chain)) k m
    exact rules.bind (rules.enters (.chain chain k m) hchain) fun _ _ _ => rules.of_pure none
  | .loop b body p, h, k, m => by
    refine rules.operand h nofun (.bound b body p k m)
      (tree rules b (rules.part h (.bound b body p)) _ _) fun v m₁ hbound => ?_
    refine rules.bind (rules.count h) fun n m₂ hcount => ?_
    obtain ⟨hn, rfl⟩ := (Attempt.gives_ofExcept ..).mp hcount
    refine rules.bind (rules.times fun i m₃ hi hearlier => ?_) fun _ _ _ => rules.of_pure none
    have hbody := block rules body (rules.part h (.turn b body p)) (k + 1 + b.bounds.length) m₃
    exact rules.enters (.turn p k hbound hn hi hearlier) hbody

theorem block (rules : RunRules f Q P) : (ts : List Tree) → Q (.block ts) → (k : Nat) →
    (m : Machine) → P ⟨.block ts, k, m⟩ (Tree.runAll ts) (Tree.runAll (Tree.movedAll f ts)) m
  | [], _, _, _ => rules.of_pure ()
  | t :: ts, h, k, m => by
    have hhead := tree rules t (rules.part h (.head t ts)) k m
    refine rules.bind (rules.enters (.head t ts k m) hhead) fun _ m₁ hrun => ?_
    have htail := block rules ts (rules.part h (.tail t ts)) (k + t.bounds.length) m₁
    exact rules.enters (.tail ts k hrun) htail

theorem branch (rules : RunRules f Q P) : (b : Branch) → Q (.branch b) → (k : Nat) →
    (m : Machine) → P ⟨.branch b, k, m⟩ b.run (b.moved f).run m
  | .mk c body others last p, h, k, m => by
    refine rules.operand h nofun (.branchTest c body others last p k m)
      (tree rules c (rules.part h (.branchTest c body others last p)) _ _) fun a m₁ htest => ?_
    by_cases hholds : a.holds = true
    · rw [if_pos hholds, if_pos hholds]
      have hbody := block rules body (rules.part h (.branchBody c body others last p))
        (k + c.bounds.length) m₁
      exact rules.bind (rules.enters (.branchYes body others last p k htest hholds) hbody)
        fun _ _ _ => rules.of_pure true
    · rw [if_neg hholds, if_neg hholds]
      have hfails := eq_false_of_ne_true hholds
      have hothers := first rules others (rules.part h (.branchOthers c body others last p))
        (k + c.bounds.length + (Tree.boundsAll body).length) m₁
      refine rules.bind (rules.enters (.branchNo body others last p k htest hfails) hothers)
        fun held m₂ hfirst => ?_
      cases held with
      | true => exact rules.of_pure true
      | false =>
        have hlast := block rules last (rules.part h (.branchLast c body others last p))
          (k + c.bounds.length + (Tree.boundsAll body).length + (Branch.boundsAll others).length)
          m₂
        exact rules.bind (rules.enters (.branchLast body last p k htest hfails hfirst) hlast)
          fun _ _ _ => rules.of_pure false

theorem first (rules : RunRules f Q P) : (bs : List Branch) → Q (.first bs) → (k : Nat) →
    (m : Machine) → P ⟨.first bs, k, m⟩ (Branch.runFirst bs)
      (Branch.runFirst (Branch.movedAll f bs)) m
  | [], _, _, _ => rules.of_pure false
  | b :: bs, h, k, m => by
    have hhead := branch rules b (rules.part h (.firstHead b bs)) k m
    refine rules.bind (rules.enters (.firstHead b bs k m) hhead) fun held m₁ hrun => ?_
    cases held with
    | true => exact rules.of_pure true
    | false =>
      have htail := first rules bs (rules.part h (.firstTail b bs)) (k + b.bounds.length) m₁
      exact rules.enters (.firstTail bs k hrun) htail

end

end RunRules

end Scriptlet
