import Scriptlet.Proofs.Tree.Induction

/-!
Induction over drafts, like that over runs. Drafts are put together from few things too:
looking up a name, evaluating a tree, assigning to a name, asking for a count and taking a
counter. A property that satisfies `DraftRules` holds of the draft of every part. It may
speak of the draft of the moved part as well, and of the loop counters in the code that is
drafted.
-/
namespace Scriptlet

namespace CSource

mutual

def Code.counters : Code → List String
  | .main body => Code.countersAll body
  | .number _ => []
  | .var _ => []
  | .arith _ l r => l.counters ++ r.counters
  | .compare _ l r => l.counters ++ r.counters
  | .choose c y n => c.counters ++ y.counters ++ n.counters
  | .printNumber _ => []
  | .print v => v.counters
  | .set _ _ v => v.counters
  | .branch chain => chain.counters
  | .loop counter _ body => counter :: Code.countersAll body

def Code.countersAll : List Code → List String
  | [] => []
  | c :: cs => c.counters ++ Code.countersAll cs

def Chain.counters : Chain → List String
  | .mk test body others last =>
    test.counters ++ Code.countersAll body ++ Chain.countersAll others ++ Code.countersAll last

def Chain.countersAll : List Chain → List String
  | [] => []
  | c :: cs => c.counters ++ Chain.countersAll cs

end

theorem Code.counters_shownAt (place : Place) (shown : Bool) (c : Code) :
    (Code.shownAt place shown c).counters = c.counters := by
  unfold Code.shownAt
  split
  · cases c <;> rfl
  · rfl

end CSource

/-- What a draft of the part evaluates itself. -/
def Part.Evaluates (a : Part) (u : Tree) : Prop :=
  (∃ id p, a = .tree (.assign id u p)) ∨ ∃ body p, a = .tree (.loop u body p)

theorem Part.Evaluates.holds {a : Part} {u : Tree} (h : a.Evaluates u) : a.Holds (.tree u) := by
  rcases h with ⟨id, p, rfl⟩ | ⟨body, p, rfl⟩
  · exact .assigned id u p
  · exact .bound u body p

theorem Part.Evaluates.ne_block {a : Part} {u : Tree} (h : a.Evaluates u) (ts : List Tree) :
    a ≠ .block ts := by
  rcases h with ⟨id, p, rfl⟩ | ⟨body, p, rfl⟩ <;> nofun

namespace CSource

/-- The rules for a property of drafts. `P before counters x x' d` says it of `x`, done from
`d`, and of `x'`, the draft of the same part with its places moved by `f`. The counters in
what `x` gives are then those that `counters` says, and with `before` begin those that were
taken earlier. The parts in question are those with `Q`. -/
structure DraftRules (f : Position → Position) (Q : Part → Prop)
    (P : {α : Type} → List String → (α → List String) → Drafting α → Drafting α → Draft → Prop) :
    Prop where
  part {a b : Part} : Q a → a.Holds b → Q b
  of_pure {α : Type} {before : List String} {counters : α → List String} {a : α} {d : Draft} :
    counters a = before → P before counters (pure a) (pure a) d
  bind {α β : Type} {before : List String} {counters : α → List String}
    {counters' : β → List String} {x x' : Drafting α} {next next' : α → Drafting β} {d : Draft} :
    P before counters x x' d →
    (∀ a d₁, Gives x d a d₁ → P (counters a) counters' (next a) (next' a) d₁) →
    P before counters' (x >>= next) (x' >>= next') d
  after {α : Type} {counters : α → List String} {x x' : Drafting α} {d : Draft}
    (before : List String) : P [] counters x x' d →
    P before (fun a => before ++ counters a) x x' d
  of_get {before : List String} {d : Draft} : P before (fun _ => before) get get d
  resolve {before : List String} {id : String} {shown : Bool} {p : Position} {d : Draft} :
    Q (.tree (.name id shown p)) →
    P before (fun _ => before) (Drafting.resolve id p) (Drafting.resolve id (f p)) d
  evaluate {before : List String} {a : Part} {u : Tree} {d : Draft} : Q a → a.Evaluates u →
    P before (fun _ => before) (Drafting.evaluate u) (Drafting.evaluate (u.moved f)) d
  define {before : List String} {id : String} {v : Tree} {p : Position} {a : Value} {c : Code}
    {d d₁ d₂ : Draft} : Q (.tree (.assign id v p)) → Gives (Drafting.evaluate v) d a d₁ →
    Gives (v.draft .value) d₁ c d₂ →
    P before (fun _ => before) (Drafting.define id a) (Drafting.define id a) d₂
  count {before : List String} {b : Tree} {body : List Tree} {p : Position} {v : Value}
    {d : Draft} : Q (.tree (.loop b body p)) →
    P before (fun _ => before) (Attempt.ofExcept (v.count p)) (Attempt.ofExcept (v.count (f p))) d
  takeCounter {before : List String} {d : Draft} :
    P before (fun counter => before ++ [counter]) Drafting.takeCounter Drafting.takeCounter d

namespace DraftRules

variable {f : Position → Position} {Q : Part → Prop}
  {P : {α : Type} → List String → (α → List String) → Drafting α → Drafting α → Draft → Prop}

mutual

/-- What the rules say holds of the draft of every tree; the same goes for blocks and branches. -/
theorem tree (rules : DraftRules f Q P) : (t : Tree) → Q (.tree t) → (place : Place) →
    (d : Draft) → P [] Code.counters (t.draft place) ((t.moved f).draft place) d
  | .program body, h, _, d =>
    rules.bind (block rules body (rules.part h (.program body)) d) fun _ _ _ => rules.of_pure rfl
  | .literal _ _ _, _, place, _ => rules.of_pure (Code.counters_shownAt place ..)
  | .name _ _ _, h, place, _ =>
    rules.bind (rules.resolve h) fun _ _ _ => rules.of_pure (Code.counters_shownAt place ..)
  | .arith op l r shown p, h, place, d => by
    have hl := rules.part h (.arithLeft op l r shown p)
    have hr := rules.part h (.arithRight op l r shown p)
    refine rules.bind (tree rules l hl .value d) fun left d₁ _ => ?_
    refine rules.bind (rules.after _ (tree rules r hr .value d₁)) fun right _ _ => ?_
    exact rules.of_pure (Code.counters_shownAt place ..)
  | .compare op l r p, h, _, d => by
    have hl := rules.part h (.compareLeft op l r p)
    have hr := rules.part h (.compareRight op l r p)
    refine rules.bind (tree rules l hl .value d) fun left d₁ _ => ?_
    exact rules.bind (rules.after _ (tree rules r hr .value d₁)) fun _ _ _ => rules.of_pure rfl
  | .assign id v p, h, _, d => by
    refine rules.bind rules.of_get fun d₀ d₁ hget => ?_
    refine rules.bind (rules.evaluate h (.inl ⟨id, p, rfl⟩)) fun a d₂ hvalue => ?_
    have hv := tree rules v (rules.part h (.assigned id v p)) .value d₂
    refine rules.bind hv fun code d₃ hcode => ?_
    exact rules.bind (rules.define h hvalue hcode) fun _ _ _ => rules.of_pure rfl
  | .choose c y n p, h, _, d => by
    have hc := rules.part h (.choiceTest c y n p)
    have hy := rules.part h (.choiceYes c y n p)
    have hn := rules.part h (.choiceNo c y n p)
    refine rules.bind (tree rules c hc .value d) fun test d₁ _ => ?_
    refine rules.bind (rules.after _ (tree rules y hy .value d₁)) fun yes d₂ _ => ?_
    exact rules.bind (rules.after _ (tree rules n hn .value d₂)) fun _ _ _ => rules.of_pure rfl
  | .branch chain, h, _, d =>
    rules.bind (branch rules chain (rules.part h (.chain chain)) d) fun _ _ _ => rules.of_pure rfl
  | .loop b body p, h, _, d => by
    refine rules.bind (rules.evaluate h (.inr ⟨body, p, rfl⟩)) fun v _ _ => ?_
    refine rules.bind (rules.count h) fun turns _ _ => ?_
    refine rules.bind rules.takeCounter fun counter d₁ _ => ?_
    have hbody := block rules body (rules.part h (.turn b body p)) d₁
    exact rules.bind (rules.after _ hbody) fun _ _ _ => rules.of_pure rfl

theorem block (rules : DraftRules f Q P) : (ts : List Tree) → Q (.block ts) → (d : Draft) →
    P [] Code.countersAll (Tree.draftAll ts) (Tree.draftAll (Tree.movedAll f ts)) d
  | [], _, _ => rules.of_pure rfl
  | t :: ts, h, d => by
    have ht := tree rules t (rules.part h (.head t ts)) .statement d
    refine rules.bind ht fun code d₁ _ => ?_
    have hts := block rules ts (rules.part h (.tail t ts)) d₁
    exact rules.bind (rules.after _ hts) fun _ _ _ => rules.of_pure rfl

theorem branch (rules : DraftRules f Q P) : (b : Branch) → Q (.branch b) → (d : Draft) →
    P [] Chain.counters b.draft (b.moved f).draft d
  | .mk c body others last p, h, d => by
    have hc := rules.part h (.branchTest c body others last p)
    have hbody := rules.part h (.branchBody c body others last p)
    have hothers := rules.part h (.branchOthers c body others last p)
    have hlast := rules.part h (.branchLast c body others last p)
    refine rules.bind (tree rules c hc .value d) fun test d₁ _ => ?_
    refine rules.bind (rules.after _ (block rules body hbody d₁)) fun codes d₂ _ => ?_
    refine rules.bind (rules.after _ (first rules others hothers d₂)) fun chains d₃ _ => ?_
    exact rules.bind (rules.after _ (block rules last hlast d₃)) fun _ _ _ => rules.of_pure rfl

theorem first (rules : DraftRules f Q P) : (bs : List Branch) → Q (.first bs) → (d : Draft) →
    P [] Chain.countersAll (Branch.draftAll bs) (Branch.draftAll (Branch.movedAll f bs)) d
  | [], _, _ => rules.of_pure rfl
  | b :: bs, h, d => by
    have hb := branch rules b (rules.part h (.firstHead b bs)) d
    refine rules.bind hb fun chain d₁ _ => ?_
    have hbs := first rules bs (rules.part h (.firstTail b bs)) d₁
    exact rules.bind (rules.after _ hbs) fun _ _ _ => rules.of_pure rfl

end

end DraftRules

end CSource

end Scriptlet
