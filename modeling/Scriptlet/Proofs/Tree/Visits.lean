import Mathlib.Logic.Relation
import Scriptlet.Proofs.Tree.Evaluation

/-!
What a run comes across. Running a part of a script runs other parts of it: `Enters` says
which ones, each in the state in which it is started, and `Reaches` follows that from one
part to the next. A part also has an index, the number of loops that start before it in
the text, which tells apart loops that look the same.
-/
namespace Scriptlet

/-- What can be run: a tree, the statements of a block, a branch with those after it, or the
branches that are tried until one holds. -/
inductive Part
  | tree (t : Tree)
  | block (ts : List Tree)
  | branch (b : Branch)
  | first (bs : List Branch)

namespace Part

def gather {α : Type} (own : Tree → List α) : Part → List α
  | tree t => t.gather own
  | block ts => Tree.gatherAll own ts
  | branch b => b.gather own
  | first bs => Branch.gatherAll own bs

abbrev targets : Part → List String := gather Tree.ownTargets

abbrev operators : Part → List ArithOp := gather Tree.ownOperators

abbrev bounds : Part → List Tree := gather Tree.ownBounds

inductive Holds : Part → Part → Prop
  | program (body : List Tree) : Holds (.tree (.program body)) (.block body)
  | arithLeft (op : ArithOp) (l r : Tree) (shown : Bool) (p : Position) :
      Holds (.tree (.arith op l r shown p)) (.tree l)
  | arithRight (op : ArithOp) (l r : Tree) (shown : Bool) (p : Position) :
      Holds (.tree (.arith op l r shown p)) (.tree r)
  | compareLeft (op : CompareOp) (l r : Tree) (p : Position) :
      Holds (.tree (.compare op l r p)) (.tree l)
  | compareRight (op : CompareOp) (l r : Tree) (p : Position) :
      Holds (.tree (.compare op l r p)) (.tree r)
  | assigned (id : String) (v : Tree) (p : Position) : Holds (.tree (.assign id v p)) (.tree v)
  | choiceTest (c y n : Tree) (p : Position) : Holds (.tree (.choose c y n p)) (.tree c)
  | choiceYes (c y n : Tree) (p : Position) : Holds (.tree (.choose c y n p)) (.tree y)
  | choiceNo (c y n : Tree) (p : Position) : Holds (.tree (.choose c y n p)) (.tree n)
  | chain (b : Branch) : Holds (.tree (.branch b)) (.branch b)
  | branchTest (c : Tree) (body : List Tree) (others : List Branch) (last : List Tree)
      (p : Position) : Holds (.branch ⟨c, body, others, last, p⟩) (.tree c)
  | branchBody (c : Tree) (body : List Tree) (others : List Branch) (last : List Tree)
      (p : Position) : Holds (.branch ⟨c, body, others, last, p⟩) (.block body)
  | branchOthers (c : Tree) (body : List Tree) (others : List Branch) (last : List Tree)
      (p : Position) : Holds (.branch ⟨c, body, others, last, p⟩) (.first others)
  | branchLast (c : Tree) (body : List Tree) (others : List Branch) (last : List Tree)
      (p : Position) : Holds (.branch ⟨c, body, others, last, p⟩) (.block last)
  | firstHead (b : Branch) (bs : List Branch) : Holds (.first (b :: bs)) (.branch b)
  | firstTail (b : Branch) (bs : List Branch) : Holds (.first (b :: bs)) (.first bs)
  | bound (b : Tree) (body : List Tree) (p : Position) : Holds (.tree (.loop b body p)) (.tree b)
  | turn (b : Tree) (body : List Tree) (p : Position) : Holds (.tree (.loop b body p)) (.block body)
  | head (t : Tree) (ts : List Tree) : Holds (.block (t :: ts)) (.tree t)
  | tail (t : Tree) (ts : List Tree) : Holds (.block (t :: ts)) (.block ts)

/-- What the nodes inside a part have, the nodes of the part have. -/
theorem Holds.gather_subset {α : Type} {own : Tree → List α} {a b : Part} (h : a.Holds b) :
    b.gather own ⊆ a.gather own := by
  intro x hx
  cases h <;> simp_all [gather]

end Part

/-- A part at its place in the text, about to be run on a machine. -/
structure Visit where
  part : Part
  index : Nat
  machine : Machine

inductive Enters : Visit → Visit → Prop
  | program (body : List Tree) (k : Nat) (m : Machine) :
      Enters ⟨.tree (.program body), k, m⟩ ⟨.block body, k, m⟩
  | arithLeft (op : ArithOp) (l r : Tree) (shown : Bool) (p : Position) (k : Nat) (m : Machine) :
      Enters ⟨.tree (.arith op l r shown p), k, m⟩ ⟨.tree l, k, m⟩
  | arithRight {l : Tree} {x : Value} {m m' : Machine} (op : ArithOp) (r : Tree) (shown : Bool)
      (p : Position) (k : Nat) (left : Gives l.run m (some x) m') :
      Enters ⟨.tree (.arith op l r shown p), k, m⟩ ⟨.tree r, k + l.bounds.length, m'⟩
  | compareLeft (op : CompareOp) (l r : Tree) (p : Position) (k : Nat) (m : Machine) :
      Enters ⟨.tree (.compare op l r p), k, m⟩ ⟨.tree l, k, m⟩
  | compareRight {l : Tree} {x : Value} {m m' : Machine} (op : CompareOp) (r : Tree)
      (p : Position) (k : Nat) (left : Gives l.run m (some x) m') :
      Enters ⟨.tree (.compare op l r p), k, m⟩ ⟨.tree r, k + l.bounds.length, m'⟩
  | assigned (id : String) (v : Tree) (p : Position) (k : Nat) (m : Machine) :
      Enters ⟨.tree (.assign id v p), k, m⟩ ⟨.tree v, k, m⟩
  | choiceTest (c y n : Tree) (p : Position) (k : Nat) (m : Machine) :
      Enters ⟨.tree (.choose c y n p), k, m⟩ ⟨.tree c, k, m⟩
  | choiceYes {c : Tree} {x : Value} {m m' : Machine} (y n : Tree) (p : Position) (k : Nat)
      (test : Gives c.run m (some x) m') (holds : x.holds = true) :
      Enters ⟨.tree (.choose c y n p), k, m⟩ ⟨.tree y, k + c.bounds.length, m'⟩
  | choiceNo {c : Tree} {x : Value} {m m' : Machine} (y n : Tree) (p : Position) (k : Nat)
      (test : Gives c.run m (some x) m') (fails : x.holds = false) :
      Enters ⟨.tree (.choose c y n p), k, m⟩
        ⟨.tree n, k + c.bounds.length + y.bounds.length, m'⟩
  | chain (b : Branch) (k : Nat) (m : Machine) : Enters ⟨.tree (.branch b), k, m⟩ ⟨.branch b, k, m⟩
  | branchTest (c : Tree) (body : List Tree) (others : List Branch) (last : List Tree)
      (p : Position) (k : Nat) (m : Machine) :
      Enters ⟨.branch ⟨c, body, others, last, p⟩, k, m⟩ ⟨.tree c, k, m⟩
  | branchYes {c : Tree} {x : Value} {m m' : Machine} (body : List Tree) (others : List Branch)
      (last : List Tree) (p : Position) (k : Nat) (test : Gives c.run m (some x) m')
      (holds : x.holds = true) :
      Enters ⟨.branch ⟨c, body, others, last, p⟩, k, m⟩ ⟨.block body, k + c.bounds.length, m'⟩
  | branchNo {c : Tree} {x : Value} {m m' : Machine} (body : List Tree) (others : List Branch)
      (last : List Tree) (p : Position) (k : Nat) (test : Gives c.run m (some x) m')
      (fails : x.holds = false) :
      Enters ⟨.branch ⟨c, body, others, last, p⟩, k, m⟩
        ⟨.first others, k + c.bounds.length + (Tree.boundsAll body).length, m'⟩
  | branchLast {c : Tree} {x : Value} {m m' m'' : Machine} (body : List Tree)
      {others : List Branch} (last : List Tree) (p : Position) (k : Nat)
      (test : Gives c.run m (some x) m') (fails : x.holds = false)
      (none : Gives (Branch.runFirst others) m' false m'') :
      Enters ⟨.branch ⟨c, body, others, last, p⟩, k, m⟩
        ⟨.block last, k + c.bounds.length + (Tree.boundsAll body).length +
          (Branch.boundsAll others).length, m''⟩
  | firstHead (b : Branch) (bs : List Branch) (k : Nat) (m : Machine) :
      Enters ⟨.first (b :: bs), k, m⟩ ⟨.branch b, k, m⟩
  | firstTail {b : Branch} {m m' : Machine} (bs : List Branch) (k : Nat)
      (fails : Gives b.run m false m') :
      Enters ⟨.first (b :: bs), k, m⟩ ⟨.first bs, k + b.bounds.length, m'⟩
  | bound (b : Tree) (body : List Tree) (p : Position) (k : Nat) (m : Machine) :
      Enters ⟨.tree (.loop b body p), k, m⟩ ⟨.tree b, k + 1, m⟩
  | turn {b : Tree} {v : Value} {n i : Nat} {body : List Tree} {m m' m'' : Machine} (p : Position)
      (k : Nat) (bound : Gives b.run m (some v) m') (count : v.count p = .ok n) (left : i < n)
      (earlier : Gives (Run.times i (Tree.runAll body)) m' () m'') :
      Enters ⟨.tree (.loop b body p), k, m⟩ ⟨.block body, k + 1 + b.bounds.length, m''⟩
  | head (t : Tree) (ts : List Tree) (k : Nat) (m : Machine) :
      Enters ⟨.block (t :: ts), k, m⟩ ⟨.tree t, k, m⟩
  | tail {t : Tree} {a : Option Value} {m m' : Machine} (ts : List Tree) (k : Nat)
      (run : Gives t.run m a m') :
      Enters ⟨.block (t :: ts), k, m⟩ ⟨.block ts, k + t.bounds.length, m'⟩

theorem Enters.holds {x y : Visit} (h : Enters x y) : x.part.Holds y.part := by
  cases h <;> constructor

/-- Running the one part comes to run the other. -/
def Reaches : Visit → Visit → Prop :=
  Relation.ReflTransGen Enters

/-- Every integer that is computed on the way lies between `-limit` and `limit`. -/
def Visit.StaysWithin (limit : Int) (x : Visit) : Prop :=
  ∀ u k m n m', Reaches x ⟨.tree u, k, m⟩ → Gives u.run m (some (.integer n)) m' →
    -limit ≤ n.toInt ∧ n.toInt ≤ limit

/-- What stays within a limit does so in every part. -/
theorem Visit.StaysWithin.enters {limit : Int} {x y : Visit} (h : x.StaysWithin limit)
    (hxy : Enters x y) : y.StaysWithin limit :=
  fun u k m n m' hreach => h u k m n m' (.head hxy hreach)

/-- The integer that a tree itself gives. -/
theorem Visit.StaysWithin.value {limit : Int} {t : Tree} {k : Nat} {m m' : Machine} {n : Int64}
    (h : Visit.StaysWithin limit ⟨.tree t, k, m⟩) (hrun : Gives t.run m (some (.integer n)) m') :
    -limit ≤ n.toInt ∧ n.toInt ≤ limit :=
  h t k m n m' .refl hrun

/-- A part stays within the limit if its own value does and every part it enters. -/
theorem Visit.StaysWithin.of_enters {limit : Int} {x : Visit}
    (own : ∀ u n m', x.part = .tree u → Gives u.run x.machine (some (.integer n)) m' →
      -limit ≤ n.toInt ∧ n.toInt ≤ limit)
    (next : ∀ y, Enters x y → y.StaysWithin limit) : x.StaysWithin limit := by
  intro u k m n m' hreach hrun
  rcases hreach.cases_head with rfl | ⟨y, hy, hlater⟩
  · exact own u n m' rfl hrun
  · exact next y hy u k m n m' hlater hrun

namespace Visit

variable {limit : Int} {k : Nat} {m : Machine}

theorem staysWithin_literal {n : Int64} (h : -limit ≤ n.toInt ∧ n.toInt ≤ limit)
    (shown : Bool) (p : Position) (k : Nat) (m : Machine) :
    StaysWithin limit ⟨.tree (.literal n shown p), k, m⟩ := by
  refine .of_enters (fun u i m' hu hrun => ?_) (fun y hy => nomatch hy)
  cases hu
  obtain ⟨heq, _⟩ := (Run.gives_give ..).mp hrun
  cases heq
  exact h

theorem staysWithin_name {n : Int64} (h : -limit ≤ n.toInt ∧ n.toInt ≤ limit) {id : String}
    (hn : m.bindings.get? id = some (.integer n)) (shown : Bool) (p : Position) (k : Nat) :
    StaysWithin limit ⟨.tree (.name id shown p), k, m⟩ := by
  refine .of_enters (fun u i m' hu hrun => ?_) (fun y hy => nomatch hy)
  cases hu
  simp only [Tree.run, gives_bind, Attempt.gives_resolve, Run.gives_give, hn] at hrun
  obtain ⟨_, _, ⟨heq, rfl⟩, heq', _⟩ := hrun
  cases heq
  cases heq'
  exact h

theorem staysWithin_assign {v : Tree} (h : StaysWithin limit ⟨.tree v, k, m⟩) (hv : v.IsSilent)
    (id : String) (p : Position) : StaysWithin limit ⟨.tree (.assign id v p), k, m⟩ := by
  refine .of_enters (fun u i m' hu hrun => ?_) fun y hy => ?_
  · cases hu
    obtain ⟨_, _, hnone, _⟩ := (gives_run_assign hv ..).mp hrun
    cases hnone
  · cases hy
    exact h

theorem staysWithin_nil (limit : Int) (k : Nat) (m : Machine) :
    StaysWithin limit ⟨.block [], k, m⟩ :=
  .of_enters (fun _ _ _ hu _ => nomatch hu) (fun _ hy => nomatch hy)

/-- Statements stay within a limit if each does from where it begins. -/
theorem staysWithin_cons {t : Tree} {ts : List Tree} (head : StaysWithin limit ⟨.tree t, k, m⟩)
    (tail : ∀ a m', Gives t.run m a m' → StaysWithin limit ⟨.block ts, k + t.bounds.length, m'⟩) :
    StaysWithin limit ⟨.block (t :: ts), k, m⟩ := by
  refine .of_enters (fun _ _ _ hu _ => nomatch hu) fun y hy => ?_
  cases hy with
  | head => exact head
  | tail ts k hrun => exact tail _ _ hrun

/-- A loop stays within a limit if its bound does, and its body on every turn. -/
theorem staysWithin_loop {b : Tree} {body : List Tree} (hb : b.IsSilent)
    (bound : StaysWithin limit ⟨.tree b, k + 1, m⟩) (p : Position)
    (turns : ∀ i m', Gives (Run.times i (Tree.runAll body)) m () m' →
      StaysWithin limit ⟨.block body, k + 1 + b.bounds.length, m'⟩) :
    StaysWithin limit ⟨.tree (.loop b body p), k, m⟩ := by
  refine .of_enters (fun u i m' hu hrun => ?_) fun y hy => ?_
  · cases hu
    obtain ⟨_, _, _, _, hnone, _⟩ := (gives_run_loop hb ..).mp hrun
    cases hnone
  · cases hy with
    | bound => exact bound
    | turn p k hbound _ _ hearlier =>
      obtain ⟨_, _, _, rfl⟩ := (hb.runsSilently ..).mp hbound
      exact turns _ _ hearlier

/-- An operation stays within a limit if its result and its operands do. -/
theorem staysWithin_arith {op : ArithOp} {l r : Tree} (hl : l.IsSilent) {shown : Bool}
    {p : Position}
    (own : ∀ n m', Gives (Tree.arith op l r shown p).run m (some (.integer n)) m' →
      -limit ≤ n.toInt ∧ n.toInt ≤ limit)
    (left : StaysWithin limit ⟨.tree l, k, m⟩)
    (right : StaysWithin limit ⟨.tree r, k + l.bounds.length, m⟩) :
    StaysWithin limit ⟨.tree (.arith op l r shown p), k, m⟩ := by
  refine .of_enters (fun u i m' hu hrun => ?_) fun y hy => ?_
  · cases hu
    exact own i m' hrun
  · cases hy with
    | arithLeft => exact left
    | arithRight op r shown p k hleft =>
      obtain ⟨_, _, _, rfl⟩ := (hl.runsSilently ..).mp hleft
      exact right

theorem staysWithin_program {body : List Tree} (h : StaysWithin limit ⟨.block body, k, m⟩) :
    StaysWithin limit ⟨.tree (.program body), k, m⟩ := by
  refine .of_enters (fun u i m' hu hrun => ?_) fun y hy => ?_
  · cases hu
    simp [Tree.run] at hrun
  · cases hy
    exact h

end Visit

end Scriptlet
