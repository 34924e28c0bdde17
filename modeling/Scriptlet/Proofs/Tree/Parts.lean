import Scriptlet.Tree.Basic

/-!
What can be read off a tree: the names it uses, the names it assigns to, its operators and the
bounds of its loops. Each of these belongs to one kind of node, and `Tree.gather` collects what
the nodes have. Beside it stands the bare tree that is left when places and marks are forgotten.
-/
namespace Scriptlet

section Gather

variable {α : Type} (own : Tree → List α)

mutual

/-- What the nodes of a tree have of their own, in the order in which the nodes start. -/
def Tree.gather : Tree → List α
  | t@(.program body) => own t ++ Tree.gatherAll body
  | t@(.literal _ _ _) => own t
  | t@(.name _ _ _) => own t
  | t@(.arith _ l r _ _) => own t ++ (l.gather ++ r.gather)
  | t@(.compare _ l r _) => own t ++ (l.gather ++ r.gather)
  | t@(.assign _ v _) => own t ++ v.gather
  | t@(.choose c y n _) => own t ++ (c.gather ++ y.gather ++ n.gather)
  | t@(.branch chain) => own t ++ chain.gather
  | t@(.loop b body _) => own t ++ (b.gather ++ Tree.gatherAll body)

def Tree.gatherAll : List Tree → List α
  | [] => []
  | t :: ts => t.gather ++ Tree.gatherAll ts

def Branch.gather : Branch → List α
  | .mk c body others last _ =>
    c.gather ++ Tree.gatherAll body ++ Branch.gatherAll others ++ Tree.gatherAll last

def Branch.gatherAll : List Branch → List α
  | [] => []
  | b :: bs => b.gather ++ Branch.gatherAll bs

end

end Gather

attribute [simp] Tree.gather Tree.gatherAll Branch.gather Branch.gatherAll

@[simp] def Tree.ownNames : Tree → List String
  | .name id _ _ => [id]
  | _ => []

@[simp] def Tree.ownTargets : Tree → List String
  | .assign id _ _ => [id]
  | _ => []

@[simp] def Tree.ownOperators : Tree → List ArithOp
  | .arith op _ _ _ _ => [op]
  | _ => []

@[simp] def Tree.ownBounds : Tree → List Tree
  | .loop b _ _ => [b]
  | _ => []

/-- The names whose values a tree uses. -/
abbrev Tree.names : Tree → List String := Tree.gather Tree.ownNames

abbrev Tree.namesAll : List Tree → List String := Tree.gatherAll Tree.ownNames

abbrev Branch.names : Branch → List String := Branch.gather Tree.ownNames

abbrev Branch.namesAll : List Branch → List String := Branch.gatherAll Tree.ownNames

/-- The names a tree assigns to. -/
abbrev Tree.targets : Tree → List String := Tree.gather Tree.ownTargets

abbrev Tree.targetsAll : List Tree → List String := Tree.gatherAll Tree.ownTargets

abbrev Branch.targets : Branch → List String := Branch.gather Tree.ownTargets

abbrev Branch.targetsAll : List Branch → List String := Branch.gatherAll Tree.ownTargets

abbrev Tree.operatorsAll : List Tree → List ArithOp := Tree.gatherAll Tree.ownOperators

abbrev Tree.bounds : Tree → List Tree := Tree.gather Tree.ownBounds

abbrev Tree.boundsAll : List Tree → List Tree := Tree.gatherAll Tree.ownBounds

abbrev Branch.bounds : Branch → List Tree := Branch.gather Tree.ownBounds

abbrev Branch.boundsAll : List Branch → List Tree := Branch.gatherAll Tree.ownBounds

mutual

/-- The tree with every place forgotten and no expression marked as shown. -/
def Tree.bare : Tree → Tree
  | .program body => .program (Tree.bareAll body)
  | .literal n _ _ => .literal n false .start
  | .name id _ _ => .name id false .start
  | .arith op l r _ _ => .arith op l.bare r.bare false .start
  | .compare op l r _ => .compare op l.bare r.bare .start
  | .assign id v _ => .assign id v.bare .start
  | .choose c y n _ => .choose c.bare y.bare n.bare .start
  | .branch c => .branch c.bare
  | .loop b body _ => .loop b.bare (Tree.bareAll body) .start

def Tree.bareAll : List Tree → List Tree
  | [] => []
  | t :: ts => t.bare :: Tree.bareAll ts

def Branch.bare : Branch → Branch
  | .mk c body others last _ =>
    .mk c.bare (Tree.bareAll body) (Branch.bareAll others) (Tree.bareAll last) .start

def Branch.bareAll : List Branch → List Branch
  | [] => []
  | b :: bs => b.bare :: Branch.bareAll bs

end

end Scriptlet
