import Scriptlet.Proofs.Tree.Frame
import Scriptlet.Proofs.Tree.Visits

/-!
Reading a script once from top to bottom. A sweep makes each assignment of a script one time,
in the order of the text, whether or not a run comes to it and however often. A run can
differ from the sweep only on names that drift: those assigned in a block that the run may
skip or repeat, and those assigned a value that depends on such names, until they are
assigned anew. So where a run comes to a loop, the names that do not drift there have
the values of the sweep.
-/
namespace Scriptlet

mutual

/-- The bindings once each assignment in the tree has been made. -/
def Tree.sweep : Tree → Bindings → Bindings
  | .program body, b => Tree.sweepAll body b
  | .assign id v _, b =>
    match v.value? b with
    | some x => b.define id x
    | none => b
  | .branch c, b => c.sweep b
  | .loop _ body _, b => Tree.sweepAll body b
  | _, b => b

def Tree.sweepAll : List Tree → Bindings → Bindings
  | [], b => b
  | t :: ts, b => Tree.sweepAll ts (t.sweep b)

def Branch.sweep : Branch → Bindings → Bindings
  | .mk _ body others last _, b =>
    Tree.sweepAll last (Branch.sweepAll others (Tree.sweepAll body b))

def Branch.sweepAll : List Branch → Bindings → Bindings
  | [], b => b
  | c :: cs, b => Branch.sweepAll cs (c.sweep b)

end

/-- The names that drift after a statement, where those of `S` drift before it. -/
def Tree.drift (S : List String) : Tree → List String
  | .assign id v _ => if v.names.any S.contains then id :: S else S.filter (· != id)
  | t => S ++ t.targets

/-- A loop at its place in a script: its bound, the bindings to which a sweep comes there, and
the names that drift there. -/
structure LoopSite where
  bound : Tree
  swept : Bindings
  drifting : List String

mutual

/-- The loops of a tree in the order in which they start. In the block of a loop all
names drift that it assigns to, and a later branch starts without the earlier ones. -/
def Tree.sites : Tree → Bindings → List String → List LoopSite
  | .program body, b, S => Tree.sitesAll body b S
  | .branch c, b, S => c.sites b S
  | .loop bound body _, b, S =>
    ⟨bound, b, S⟩ :: Tree.sitesAll body b (S ++ Tree.targetsAll body)
  | _, _, _ => []

def Tree.sitesAll : List Tree → Bindings → List String → List LoopSite
  | [], _, _ => []
  | t :: ts, b, S => t.sites b S ++ Tree.sitesAll ts (t.sweep b) (t.drift S)

def Branch.sites : Branch → Bindings → List String → List LoopSite
  | .mk _ body others last _, b, S =>
    Tree.sitesAll body b S ++
      (Branch.sitesAll others (Tree.sweepAll body b) (S ++ Tree.targetsAll body) ++
        Tree.sitesAll last (Branch.sweepAll others (Tree.sweepAll body b))
          (S ++ Tree.targetsAll body ++ Branch.targetsAll others))

def Branch.sitesAll : List Branch → Bindings → List String → List LoopSite
  | [], _, _ => []
  | c :: cs, b, S => c.sites b S ++ Branch.sitesAll cs (c.sweep b) (S ++ c.targets)

end

def Tree.turns? (bound : Tree) (b : Bindings) : Option Nat :=
  (bound.value? b).bind Value.count?

def LoopSite.turns? (s : LoopSite) : Option Nat :=
  s.bound.turns? s.swept

theorem Value.count_eq_ok (v : Value) (p : Position) (n : Nat) :
    v.count p = .ok n ↔ v.count? = some n := by
  unfold Value.count
  split <;> simp_all

def AgreesOutside (S : List String) (b b' : Bindings) : Prop :=
  ∀ id, id ∉ S → b.get? id = b'.get? id

/-- Bindings that agree on the names of an expression give it one value. -/
theorem AgreesOutside.value? {S : List String} {b b' : Bindings} (h : AgreesOutside S b b')
    {t : Tree} (ht : ∀ id ∈ t.names, id ∉ S) : t.value? b = t.value? b' :=
  Tree.value?_congr t fun id hid => h id (ht id hid)

mutual

/-- A sweep changes only what is assigned to. -/
theorem Tree.get?_sweep {id : String} : (t : Tree) → id ∉ t.targets → (b : Bindings) →
    (t.sweep b).get? id = b.get? id
  | .program body, h, b => Tree.get?_sweepAll body h b
  | .literal _ _ _, _, _ => rfl
  | .name _ _ _, _, _ => rfl
  | .arith _ _ _ _ _, _, _ => rfl
  | .compare _ _ _ _, _, _ => rfl
  | .assign x v _, h, b => by
    have hne : x ≠ id := by
      rintro rfl
      simp at h
    rw [Tree.sweep]
    split <;> simp [hne]
  | .choose _ _ _ _, _, _ => rfl
  | .branch c, h, b => Branch.get?_sweep c h b
  | .loop _ body _, h, b => by
    simp only [Tree.gather, Tree.ownTargets, List.nil_append, List.mem_append, not_or] at h
    exact Tree.get?_sweepAll body h.2 b

theorem Tree.get?_sweepAll {id : String} : (ts : List Tree) → id ∉ Tree.targetsAll ts →
    (b : Bindings) → (Tree.sweepAll ts b).get? id = b.get? id
  | [], _, _ => rfl
  | t :: ts, h, b => by
    simp only [Tree.gatherAll, List.mem_append, not_or] at h
    rw [Tree.sweepAll, Tree.get?_sweepAll ts h.2, Tree.get?_sweep t h.1]

theorem Branch.get?_sweep {id : String} : (c : Branch) → id ∉ c.targets → (b : Bindings) →
    (c.sweep b).get? id = b.get? id
  | .mk _ body others last _, h, b => by
    simp only [Branch.gather, List.mem_append, not_or] at h
    rw [Branch.sweep, Tree.get?_sweepAll last h.2, Branch.get?_sweepAll others h.1.2,
      Tree.get?_sweepAll body h.1.1.2]

theorem Branch.get?_sweepAll {id : String} : (cs : List Branch) → id ∉ Branch.targetsAll cs →
    (b : Bindings) → (Branch.sweepAll cs b).get? id = b.get? id
  | [], _, _ => rfl
  | c :: cs, h, b => by
    simp only [Branch.gatherAll, List.mem_append, not_or] at h
    rw [Branch.sweepAll, Branch.get?_sweepAll cs h.2, Branch.get?_sweep c h.1]

end

theorem Tree.IsShownSum.sweep_eq {t : Tree} (h : t.IsShownSum) (b : Bindings) :
    t.sweep b = b := by
  cases t with
  | literal _ _ _ => rfl
  | name _ _ _ => rfl
  | arith _ _ _ _ _ => rfl
  | _ => exact h.elim

theorem Tree.IsShownSum.sites_eq_nil {t : Tree} (h : t.IsShownSum) (b : Bindings)
    (S : List String) : t.sites b S = [] := by
  cases t with
  | literal _ _ _ => rfl
  | name _ _ _ => rfl
  | arith _ _ _ _ _ => rfl
  | _ => exact h.elim

/-- After a statement a run agrees with the sweep outside the names that drift then. -/
theorem AgreesOutside.after {S : List String} {t : Tree} {m m' : Machine} {b : Bindings}
    {a : Option Value} (h : AgreesOutside S m.bindings b) (ht : t.IsStatement)
    (hrun : Gives t.run m a m') : AgreesOutside (t.drift S) m'.bindings (t.sweep b) := by
  have hother (hdrift : t.drift S = S ++ t.targets) :
      AgreesOutside (t.drift S) m'.bindings (t.sweep b) := by
    intro id hid
    simp only [hdrift, List.mem_append, not_or] at hid
    rw [Tree.get?_run hid.2 hrun, Tree.get?_sweep t hid.2, h id hid.1]
  cases t with
  | assign x v p =>
    by_cases hdrifts : v.names.any S.contains = true
    · intro id hid
      simp only [Tree.drift, hdrifts, if_true, List.mem_cons, not_or] at hid
      have htargets : id ∉ (Tree.assign x v p).targets := by
        simp [(Tree.IsValue.isExpression ht).targets_eq_nil, hid.1]
      rw [Tree.get?_run htargets hrun, Tree.get?_sweep _ htargets, h id hid.2]
    · obtain ⟨y, hy, _, rfl⟩ := (gives_run_assign (Tree.IsValue.isSilent ht) x p m m' a).mp hrun
      have hnames : ∀ id ∈ v.names, id ∉ S := by simpa using hdrifts
      intro id hid
      simp only [Tree.drift, hdrifts, Bool.false_eq_true, if_false, List.mem_filter,
        bne_iff_ne] at hid
      rw [h.value? hnames] at hy
      by_cases heq : x = id
      · simp [Tree.sweep, hy, heq]
      · have hS : id ∉ S := fun hmem => hid ⟨hmem, Ne.symm heq⟩
        simp [Tree.sweep, hy, heq, h id hS]
  | _ => exact hother rfl

mutual

/-- The sites are the loops of the tree, each once and in their order. -/
theorem Tree.map_bound_sites : {t : Tree} → t.IsStatement → (b : Bindings) → (S : List String) →
    (t.sites b S).map LoopSite.bound = t.bounds
  | .program _, h, _, _ => False.elim h
  | .literal _ _ _, _, _, _ => rfl
  | .name _ _ _, _, _, _ => rfl
  | .arith op l r shown p, h, _, _ => by
    have hshown : (Tree.arith op l r shown p).IsShownSum := h
    simp [Tree.sites, hshown.isExpression.bounds_eq_nil]
  | .compare _ _ _ _, h, _, _ => False.elim h
  | .assign _ v _, h, _, _ => by
    simp [Tree.sites, (Tree.IsValue.isExpression h).bounds_eq_nil]
  | .choose _ _ _ _, h, _, _ => False.elim h
  | .branch _, h, b, S => Branch.map_bound_sites h b S
  | .loop _ _ _, h, b, S => by
    simp [Tree.sites, h.1.isExpression.bounds_eq_nil, Tree.map_bound_sitesAll h.2]

theorem Tree.map_bound_sitesAll : {ts : List Tree} → Tree.AllStatements ts → (b : Bindings) →
    (S : List String) → (Tree.sitesAll ts b S).map LoopSite.bound = Tree.boundsAll ts
  | [], _, _, _ => rfl
  | _ :: _, h, b, S => by
    simp [Tree.sitesAll, Tree.map_bound_sites h.1, Tree.map_bound_sitesAll h.2]

theorem Branch.map_bound_sites : {c : Branch} → c.IsChain → (b : Bindings) →
    (S : List String) → (c.sites b S).map LoopSite.bound = c.bounds
  | .mk _ _ _ _ _, h, b, S => by
    simp [Branch.sites, h.1.isExpression.bounds_eq_nil, Tree.map_bound_sitesAll h.2.1,
      Branch.map_bound_sitesAll h.2.2.1, Tree.map_bound_sitesAll h.2.2.2]

theorem Branch.map_bound_sitesAll : {cs : List Branch} → Branch.AllElifs cs → (b : Bindings) →
    (S : List String) → (Branch.sitesAll cs b S).map LoopSite.bound = Branch.boundsAll cs
  | [], _, _, _ => rfl
  | .mk _ _ _ _ _ :: _, h, b, S => by
    obtain ⟨⟨ht, hbody, rfl, rfl⟩, hcs⟩ := h
    simp [Branch.sitesAll, Branch.sites, Tree.sitesAll, ht.isExpression.bounds_eq_nil,
      Tree.map_bound_sitesAll hbody, Branch.map_bound_sitesAll hcs]

end

/-- A statement has a site for each of its loops. -/
theorem Tree.length_sites {t : Tree} (h : t.IsStatement) (b : Bindings) (S : List String) :
    (t.sites b S).length = t.bounds.length := by
  rw [← Tree.map_bound_sites h b S, List.length_map]

theorem Tree.length_sitesAll {ts : List Tree} (h : Tree.AllStatements ts) (b : Bindings)
    (S : List String) : (Tree.sitesAll ts b S).length = (Tree.boundsAll ts).length := by
  rw [← Tree.map_bound_sitesAll h b S, List.length_map]

theorem Branch.length_sites {c : Branch} (h : c.IsChain) (b : Bindings) (S : List String) :
    (c.sites b S).length = c.bounds.length := by
  rw [← Branch.map_bound_sites h b S, List.length_map]

theorem Branch.length_sitesAll {cs : List Branch} (h : Branch.AllElifs cs) (b : Bindings)
    (S : List String) : (Branch.sitesAll cs b S).length = (Branch.boundsAll cs).length := by
  rw [← Branch.map_bound_sitesAll h b S, List.length_map]

namespace Part

/-- What a run of a script can come to, other than an expression inside a statement. -/
def IsRunnable : Part → Prop
  | tree t => t.IsStatement ∨ t.IsScript
  | block ts => Tree.AllStatements ts
  | branch c => c.IsChain
  | first cs => Branch.AllElifs cs

def Succeeds : Part → Machine → Prop
  | tree t, m => ∃ a m', Gives t.run m a m'
  | block ts, m => ∃ m', Gives (Tree.runAll ts) m () m'
  | branch c, m => ∃ held m', Gives c.run m held m'
  | first cs, m => ∃ held m', Gives (Branch.runFirst cs) m held m'

def sites : Part → Bindings → List String → List LoopSite
  | tree t => t.sites
  | block ts => Tree.sitesAll ts
  | branch c => c.sites
  | first cs => Branch.sitesAll cs

end Part

/-- A visit during a run that succeeds: the loops of the part are those of the whole script
from its index on, and its machine agrees with the sweep outside the names that drift. -/
structure Visit.Tracks (sites : List LoopSite) (x : Visit) : Prop where
  runnable : x.part.IsRunnable
  succeeds : x.part.Succeeds x.machine
  placed : ∃ b S before after, sites = before ++ (x.part.sites b S ++ after) ∧
    before.length = x.index ∧ AgreesOutside S x.machine.bindings b

def Visit.IsExpression (x : Visit) : Prop :=
  ∃ t, x.part = .tree t ∧ t.IsExpression

/-- Expressions come only to expressions. -/
theorem Visit.IsExpression.enters {x y : Visit} (h : x.IsExpression) (hxy : Enters x y) :
    y.IsExpression := by
  obtain ⟨t, ht, hexpression⟩ := h
  cases hxy <;> cases ht
  case arithLeft l r _ _ _ _ => exact ⟨l, rfl, hexpression.1⟩
  case arithRight r _ _ _ _ => exact ⟨r, rfl, hexpression.2⟩
  case compareLeft l r _ _ _ => exact ⟨l, rfl, hexpression.1⟩
  case compareRight r _ _ _ => exact ⟨r, rfl, hexpression.2⟩
  case choiceTest c y n _ _ _ => exact ⟨c, rfl, hexpression.1⟩
  case choiceYes y n _ _ _ _ => exact ⟨y, rfl, hexpression.2.1⟩
  case choiceNo y n _ _ _ _ => exact ⟨n, rfl, hexpression.2.2⟩
  all_goals exact hexpression.elim

/-- A machine that agrees still does where more names drift and the sweep has gone on through
what assigns to them. -/
theorem AgreesOutside.skip {S ids : List String} {b b' b₁ : Bindings} (h : AgreesOutside S b b')
    (hsame : ∀ id, id ∉ ids → b₁.get? id = b'.get? id) : AgreesOutside (S ++ ids) b b₁ := by
  intro id hid
  simp only [List.mem_append, not_or] at hid
  rw [hsame id hid.2, h id hid.1]

/-- After some turns of a block, what it does not assign to is as before. -/
theorem AgreesOutside.turns {S : List String} {body : List Tree} {b : Bindings}
    {m m' : Machine} {i : Nat} (h : AgreesOutside S m.bindings b)
    (hturns : Gives (Run.times i (Tree.runAll body)) m () m') :
    AgreesOutside (S ++ Tree.targetsAll body) m'.bindings b := by
  intro id hid
  simp only [List.mem_append, not_or] at hid
  rw [← h id hid.1]
  exact times_invariant (fun s => s.bindings.get? id = m.bindings.get? id)
    (fun _ _ hinv hturn => (Tree.get?_runAll hid.2 hturn).trans hinv) rfl hturns

/-- Of a loop that runs to its end every turn does. -/
theorem exists_gives_turn {act : Run Unit} {n i : Nat} {m m₁ m' : Machine} (hi : i < n)
    (hall : Gives (Run.times n act) m () m') (hearlier : Gives (Run.times i act) m () m₁) :
    ∃ m₂, Gives act m₁ () m₂ := by
  induction i generalizing n m with
  | zero =>
    obtain ⟨n, rfl⟩ := Nat.exists_eq_add_one_of_ne_zero (Nat.ne_of_gt hi)
    obtain ⟨m₂, hact, _⟩ := (gives_times_succ ..).mp hall
    obtain ⟨_, rfl⟩ := (gives_pure ..).mp hearlier
    exact ⟨m₂, hact⟩
  | succ i ih =>
    obtain ⟨n, rfl⟩ := Nat.exists_eq_add_one_of_ne_zero (Nat.ne_of_gt (Nat.zero_lt_of_lt hi))
    obtain ⟨m₂, hact, hmore⟩ := (gives_times_succ ..).mp hall
    obtain ⟨m₃, hact', hmore'⟩ := (gives_times_succ ..).mp hearlier
    obtain ⟨_, rfl⟩ := hact.unique hact'
    exact ih (Nat.lt_of_succ_lt_succ hi) hmore hmore'

section Steps

variable {sites : List LoopSite} {k : Nat} {m m' : Machine}

theorem Visit.Tracks.program {body : List Tree}
    (h : Visit.Tracks sites ⟨.tree (.program body), k, m⟩) :
    Visit.Tracks sites ⟨.block body, k, m⟩ where
  runnable := h.runnable.resolve_left fun hshown => hshown
  succeeds := by
    obtain ⟨a, m', hrun⟩ := h.succeeds
    simp only [Tree.run, gives_bind, gives_pure] at hrun
    obtain ⟨_, m', hbody, _⟩ := hrun
    exact ⟨m', hbody⟩
  placed := h.placed

theorem Visit.Tracks.chain {c : Branch} (h : Visit.Tracks sites ⟨.tree (.branch c), k, m⟩) :
    Visit.Tracks sites ⟨.branch c, k, m⟩ where
  runnable := h.runnable.resolve_right fun hscript => hscript
  succeeds := by
    obtain ⟨a, m', hrun⟩ := h.succeeds
    exact ⟨_, m', ((gives_run_branch ..).mp hrun).2.choose_spec⟩
  placed := h.placed

theorem Visit.Tracks.head {t : Tree} {ts : List Tree}
    (h : Visit.Tracks sites ⟨.block (t :: ts), k, m⟩) : Visit.Tracks sites ⟨.tree t, k, m⟩ where
  runnable := .inl h.runnable.1
  succeeds := by
    obtain ⟨m', hrun⟩ := h.succeeds
    obtain ⟨a, m₁, hhead, _⟩ := (gives_runAll_cons ..).mp hrun
    exact ⟨a, m₁, hhead⟩
  placed := by
    obtain ⟨b, S, before, after, hsites, hindex, hagrees⟩ := h.placed
    refine ⟨b, S, before, Tree.sitesAll ts (t.sweep b) (t.drift S) ++ after, ?_, hindex, hagrees⟩
    rw [hsites]
    simp only [Part.sites, Tree.sitesAll, List.append_assoc]

theorem Visit.Tracks.tail {t : Tree} {ts : List Tree} {a : Option Value}
    (h : Visit.Tracks sites ⟨.block (t :: ts), k, m⟩) (hrun : Gives t.run m a m') :
    Visit.Tracks sites ⟨.block ts, k + t.bounds.length, m'⟩ where
  runnable := h.runnable.2
  succeeds := by
    obtain ⟨m₂, hall⟩ := h.succeeds
    obtain ⟨a, m₁, hhead, htail⟩ := (gives_runAll_cons ..).mp hall
    obtain ⟨_, rfl⟩ := hhead.unique hrun
    exact ⟨m₂, htail⟩
  placed := by
    obtain ⟨b, S, before, after, hsites, hindex, hagrees⟩ := h.placed
    refine ⟨t.sweep b, t.drift S, before ++ t.sites b S, after, ?_, ?_, ?_⟩
    · rw [hsites]
      simp only [Part.sites, Tree.sitesAll, List.append_assoc]
    · rw [List.length_append, hindex, Tree.length_sites h.runnable.1]
    · exact hagrees.after h.runnable.1 hrun

/-- Every turn of a loop finds the sites of its body where they were drafted. -/
theorem Visit.Tracks.turn {bound : Tree} {body : List Tree} {p : Position} {v : Value}
    {n i : Nat} {m₁ : Machine} (h : Visit.Tracks sites ⟨.tree (.loop bound body p), k, m⟩)
    (hbound : Gives bound.run m (some v) m') (hcount : v.count p = .ok n) (hi : i < n)
    (hearlier : Gives (Run.times i (Tree.runAll body)) m' () m₁) :
    Visit.Tracks sites ⟨.block body, k + 1 + bound.bounds.length, m₁⟩ := by
  obtain ⟨hquiet, hbody⟩ := h.runnable.resolve_right fun hscript => hscript
  obtain ⟨_, hv, heq, rfl⟩ := (hquiet.isSilent.runsSilently ..).mp hbound
  cases heq
  refine ⟨hbody, ?_, ?_⟩
  · obtain ⟨a, m₂, hrun⟩ := h.succeeds
    obtain ⟨x, n', hx, hn', _, hturns⟩ := (gives_run_loop hquiet.isSilent ..).mp hrun
    cases hv.symm.trans hx
    cases hcount.symm.trans hn'
    exact exists_gives_turn hi hturns hearlier
  · obtain ⟨b, S, before, after, hsites, hindex, hagrees⟩ := h.placed
    -- Earlier turns may have assigned to anything that the block assigns to.
    refine ⟨b, S ++ Tree.targetsAll body, before ++ [⟨bound, b, S⟩], after, ?_, ?_, ?_⟩
    · rw [hsites]
      simp only [Part.sites, Tree.sites, List.append_assoc, List.cons_append, List.nil_append]
    · rw [List.length_append, hindex, hquiet.isExpression.bounds_eq_nil]
      rfl
    · exact hagrees.turns hearlier

section Branches

variable {t : Tree} {body last : List Tree} {others : List Branch} {p : Position} {x : Value}

theorem Visit.Tracks.branchYes (h : Visit.Tracks sites ⟨.branch ⟨t, body, others, last, p⟩, k, m⟩)
    (htest : Gives t.run m (some x) m') (hholds : x.holds = true) :
    Visit.Tracks sites ⟨.block body, k + t.bounds.length, m'⟩ := by
  obtain ⟨ht, hbody, _, _⟩ := h.runnable
  obtain ⟨_, hx, heq, rfl⟩ := (ht.isSilent.runsSilently ..).mp htest
  cases heq
  refine ⟨hbody, ?_, ?_⟩
  · obtain ⟨held, m₁, hrun⟩ := h.succeeds
    obtain ⟨y, hy, hcases⟩ := (gives_run_chain ht.isSilent ..).mp hrun
    cases hx.symm.trans hy
    rcases hcases with ⟨_, _, hblock⟩ | ⟨hfails, _⟩ | ⟨hfails, _⟩
    · exact ⟨m₁, hblock⟩
    · simp [hholds] at hfails
    · simp [hholds] at hfails
  · obtain ⟨b, S, before, after, hsites, hindex, hagrees⟩ := h.placed
    rw [Part.sites, Branch.sites, List.append_assoc] at hsites
    exact ⟨b, S, before, _, hsites, by simp [hindex, ht.isExpression.bounds_eq_nil], hagrees⟩

theorem Visit.Tracks.branchNo (h : Visit.Tracks sites ⟨.branch ⟨t, body, others, last, p⟩, k, m⟩)
    (htest : Gives t.run m (some x) m') (hfails : x.holds = false) :
    Visit.Tracks sites
      ⟨.first others, k + t.bounds.length + (Tree.boundsAll body).length, m'⟩ := by
  obtain ⟨ht, hbody, hothers, _⟩ := h.runnable
  obtain ⟨_, hx, heq, rfl⟩ := (ht.isSilent.runsSilently ..).mp htest
  cases heq
  refine ⟨hothers, ?_, ?_⟩
  · obtain ⟨held, m₁, hrun⟩ := h.succeeds
    obtain ⟨y, hy, hcases⟩ := (gives_run_chain ht.isSilent ..).mp hrun
    cases hx.symm.trans hy
    rcases hcases with ⟨hholds, _⟩ | ⟨_, _, hfound⟩ | ⟨_, _, m₂, hnone, _⟩
    · simp [hfails] at hholds
    · exact ⟨_, _, hfound⟩
    · exact ⟨_, _, hnone⟩
  · obtain ⟨b, S, before, after, hsites, hindex, hagrees⟩ := h.placed
    refine ⟨Tree.sweepAll body b, S ++ Tree.targetsAll body, before ++ Tree.sitesAll body b S,
      Tree.sitesAll last (Branch.sweepAll others (Tree.sweepAll body b))
        (S ++ Tree.targetsAll body ++ Branch.targetsAll others) ++ after, ?_, ?_,
      hagrees.skip fun id hid => Tree.get?_sweepAll body hid b⟩
    · rw [hsites]
      simp only [Part.sites, Branch.sites, List.append_assoc]
    · simp [hindex, ht.isExpression.bounds_eq_nil, Tree.length_sitesAll hbody]

/-- Branches that do not hold leave everything as it was. -/
theorem eq_of_runFirst_false : {cs : List Branch} → Branch.AllElifs cs → {m m' : Machine} →
    Gives (Branch.runFirst cs) m false m' → m' = m
  | [], _, m, m', hrun => ((gives_pure ..).mp hrun).2.symm
  | .mk t body _ _ p :: cs, h, m, m', hrun => by
    obtain ⟨⟨ht, _, rfl, rfl⟩, hcs⟩ := h
    rcases (gives_runFirst_cons ..).mp hrun with ⟨hheld, _⟩ | ⟨m₁, hthis, hlater⟩
    · cases hheld
    · obtain ⟨_, _, _, rfl⟩ := (gives_run_elif ht.isSilent body p m m₁).2.mp hthis
      exact eq_of_runFirst_false hcs hlater

/-- The last block finds its sites behind those of all the branches. -/
theorem Visit.Tracks.branchLast {m₁ : Machine}
    (h : Visit.Tracks sites ⟨.branch ⟨t, body, others, last, p⟩, k, m⟩)
    (htest : Gives t.run m (some x) m') (hfails : x.holds = false)
    (hnone : Gives (Branch.runFirst others) m' false m₁) :
    Visit.Tracks sites ⟨.block last, k + t.bounds.length + (Tree.boundsAll body).length +
      (Branch.boundsAll others).length, m₁⟩ := by
  obtain ⟨ht, hbody, hothers, hlast⟩ := h.runnable
  obtain ⟨_, hx, heq, rfl⟩ := (ht.isSilent.runsSilently ..).mp htest
  cases heq
  obtain rfl := eq_of_runFirst_false hothers hnone
  refine ⟨hlast, ?_, ?_⟩
  · obtain ⟨held, m₁, hrun⟩ := h.succeeds
    obtain ⟨y, hy, hcases⟩ := (gives_run_chain ht.isSilent ..).mp hrun
    cases hx.symm.trans hy
    rcases hcases with ⟨hholds, _⟩ | ⟨_, _, hfound⟩ | ⟨_, _, m₂, hnone', hblock⟩
    · simp [hfails] at hholds
    · cases (hnone.unique hfound).1
    · obtain ⟨_, rfl⟩ := hnone.unique hnone'
      exact ⟨m₁, hblock⟩
  · obtain ⟨b, S, before, after, hsites, hindex, hagrees⟩ := h.placed
    refine ⟨Branch.sweepAll others (Tree.sweepAll body b),
      S ++ Tree.targetsAll body ++ Branch.targetsAll others,
      before ++ (Tree.sitesAll body b S ++ Branch.sitesAll others (Tree.sweepAll body b)
        (S ++ Tree.targetsAll body)), after, ?_, ?_, ?_⟩
    · rw [hsites]
      simp only [Part.sites, Branch.sites, List.append_assoc]
    · simp [hindex, ht.isExpression.bounds_eq_nil, Tree.length_sitesAll hbody,
        Branch.length_sitesAll hothers, Nat.add_assoc]
    · exact (hagrees.skip fun id hid => Tree.get?_sweepAll body hid b).skip
        fun id hid => Branch.get?_sweepAll others hid _

theorem Visit.Tracks.firstHead {c : Branch} {cs : List Branch}
    (h : Visit.Tracks sites ⟨.first (c :: cs), k, m⟩) : Visit.Tracks sites ⟨.branch c, k, m⟩ := by
  obtain ⟨t, body, others, last, p⟩ := c
  obtain ⟨⟨ht, hbody, rfl, rfl⟩, hcs⟩ := h.runnable
  refine ⟨⟨ht, hbody, trivial, trivial⟩, ?_, ?_⟩
  · obtain ⟨held, m', hrun⟩ := h.succeeds
    rcases (gives_runFirst_cons ..).mp hrun with ⟨_, hthis⟩ | ⟨m₁, hthis, _⟩
    · exact ⟨_, _, hthis⟩
    · exact ⟨_, _, hthis⟩
  · obtain ⟨b, S, before, after, hsites, hindex, hagrees⟩ := h.placed
    rw [Part.sites, Branch.sitesAll, List.append_assoc] at hsites
    exact ⟨b, S, before, _, hsites, hindex, hagrees⟩

theorem Visit.Tracks.firstTail {c : Branch} {cs : List Branch}
    (h : Visit.Tracks sites ⟨.first (c :: cs), k, m⟩) (hfails : Gives c.run m false m') :
    Visit.Tracks sites ⟨.first cs, k + c.bounds.length, m'⟩ := by
  have hbranch := h.firstHead
  obtain ⟨t, body, others, last, p⟩ := c
  obtain ⟨⟨ht, hbody, rfl, rfl⟩, hcs⟩ := h.runnable
  obtain ⟨_, _, _, rfl⟩ := (gives_run_elif ht.isSilent body p m m').2.mp hfails
  refine ⟨hcs, ?_, ?_⟩
  · obtain ⟨held, m₁, hrun⟩ := h.succeeds
    rcases (gives_runFirst_cons ..).mp hrun with ⟨_, hthis⟩ | ⟨m₂, hthis, hlater⟩
    · cases (hfails.unique hthis).1
    · obtain ⟨_, rfl⟩ := hfails.unique hthis
      exact ⟨_, _, hlater⟩
  · obtain ⟨b, S, before, after, hsites, hindex, hagrees⟩ := h.placed
    refine ⟨Branch.sweep ⟨t, body, [], [], p⟩ b, S ++ Branch.targets ⟨t, body, [], [], p⟩,
      before ++ Branch.sites ⟨t, body, [], [], p⟩ b S, after, ?_, ?_,
      hagrees.skip fun id hid => Branch.get?_sweep _ hid b⟩
    · rw [hsites]
      simp only [Part.sites, Branch.sitesAll, List.append_assoc]
    · rw [List.length_append, hindex, Branch.length_sites hbranch.runnable]

end Branches

/-- What a visit that is on track comes to is an expression or on track again. -/
theorem Visit.Tracks.enters {x y : Visit} (h : x.Tracks sites) (hxy : Enters x y) :
    y.IsExpression ∨ y.Tracks sites := by
  cases hxy with
  | program body k m => exact .inr h.program
  | arithLeft op l r shown p k m =>
    obtain ⟨hl, _⟩ := h.runnable.resolve_right fun hscript => hscript
    exact .inl ⟨l, rfl, hl.isExpression⟩
  | arithRight op r shown p k hleft =>
    obtain ⟨_, hr, _⟩ := h.runnable.resolve_right fun hscript => hscript
    exact .inl ⟨r, rfl, hr.isExpression⟩
  | assigned id v p k m =>
    have hv := h.runnable.resolve_right fun hscript => hscript
    exact .inl ⟨v, rfl, Tree.IsValue.isExpression hv⟩
  | chain c k m => exact .inr h.chain
  | branchTest t body others last p k m => exact .inl ⟨t, rfl, h.runnable.1.isExpression⟩
  | branchYes body others last p k htest hholds => exact .inr (h.branchYes htest hholds)
  | branchNo body others last p k htest hfails => exact .inr (h.branchNo htest hfails)
  | branchLast body last p k htest hfails hnone => exact .inr (h.branchLast htest hfails hnone)
  | firstHead c cs k m => exact .inr h.firstHead
  | firstTail cs k hfails => exact .inr (h.firstTail hfails)
  | bound b body p k m =>
    obtain ⟨hb, _⟩ := h.runnable.resolve_right fun hscript => hscript
    exact .inl ⟨b, rfl, hb.isExpression⟩
  | turn p k hbound hcount hi hearlier => exact .inr (h.turn hbound hcount hi hearlier)
  | head t ts k m => exact .inr h.head
  | tail ts k hrun => exact .inr (h.tail hrun)
  | _ => exact (h.runnable.resolve_right fun hscript => hscript).elim

/-- Whatever a run reaches from a visit that is tracked is tracked, or is an expression. -/
theorem Visit.Tracks.reaches {x y : Visit} (h : x.Tracks sites) (hxy : Reaches x y) :
    y.IsExpression ∨ y.Tracks sites := by
  induction hxy with
  | refl => exact .inr h
  | tail _ hstep ih =>
    rcases ih with hexpression | htracks
    · exact .inl (hexpression.enters hstep)
    · exact htracks.enters hstep

end Steps

/-- Where a run of a script comes to a loop, its machine agrees with the sweep outside the
names that drift there, and the loop runs as many turns as its bound says. -/
theorem exists_site_of_reaches {body block : List Tree} {output : Output} {m₁ m : Machine}
    {bound : Tree} {p : Position} {j : Nat} (hbody : Tree.AllStatements body)
    (hrun : Gives (Tree.runAll body) { output := output } () m₁)
    (hreach : Reaches ⟨.tree (.program body), 0, { output := output }⟩
      ⟨.tree (.loop bound block p), j, m⟩) :
    ∃ b S n m', (Tree.sitesAll body .empty [])[j]? = some ⟨bound, b, S⟩ ∧
      AgreesOutside S m.bindings b ∧ bound.turns? m.bindings = some n ∧
      Gives (Run.times n (Tree.runAll block)) m () m' := by
  have hstart : Visit.Tracks (Tree.sitesAll body .empty [])
      ⟨.tree (.program body), 0, { output := output }⟩ := by
    refine ⟨.inr hbody, ⟨none, m₁, ?_⟩, .empty, [], [], [], ?_, rfl, fun _ _ => rfl⟩
    · simp only [Tree.run, gives_bind, gives_pure]
      exact ⟨(), m₁, hrun, by simp⟩
    · simp [Part.sites, Tree.sites]
  rcases hstart.reaches hreach with ⟨t, ht, hexpression⟩ | htracks
  · cases ht
    exact hexpression.elim
  · obtain ⟨hquiet, _⟩ := htracks.runnable.resolve_right fun hscript => hscript
    obtain ⟨a, m', hloop⟩ := htracks.succeeds
    obtain ⟨x, n, hx, hn, _, hturns⟩ := (gives_run_loop hquiet.isSilent ..).mp hloop
    obtain ⟨b, S, before, after, hsites, hindex, hagrees⟩ := htracks.placed
    refine ⟨b, S, n, m', ?_, hagrees, ?_, hturns⟩
    · rw [hsites, List.getElem?_append_right (Nat.le_of_eq hindex), hindex]
      simp [Part.sites, Tree.sites]
    · simp only [Tree.turns?, hx, Option.bind_some]
      exact (Value.count_eq_ok ..).mp hn

end Scriptlet
