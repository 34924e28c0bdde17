import Scriptlet.Proofs.Machine.Fails
import Scriptlet.Proofs.Tree.Induction
import Scriptlet.Proofs.Tree.Numbers

/-!
Runs of scripts are safe. Nothing that has a value is asked of a statement, variables hold
numbers all the time, and what is printed are the values of expressions that are statements:
an expression inside another one, a condition, a bound or what is assigned prints nothing.
All of this holds of every part that a run comes across, whether its own run succeeds or
fails.
-/
namespace Scriptlet

section Calm

variable {α β : Type} {m : Machine}

def Calm (run : Run α) (m : Machine) : Prop :=
  ∀ r m', run.run m = (r, m') → m' = m ∧ ∀ p, r ≠ .error (.noValue p)

/-- A run is calm if whatever it comes to leaves the machine alone, and is not a missing value. -/
theorem calm_iff {run : Run α} : Calm run m ↔ (∀ a m', Gives run m a m' → m' = m) ∧
    ∀ e m', Fails run m e m' → m' = m ∧ ∀ p, e ≠ .noValue p := by
  constructor
  · intro h
    refine ⟨fun a m' hgives => (h _ m' hgives).1, fun e m' hfails => ?_⟩
    obtain ⟨hm, he⟩ := h _ m' hfails
    exact ⟨hm, fun p hp => he p (by rw [hp])⟩
  · rintro ⟨hgives, hfails⟩ r m' hrun
    cases r with
    | ok a => exact ⟨hgives a m' hrun, nofun⟩
    | error e =>
      obtain ⟨hm, he⟩ := hfails e m' hrun
      exact ⟨hm, fun p hp => he p (by cases hp; rfl)⟩

theorem calm_pure (a : α) (m : Machine) : Calm (pure a) m := by
  simp only [calm_iff, gives_pure, not_fails_pure]
  grind

theorem Calm.bind {run : Run α} {f : α → Run β} (h : Calm run m)
    (hf : ∀ a m₁, Gives run m a m₁ → Calm (f a) m₁) : Calm (run >>= f) m := by
  rw [calm_iff] at h ⊢
  refine ⟨fun b m' hgives => ?_, fun e m' hfails => ?_⟩
  · obtain ⟨a, m₁, hrun, hmore⟩ := (gives_bind ..).mp hgives
    obtain rfl := h.1 a m₁ hrun
    exact (calm_iff.mp (hf a m₁ hrun)).1 b m' hmore
  · rcases (fails_bind ..).mp hfails with hrun | ⟨a, m₁, hrun, hmore⟩
    · exact h.2 e m' hrun
    · obtain rfl := h.1 a m₁ hrun
      exact (calm_iff.mp (hf a m₁ hrun)).2 e m' hmore

theorem calm_ofExcept {r : Except RunError α} (h : ∀ p, r ≠ .error (.noValue p)) :
    Calm (Attempt.ofExcept r) m := by
  simp only [calm_iff, Attempt.gives_ofExcept, Attempt.fails_ofExcept]
  refine ⟨fun a m' hm => hm.2, fun e m' he => ⟨he.2, fun p hp => h p ?_⟩⟩
  rw [he.1, hp]

theorem calm_arithmetic (fault : ArithOp.Fault) (p : Position) :
    Calm (Run.fail (.arithmetic fault p) : Run α) m :=
  calm_ofExcept (r := .error (.arithmetic fault p)) (by simp)

theorem calm_resolve (id : String) (p : Position) (m : Machine) :
    Calm (Run.resolve id p) m := by
  simp only [calm_iff, Attempt.gives_resolve, Attempt.fails_resolve]
  refine ⟨fun v m' hm => hm.2, fun e m' he => ⟨he.2, fun q hq => ?_⟩⟩
  rw [he.1.1] at hq
  cases hq

/-- A silent tree has a value wherever it gives anything. -/
theorem Tree.IsSilent.calm_needed {t : Tree} {a : Option Value} {m₁ : Machine} (h : t.IsSilent)
    (hrun : Gives t.run m a m₁) (p : Position) : Calm (Run.needed p a) m₁ := by
  obtain ⟨v, _, rfl, _⟩ := (h.runsSilently _ _ _).mp hrun
  exact calm_pure v m₁

end Calm

def Part.IsSilent : Part → Prop
  | tree t => t.IsSilent
  | _ => False

theorem Part.IsSilent.holds {a b : Part} (h : a.IsSilent) (hholds : a.Holds b) : b.IsSilent := by
  cases hholds with
  | arithLeft => exact h.1
  | arithRight => exact h.2.1
  | compareLeft => exact h.1
  | compareRight => exact h.2
  | choiceTest => exact h.1
  | choiceYes => exact h.2.1
  | choiceNo => exact h.2.2
  | _ => exact h.elim

theorem Tree.IsSilent.isShown_eq {t : Tree} (h : t.IsSilent) : t.isShown = false := by
  cases t with
  | literal n shown p => exact h
  | name id shown p => exact h
  | arith op l r shown p => exact h.2.2
  | _ => rfl

theorem calm_runRules : RunRules id Part.IsSilent (fun _ run _ m => Calm run m) where
  part h hholds := h.holds hholds
  of_pure a := calm_pure a _
  bind hrun hnext := hrun.bind hnext
  enters _ h := h
  resolve _ := calm_resolve _ _ _
  give ht _ := by
    rw [Tree.IsSilent.isShown_eq ht]
    exact calm_pure _ _
  fault _ _ := calm_arithmetic _ _
  needed hx hholds _ hrun := (show Tree.IsSilent _ from hx.holds hholds).calm_needed hrun _
  define h _ := h.elim
  count h := h.elim

/-- Silent trees run calmly. -/
theorem Tree.IsSilent.calm {t : Tree} (h : t.IsSilent) (m : Machine) : Calm t.run m :=
  calm_runRules.tree t h 0 m

theorem Tree.IsSilent.calm_runValue {t : Tree} (h : t.IsSilent) (m : Machine) :
    Calm t.runValue m :=
  (h.calm m).bind fun _ _ hrun => h.calm_needed hrun _

/-- A line for which there is no room is cut short, and the run fails. -/
theorem Run.fails_print (v : Value) (m m' : Machine) (e : RunError) :
    Fails (Run.print v) m e m' ↔ (m.output.write (v.text ++ "\n")).1 = false ∧
      e = .outputFull ∧ m' = { m with output := (m.output.write (v.text ++ "\n")).2 } := by
  simp only [Run.print, fails_bind, gives_get, gives_modify, not_fails_get, not_fails_modify,
    false_or]
  cases hfits : (m.output.write (v.text ++ "\n")).1 <;>
    grind [not_fails_pure, Run.fails_fail]

def Output.writeAll (o : Output) (values : List Value) : Output :=
  values.foldl (fun o v => (o.write (v.text ++ "\n")).2) o

theorem Value.count_ne_noValue (v : Value) (p q : Position) :
    v.count p ≠ .error (.noValue q) := by
  unfold Value.count
  split <;> simp

theorem Tree.IsSilent.isExpression : {t : Tree} → t.IsSilent → t.IsExpression
  | .literal _ _ _, _ => trivial
  | .name _ _ _, _ => trivial
  | .arith _ _ _ _ _, h => ⟨IsSilent.isExpression h.1, IsSilent.isExpression h.2.1⟩
  | .compare _ _ _ _, h => ⟨IsSilent.isExpression h.1, IsSilent.isExpression h.2⟩
  | .choose _ _ _ _, h =>
    ⟨IsSilent.isExpression h.1, IsSilent.isExpression h.2.1, IsSilent.isExpression h.2.2⟩

theorem Tree.IsShownSum.not_isSilent {t : Tree} (h : t.IsShownSum) : ¬ t.IsSilent := by
  cases t <;> simp_all [Tree.IsShownSum, Tree.IsSilent]

theorem Branch.AllElifs.head {b : Branch} {bs : List Branch} (h : Branch.AllElifs (b :: bs)) :
    b.IsChain ∧ Branch.AllElifs bs := by
  obtain ⟨c, body, others, last, p⟩ := b
  obtain ⟨⟨hc, hbody, rfl, rfl⟩, hbs⟩ := h
  exact ⟨⟨hc, hbody, trivial, trivial⟩, hbs⟩

namespace Part

def run : Part → Run Unit
  | tree t => t.run >>= fun _ => pure ()
  | block ts => Tree.runAll ts
  | branch b => b.run >>= fun _ => pure ()
  | first bs => Branch.runFirst bs >>= fun _ => pure ()

theorem run_tree {t : Tree} {m m' : Machine} {r : Except RunError (Option Value)}
    (h : t.run.run m = (r, m')) : (tree t).run.run m = (r.map fun _ => (), m') := by
  rw [run, run_bind, h]
  cases r <;> rfl

/-- A part that a script can have: a tree is a statement, or it is an expression of which
nothing is shown. -/
def IsProper : Part → Prop
  | tree t => t.IsScript ∨ t.IsStatement ∨ t.IsSilent
  | block ts => Tree.AllStatements ts
  | branch b => b.IsChain
  | first bs => Branch.AllElifs bs

theorem IsProper.operands {op : ArithOp} {l r : Tree} {shown : Bool} {p : Position}
    (h : IsProper (.tree (.arith op l r shown p))) : l.IsSilent ∧ r.IsSilent := by
  rcases h with hscript | hstatement | hsilent
  · exact hscript.elim
  · exact ⟨hstatement.1.isSilent, hstatement.2.1.isSilent⟩
  · exact ⟨hsilent.1, hsilent.2.1⟩

theorem IsProper.compared {op : CompareOp} {l r : Tree} {p : Position}
    (h : IsProper (.tree (.compare op l r p))) : l.IsSilent ∧ r.IsSilent :=
  (h.resolve_left id).resolve_left id

theorem IsProper.choice {c y n : Tree} {p : Position} (h : IsProper (.tree (.choose c y n p))) :
    c.IsSilent ∧ y.IsSilent ∧ n.IsSilent :=
  (h.resolve_left id).resolve_left id

theorem IsProper.assigned {name : String} {v : Tree} {p : Position}
    (h : IsProper (.tree (.assign name v p))) : v.IsValue :=
  (h.resolve_left id).resolve_right id

theorem IsProper.loop {b : Tree} {body : List Tree} {p : Position}
    (h : IsProper (.tree (.loop b body p))) : b.IsQuiet ∧ Tree.AllStatements body :=
  (h.resolve_left id).resolve_right id

/-- A tree that stands in anything but a block shows nothing. -/
theorem IsProper.isSilent {a : Part} {u : Tree} (h : a.IsProper) (hholds : a.Holds (.tree u))
    (ha : ∀ ts, a ≠ .block ts) : u.IsSilent := by
  cases hholds with
  | head t ts => exact absurd rfl (ha _)
  | arithLeft => exact h.operands.1
  | arithRight => exact h.operands.2
  | compareLeft => exact h.compared.1
  | compareRight => exact h.compared.2
  | assigned => exact h.assigned.isSilent
  | choiceTest => exact h.choice.1
  | choiceYes => exact h.choice.2.1
  | choiceNo => exact h.choice.2.2
  | branchTest => exact h.1.isSilent
  | bound => exact h.loop.1.isSilent

/-- What is shown is a statement. -/
theorem IsProper.isShownSum {t : Tree} (h : IsProper (.tree t)) (hshown : t.isShown = true) :
    t.IsShownSum := by
  rcases h with hscript | hstatement | hsilent
  · cases t with
    | program body => cases hshown
    | _ => exact hscript.elim
  · cases t with
    | assign name v p => cases hshown
    | loop bound body p => cases hshown
    | branch chain => cases hshown
    | _ => exact hstatement
  · rw [hsilent.isShown_eq] at hshown
    cases hshown

/-- The parts of a proper part are proper. -/
theorem IsProper.holds {a b : Part} (h : a.IsProper) (hholds : a.Holds b) : b.IsProper := by
  cases b with
  | tree u =>
    by_cases ha : ∃ ts, a = .block ts
    · obtain ⟨ts, rfl⟩ := ha
      cases hholds with
      | head => exact .inr (.inl h.1)
    · exact .inr (.inr (h.isSilent hholds fun ts hts => ha ⟨ts, hts⟩))
  | block ts =>
    cases hholds with
    | program =>
      rcases h with hscript | hnot | hnot
      · exact hscript
      · exact hnot.elim
      · exact hnot.elim
    | branchBody => exact h.2.1
    | branchLast => exact h.2.2.2
    | turn => exact h.loop.2
    | tail => exact h.2
  | branch b =>
    cases hholds with
    | chain => exact (h.resolve_left id).resolve_right id
    | firstHead => exact h.head.1
  | first bs =>
    cases hholds with
    | branchOthers => exact h.2.2.1
    | firstTail => exact h.head.2

end Part

/-- An expression comes to its value and changes nothing on the way. -/
theorem Tree.ComesTo.value?_eq {t : Tree} {m m₁ : Machine} {v : Value} (h : t.ComesTo m v m₁)
    (ht : Part.IsProper (.tree t)) : t.value? m.bindings = some v ∧ m₁ = m := by
  cases h with
  | literal => exact ⟨rfl, rfl⟩
  | name shown p value => exact (Attempt.gives_resolve ..).mp value
  | arith shown p left right value =>
    obtain ⟨hl, hr⟩ := ht.operands
    obtain ⟨x, hx, heq, rfl⟩ := (hl.runsSilently _ _ _).mp left
    obtain ⟨y, hy, heq', rfl⟩ := (hr.runsSilently _ _ _).mp right
    cases heq
    cases heq'
    exact ⟨by simp [Tree.value?, hx, hy, value, Except.toOption], rfl⟩

namespace Visit

def Shows (x : Visit) (v : Value) : Prop :=
  v.IsNumber ∧ ∃ u k m, Reaches x ⟨.tree u, k, m⟩ ∧ u.IsShownSum ∧ u.value? m.bindings = some v

/-- However it ends, no value is missing in the run, all variables hold numbers after it, and
it prints what `x` shows. -/
def Safely {α : Type} (x : Visit) (run : Run α) (m : Machine) : Prop :=
  ∀ r m', run.run m = (r, m') → (∀ p, r ≠ .error (.noValue p)) ∧ m'.bindings.IsNumeric ∧
    ∃ values, m'.output = m.output.writeAll values ∧ ∀ v ∈ values, x.Shows v

section Safely

variable {α β : Type} {x y : Visit} {m : Machine}

theorem safely_of_calm {run : Run α} (h : Calm run m) (hm : m.bindings.IsNumeric) :
    x.Safely run m := by
  intro r m' hrun
  obtain ⟨rfl, hr⟩ := h r m' hrun
  exact ⟨hr, hm, [], rfl, by simp⟩

theorem Safely.bind {run : Run α} {f : α → Run β} (h : x.Safely run m)
    (hf : ∀ a m₁, Gives run m a m₁ → m₁.bindings.IsNumeric → x.Safely (f a) m₁) :
    x.Safely (run >>= f) m := by
  intro r m' hrun
  rw [run_bind] at hrun
  cases hfirst : run.run m with
  | mk r₁ m₁ =>
    rw [hfirst] at hrun
    obtain ⟨hvalue, hnumeric, vs, hvs, hshown⟩ := h r₁ m₁ hfirst
    cases r₁ with
    | error e =>
      cases hrun
      exact ⟨fun p he => hvalue p (by cases he; rfl), hnumeric, vs, hvs, hshown⟩
    | ok a =>
      obtain ⟨hvalue', hnumeric', ws, hws, hshown'⟩ := hf a m₁ hfirst hnumeric r m' hrun
      refine ⟨hvalue', hnumeric', vs ++ ws, ?_, ?_⟩
      · rw [hws, hvs, Output.writeAll, Output.writeAll, Output.writeAll, List.foldl_append]
      · intro v hv
        rcases List.mem_append.mp hv with hv | hv
        · exact hshown v hv
        · exact hshown' v hv

theorem Safely.numeric {run : Run α} {a : α} {m' : Machine} (h : x.Safely run m)
    (hgives : Gives run m a m') : m'.bindings.IsNumeric :=
  (h _ m' hgives).2.1

theorem Safely.enters {run : Run α} (hxy : Enters x y) (h : y.Safely run m) :
    x.Safely run m := by
  intro r m' hrun
  obtain ⟨hvalue, hnumeric, vs, hvs, hshown⟩ := h r m' hrun
  refine ⟨hvalue, hnumeric, vs, hvs, fun v hv => ?_⟩
  obtain ⟨hnumber, u, k, m₁, hreaches, hu⟩ := hshown v hv
  exact ⟨hnumber, u, k, m₁, .head hxy hreaches, hu⟩

theorem safely_pure (a : α) (hm : m.bindings.IsNumeric) : x.Safely (pure a) m :=
  safely_of_calm (calm_pure a m) hm

theorem safely_print {v : Value} (hv : x.Shows v) (hm : m.bindings.IsNumeric) :
    x.Safely (Run.print v) m := by
  have hline : ∀ w ∈ [v], x.Shows w := by
    intro w hw
    obtain rfl := List.mem_singleton.mp hw
    exact hv
  intro r m' hrun
  cases r with
  | ok u =>
    obtain ⟨_, rfl⟩ := (Run.gives_print v m m' u).mp hrun
    exact ⟨nofun, hm, [v], rfl, hline⟩
  | error e =>
    obtain ⟨_, rfl, rfl⟩ := (Run.fails_print v m m' e).mp hrun
    exact ⟨nofun, hm, [v], rfl, hline⟩

theorem safely_give {t : Tree} {k : Nat} {m m₁ : Machine} {v : Value}
    (ht : Part.IsProper (.tree t)) (hvalue : t.ComesTo m v m₁) (hm₁ : m₁.bindings.IsNumeric) :
    Safely ⟨.tree t, k, m⟩ (Run.give v t.isShown) m₁ := by
  obtain ⟨hv, rfl⟩ := hvalue.value?_eq ht
  cases hshown : t.isShown with
  | false => exact safely_pure (some v) hm₁
  | true =>
    have hsum := ht.isShownSum hshown
    have hshows : Shows ⟨.tree t, k, m₁⟩ v :=
      ⟨hsum.isArith.isNumber hm₁ hv, t, k, m₁, .refl, hsum, hv⟩
    exact (safely_print hshows hm₁).bind fun _ _ _ hm₂ => safely_pure (some v) hm₂

theorem safely_define {name : String} {u : Tree} {p : Position} {k : Nat} {v : Value}
    {m m₁ : Machine} (h : Part.IsProper (.tree (.assign name u p)))
    (hvalue : Gives u.run m (some v) m₁) (hm₁ : m₁.bindings.IsNumeric) :
    Safely ⟨.tree (.assign name u p), k, m⟩ (Run.define name v) m₁ := by
  obtain ⟨w, hw, heq, rfl⟩ := (h.assigned.isSilent.runsSilently _ _ _).mp hvalue
  cases heq
  intro r m' hrun
  cases hrun
  exact ⟨nofun, hm₁.define (h.assigned.isNumber hm₁ hw) name, [], rfl, by simp⟩

end Safely

/-- Proper parts run safely from bindings that are numbers. -/
theorem safely_runRules : RunRules id Part.IsProper
    (fun x run _ m => m.bindings.IsNumeric → x.Safely run m) where
  part h hholds := h.holds hholds
  of_pure a hm := safely_pure a hm
  bind hrun hnext hm := (hrun hm).bind hnext
  enters hxy h hm := (h hm).enters hxy
  resolve _ hm := safely_of_calm (calm_resolve _ _ _) hm
  give ht hvalue hm := safely_give ht hvalue hm
  fault _ _ hm := safely_of_calm (calm_arithmetic _ _) hm
  needed hx hholds hblock hrun hm :=
    safely_of_calm ((hx.isSilent hholds hblock).calm_needed hrun _) hm
  define h hvalue hm := safely_define h hvalue hm
  count _ hm := safely_of_calm (calm_ofExcept (Value.count_ne_noValue _ _)) hm

structure IsProper (x : Visit) : Prop where
  shape : x.part.IsProper
  numeric : x.machine.bindings.IsNumeric

theorem IsProper.safely {x : Visit} (h : x.IsProper) : x.Safely x.part.run x.machine := by
  obtain ⟨part, k, m⟩ := x
  obtain ⟨hshape, hm⟩ := h
  cases part with
  | tree t =>
    exact (safely_runRules.tree t hshape k m hm).bind fun _ _ _ hm' => safely_pure () hm'
  | block ts => exact safely_runRules.block ts hshape k m hm
  | branch b =>
    exact (safely_runRules.branch b hshape k m hm).bind fun _ _ _ hm' => safely_pure () hm'
  | first bs =>
    exact (safely_runRules.first bs hshape k m hm).bind fun _ _ _ hm' => safely_pure () hm'

theorem numeric_of_isSilent {t : Tree} {a : Option Value} {m m' : Machine} (ht : t.IsSilent)
    (hm : m.bindings.IsNumeric) (hgives : Gives t.run m a m') : m'.bindings.IsNumeric := by
  obtain ⟨rfl, _⟩ := ht.calm m _ m' hgives
  exact hm

/-- Bindings are still numbers where a proper part is entered. -/
theorem IsProper.numeric_enters {x y : Visit} (h : x.IsProper) (henters : Enters x y) :
    y.machine.bindings.IsNumeric := by
  obtain ⟨hshape, hm⟩ := h
  cases henters with
  | arithRight op r shown p k left =>
    exact numeric_of_isSilent hshape.operands.1 hm left
  | compareRight op r p k left => exact numeric_of_isSilent hshape.compared.1 hm left
  | choiceYes yes no p k test => exact numeric_of_isSilent hshape.choice.1 hm test
  | choiceNo yes no p k test => exact numeric_of_isSilent hshape.choice.1 hm test
  | branchYes body others last p k test => exact numeric_of_isSilent hshape.1.isSilent hm test
  | branchNo body others last p k test => exact numeric_of_isSilent hshape.1.isSilent hm test
  | branchLast body last p k test fails first =>
    have hm₁ := numeric_of_isSilent hshape.1.isSilent hm test
    exact (safely_runRules.first _ hshape.2.2.1 k _ hm₁).numeric first
  | firstTail bs k fails => exact (safely_runRules.branch _ hshape.head.1 k _ hm).numeric fails
  | turn p k bound count left earlier =>
    have hm₁ := numeric_of_isSilent hshape.loop.1.isSilent hm bound
    exact times_invariant (fun m => m.bindings.IsNumeric)
      (fun m m' hm hbody => (safely_runRules.block _ hshape.loop.2 k m hm).numeric hbody) hm₁
        earlier
  | tail ts k run => exact (safely_runRules.tree _ (.inr (.inl hshape.1)) k _ hm).numeric run
  | _ => exact hm

theorem IsProper.enters {x y : Visit} (h : x.IsProper) (henters : Enters x y) : y.IsProper :=
  ⟨h.shape.holds henters.holds, h.numeric_enters henters⟩

/-- Whatever a run reaches from a proper visit is proper. -/
theorem IsProper.reaches {x y : Visit} (h : x.IsProper) (hreaches : Reaches x y) :
    y.IsProper := by
  induction hreaches with
  | refl => exact h
  | tail _ henters ih => exact ih.enters henters

/-- The number, which is no text of a truth value, is the value of an expression that stands
as a statement in a block that is run on the way. -/
def Prints (x : Visit) (v : Value) : Prop :=
  v.IsNumber ∧ (∀ b, v.text ≠ (Value.truth b).text) ∧ ∃ u us k m,
    Reaches x ⟨.block (u :: us), k, m⟩ ∧ u.IsShownSum ∧ u.value? m.bindings = some v

/-- What is shown stands in a block, unless it is all that is run. -/
theorem IsProper.prints {x : Visit} {v : Value} (h : x.IsProper)
    (hx : ∀ u, x.part = .tree u → ¬ u.IsShownSum) (hv : x.Shows v) : x.Prints v := by
  obtain ⟨hnumber, u, k, m, hreaches, hshown, hvalue⟩ := hv
  refine ⟨hnumber, hnumber.text_ne, u, ?_⟩
  rcases hreaches.cases_tail with heq | ⟨w, hw, henters⟩
  · exact absurd hshown (hx u (by rw [← heq]))
  · by_cases hblock : ∃ ts, w.part = .block ts
    · obtain ⟨ts, hts⟩ := hblock
      cases henters with
      | head t us k m => exact ⟨us, k, m, hw, hshown, hvalue⟩
      | _ => cases hts
    · have hsilent := (h.reaches hw).shape.isSilent henters.holds fun ts hts => hblock ⟨ts, hts⟩
      exact absurd hsilent hshown.not_isSilent

/-- What a run that began at `start` does at `x`. A tree that is not run as a statement of a
block changes nothing. -/
structure IsSafe (start x : Visit) : Prop where
  numeric : x.machine.bindings.IsNumeric
  ends : ∀ r m', x.part.run.run x.machine = (r, m') → (∀ p, r ≠ .error (.noValue p)) ∧
    m'.bindings.IsNumeric ∧
    ∃ values, m'.output = x.machine.output.writeAll values ∧ ∀ v ∈ values, start.Prints v
  inner : (∀ ts, x.part ≠ .block ts) → ∀ u k m, Enters x ⟨.tree u, k, m⟩ →
    ∀ r m', u.run.run m = (r, m') → m' = m

/-- Whatever a run reaches from a proper visit that shows nothing itself is safe. -/
theorem IsProper.isSafe {start x : Visit} (h : start.IsProper)
    (hstart : ∀ u, start.part = .tree u → ¬ u.IsShownSum) (hreaches : Reaches start x) :
    IsSafe start x := by
  have hx := h.reaches hreaches
  refine ⟨hx.numeric, fun r m' hrun => ?_, fun hblock u k m henters r m' hrun => ?_⟩
  · obtain ⟨hvalue, hnumeric, vs, hvs, hshown⟩ := hx.safely r m' hrun
    refine ⟨hvalue, hnumeric, vs, hvs, fun v hv => h.prints hstart ?_⟩
    obtain ⟨hnumber, u, k, m, hreach, hu⟩ := hshown v hv
    exact ⟨hnumber, u, k, m, hreaches.trans hreach, hu⟩
  · exact ((hx.shape.isSilent henters.holds hblock).calm m r m' hrun).1

/-- Silent trees come across silent trees only, and on the machine they start with. -/
theorem isSilent_enters {x y : Visit} (hx : x.part.IsSilent) (henters : Enters x y) :
    y.part.IsSilent ∧ y.machine = x.machine := by
  refine ⟨hx.holds henters.holds, ?_⟩
  cases henters with
  | arithRight op r shown p k left => exact (Tree.IsSilent.calm hx.1 _ _ _ left).1
  | compareRight op r p k left => exact (Tree.IsSilent.calm hx.1 _ _ _ left).1
  | choiceYes yes no p k test => exact (Tree.IsSilent.calm hx.1 _ _ _ test).1
  | choiceNo yes no p k test => exact (Tree.IsSilent.calm hx.1 _ _ _ test).1
  | arithLeft => rfl
  | compareLeft => rfl
  | choiceTest => rfl
  | _ => exact hx.elim

/-- A silent part reaches only silent parts, on the machine it began on. -/
theorem isSilent_reaches {x y : Visit} (hx : x.part.IsSilent) (hreaches : Reaches x y) :
    y.part.IsSilent ∧ y.machine = x.machine := by
  induction hreaches with
  | refl => exact ⟨hx, rfl⟩
  | tail _ henters ih =>
    obtain ⟨hsilent, hm⟩ := isSilent_enters ih.1 henters
    exact ⟨hsilent, hm.trans ih.2⟩

end Visit

end Scriptlet
