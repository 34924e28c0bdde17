import Scriptlet.Proofs.Machine.Gives
import Scriptlet.Proofs.Tree.Shape

/-!
The value of an expression as a function of the bindings. Running an expression of which
nothing is shown gives that value and changes nothing; running one that is a statement of
its own also prints the value. The value depends on the names that are used and on nothing
else. For each kind of statement one law says what running it does.
-/
namespace Scriptlet

namespace Tree

/-- An expression of which nothing is shown. -/
def IsSilent : Tree → Prop
  | literal _ shown _ => shown = false
  | name _ shown _ => shown = false
  | arith _ l r shown _ => l.IsSilent ∧ r.IsSilent ∧ shown = false
  | compare _ l r _ => l.IsSilent ∧ r.IsSilent
  | choose c y n _ => c.IsSilent ∧ y.IsSilent ∧ n.IsSilent
  | _ => False

theorem IsQuiet.isSilent : {t : Tree} → t.IsQuiet → t.IsSilent
  | literal _ _ _, h => h
  | name _ _ _, h => h
  | arith _ _ _ _ _, h => ⟨h.1.isSilent, h.2.1.isSilent, h.2.2⟩

theorem IsTest.isSilent {t : Tree} (h : t.IsTest) : t.IsSilent := by
  obtain hquiet | ⟨op, l, r, p, rfl, hl, hr⟩ := h.isQuiet_or_compare
  · exact hquiet.isSilent
  · exact ⟨hl.isSilent, hr.isSilent⟩

theorem IsValue.isSilent {t : Tree} (h : t.IsValue) : t.IsSilent := by
  obtain hquiet | ⟨c, y, n, p, rfl, hc, hy, hn⟩ := h.isQuiet_or_choose
  · exact hquiet.isSilent
  · exact ⟨hc.isSilent, hy.isSilent, hn.isSilent⟩

def value? (b : Bindings) : Tree → Option Value
  | literal n _ _ => some (.integer n)
  | name id _ _ => b.get? id
  | arith op l r _ _ =>
    (l.value? b).bind fun x => (r.value? b).bind fun y => (op.apply x y).toOption
  | compare op l r _ =>
    (l.value? b).bind fun x => (r.value? b).map fun y => .truth (op.apply x y)
  | choose c y n _ => (c.value? b).bind fun x => if x.holds then y.value? b else n.value? b
  | _ => none

/-- The value of an expression depends on its names alone. -/
theorem value?_congr {b b' : Bindings} : (t : Tree) →
    (∀ id ∈ t.names, b.get? id = b'.get? id) → t.value? b = t.value? b'
  | literal _ _ _, _ => rfl
  | name id _ _, h => h id (by simp)
  | arith op l r _ _, h => by
    have hl := value?_congr l fun id hid => h id (by simp [hid])
    have hr := value?_congr r fun id hid => h id (by simp [hid])
    simp only [value?, hl, hr]
  | compare op l r _, h => by
    have hl := value?_congr l fun id hid => h id (by simp [hid])
    have hr := value?_congr r fun id hid => h id (by simp [hid])
    simp only [value?, hl, hr]
  | choose c y n _, h => by
    have hc := value?_congr c fun id hid => h id (by simp [hid])
    have hy := value?_congr y fun id hid => h id (by simp [hid])
    have hn := value?_congr n fun id hid => h id (by simp [hid])
    simp only [value?, hc, hy, hn]
  | program _, _ => rfl
  | assign _ _ _, _ => rfl
  | branch _, _ => rfl
  | loop _ _ _, _ => rfl

end Tree

namespace Run

/-- Printing writes the line of the value, and fails where there is no room for it. -/
theorem run_print (v : Value) (m : Machine) :
    (print v).run m = (if (m.output.write (v.text ++ "\n")).1 then .ok () else
      .error .outputFull, { m with output := (m.output.write (v.text ++ "\n")).2 }) := by
  change (if (m.output.write (v.text ++ "\n")).1 = true then pure () else
    fail .outputFull : Run Unit).run { m with output := (m.output.write (v.text ++ "\n")).2 } = _
  generalize m.output.write (v.text ++ "\n") = written
  obtain ⟨complete, output⟩ := written
  cases complete <;> rfl

/-- Printing succeeds where there is room for the line. -/
@[simp] theorem gives_print (v : Value) (m m' : Machine) (u : Unit) :
    Gives (print v) m u m' ↔ (m.output.write (v.text ++ "\n")).1 = true ∧
      m' = { m with output := (m.output.write (v.text ++ "\n")).2 } := by
  simp only [print, gives_bind, gives_get, gives_modify]
  cases hfits : (m.output.write (v.text ++ "\n")).1 <;> grind [gives_pure, not_gives_fail]

theorem gives_give (v : Value) (shown : Bool) (m m' : Machine) (a : Option Value) :
    Gives (give v shown) m a m' ↔ a = some v ∧
      if shown then Gives (print v) m () m' else m' = m := by
  cases shown with
  | false => simp [give, eq_comm]
  | true =>
    simp only [give, if_true, gives_bind, gives_pure]
    grind

theorem bindings_of_gives_give {v : Value} {shown : Bool} {m m' : Machine} {a : Option Value}
    (h : Gives (give v shown) m a m') : m'.bindings = m.bindings := by
  obtain ⟨_, hends⟩ := (gives_give ..).mp h
  cases shown with
  | false => rw [show m' = m from hends]
  | true =>
    obtain ⟨_, rfl⟩ := (gives_print ..).mp hends
    rfl

end Run

/-- What is written completely is added to the text. -/
theorem Output.text_write {o : Output} {s : String} (h : (o.write s).1 = true) :
    (o.write s).2.text = o.text ++ s := by
  unfold write at h ⊢
  split
  · rfl
  · split <;> simp_all

/-- Running the tree gives its value and changes nothing. -/
def Tree.RunsSilently (t : Tree) : Prop :=
  ∀ m a m', Gives t.run m a m' ↔ ∃ v, t.value? m.bindings = some v ∧ a = some v ∧ m' = m

theorem Tree.RunsSilently.gives_operand {β : Type} {t : Tree} (h : t.RunsSilently)
    (p : Position) (f : Value → Run β) (m m' : Machine) (b : β) :
    Gives (t.run >>= fun a => Run.needed p a >>= f) m b m' ↔
      ∃ v, t.value? m.bindings = some v ∧ Gives (f v) m b m' := by
  simp only [gives_bind, Run.gives_needed]
  constructor
  · rintro ⟨_, _, hrun, v, _, ⟨rfl, rfl⟩, hf⟩
    obtain ⟨_, hv, heq, rfl⟩ := (h _ _ _).mp hrun
    cases heq
    exact ⟨v, hv, hf⟩
  · rintro ⟨v, hv, hf⟩
    exact ⟨some v, m, (h _ _ _).mpr ⟨v, hv, rfl, rfl⟩, v, m, ⟨rfl, rfl⟩, hf⟩

-- Makes the equations of these functions once, before the laws that all open them.
attribute [local simp] Tree.run Tree.runAll Branch.run Branch.runFirst

/-- What an operation does once its operands have their values. -/
theorem gives_run_arith {op : ArithOp} {l r : Tree} (hl : l.RunsSilently) (hr : r.RunsSilently)
    (shown : Bool) (p : Position) (m m' : Machine) (a : Option Value) :
    Gives (Tree.arith op l r shown p).run m a m' ↔
      ∃ v, (Tree.arith op l r shown p).value? m.bindings = some v ∧
        Gives (Run.give v shown) m a m' := by
  simp only [Tree.run, hl.gives_operand, hr.gives_operand, Tree.value?, Option.bind_eq_some_iff]
  constructor
  · rintro ⟨x, hx, y, hy, hgives⟩
    cases happly : op.apply x y with
    | error fault => simp [happly] at hgives
    | ok v =>
      rw [happly] at hgives
      exact ⟨v, ⟨x, hx, y, hy, by rw [happly]; rfl⟩, hgives⟩
  · rintro ⟨v, ⟨x, hx, y, hy, happly⟩, hgives⟩
    cases happly' : op.apply x y with
    | error fault => simp [happly', Except.toOption] at happly
    | ok w =>
      rw [happly'] at happly
      cases happly
      exact ⟨x, hx, y, hy, by simpa [happly'] using hgives⟩

/-- Without anything shown, a run gives the value of the tree and changes nothing. -/
theorem Tree.IsSilent.runsSilently : {t : Tree} → t.IsSilent → t.RunsSilently
  | .literal n _ p, h => by
    cases h
    simp [RunsSilently, Tree.run, Run.gives_give, Tree.value?]
  | .name id _ p, h => by
    cases h
    intro m a m'
    simp only [Tree.run, gives_bind, Attempt.gives_resolve, Run.gives_give, Tree.value?]
    constructor
    · rintro ⟨v, _, ⟨hv, rfl⟩, rfl, heq⟩
      exact ⟨v, hv, rfl, heq⟩
    · rintro ⟨v, hv, rfl, rfl⟩
      exact ⟨v, _, ⟨hv, rfl⟩, rfl, rfl⟩
  | .arith op l r _ p, h => by
    obtain ⟨hl, hr, rfl⟩ := h
    intro m a m'
    rw [gives_run_arith (IsSilent.runsSilently hl) (IsSilent.runsSilently hr)]
    simp only [Run.gives_give]
    rfl
  | .compare op l r p, h => by
    intro m a m'
    simp only [Tree.run, (IsSilent.runsSilently h.1).gives_operand,
      (IsSilent.runsSilently h.2).gives_operand, gives_pure, Tree.value?,
      Option.bind_eq_some_iff, Option.map_eq_some_iff]
    constructor
    · rintro ⟨x, hx, y, hy, rfl, rfl⟩
      exact ⟨_, ⟨x, hx, y, hy, rfl⟩, rfl, rfl⟩
    · rintro ⟨_, ⟨x, hx, y, hy, rfl⟩, rfl, rfl⟩
      exact ⟨x, hx, y, hy, rfl, rfl⟩
  | .choose c y n p, h => by
    intro m a m'
    have hyes := IsSilent.runsSilently h.2.1 m a m'
    have hno := IsSilent.runsSilently h.2.2 m a m'
    simp only [Tree.run, (IsSilent.runsSilently h.1).gives_operand, Tree.value?,
      Option.bind_eq_some_iff]
    constructor
    · rintro ⟨x, hx, hgives⟩
      split at hgives
      · obtain ⟨v, hv, ha, hm⟩ := hyes.mp hgives
        exact ⟨v, ⟨x, hx, by simp [*]⟩, ha, hm⟩
      · obtain ⟨v, hv, ha, hm⟩ := hno.mp hgives
        exact ⟨v, ⟨x, hx, by simp [*]⟩, ha, hm⟩
    · rintro ⟨v, ⟨x, hx, hv⟩, ha, hm⟩
      refine ⟨x, hx, ?_⟩
      split at hv
      · simpa [*] using hyes.mpr ⟨v, hv, ha, hm⟩
      · simpa [*] using hno.mpr ⟨v, hv, ha, hm⟩

/-- Running an expression that is a statement prints its value. -/
theorem Tree.IsShownSum.gives_run {t : Tree} (h : t.IsShownSum) (m m' : Machine)
    (a : Option Value) :
    Gives t.run m a m' ↔ ∃ v, t.value? m.bindings = some v ∧ a = some v ∧
      Gives (Run.print v) m () m' := by
  cases t with
  | literal n shown p =>
    cases h
    simp [Tree.run, Run.gives_give, Tree.value?]
  | name id shown p =>
    cases h
    simp only [Tree.run, gives_bind, Attempt.gives_resolve, Run.gives_give, if_true, Tree.value?]
    constructor
    · rintro ⟨v, _, ⟨hv, rfl⟩, ha, hprint⟩
      exact ⟨v, hv, ha, hprint⟩
    · rintro ⟨v, hv, ha, hprint⟩
      exact ⟨v, m, ⟨hv, rfl⟩, ha, hprint⟩
  | arith op l r shown p =>
    obtain ⟨hl, hr, rfl⟩ := h
    rw [gives_run_arith hl.isSilent.runsSilently hr.isSilent.runsSilently]
    simp only [Run.gives_give, if_true]
  | _ => exact h.elim

/-- An assignment binds its name to the value of its expression. -/
theorem gives_run_assign {v : Tree} (h : v.IsSilent) (id : String) (p : Position)
    (m m' : Machine) (a : Option Value) :
    Gives (Tree.assign id v p).run m a m' ↔ ∃ x, v.value? m.bindings = some x ∧ a = none ∧
      m' = { m with bindings := m.bindings.define id x } := by
  simp only [Tree.run, h.runsSilently.gives_operand, gives_bind, Run.gives_define, gives_pure]
  constructor
  · rintro ⟨x, hx, _, _, rfl, rfl, rfl⟩
    exact ⟨x, hx, rfl, rfl⟩
  · rintro ⟨x, hx, rfl, rfl⟩
    exact ⟨x, hx, (), _, rfl, rfl, rfl⟩

/-- A loop runs its body as often as the value of its bound says. -/
theorem gives_run_loop {b : Tree} (h : b.IsSilent) (body : List Tree) (p : Position)
    (m m' : Machine) (a : Option Value) :
    Gives (Tree.loop b body p).run m a m' ↔ ∃ x n, b.value? m.bindings = some x ∧
      x.count p = .ok n ∧ a = none ∧ Gives (Run.times n (Tree.runAll body)) m () m' := by
  simp only [Tree.run, h.runsSilently.gives_operand, gives_bind, Attempt.gives_ofExcept, gives_pure]
  constructor
  · rintro ⟨x, hx, n, _, ⟨hn, rfl⟩, _, _, hturns, rfl, rfl⟩
    exact ⟨x, n, hx, hn, rfl, hturns⟩
  · rintro ⟨x, n, hx, hn, rfl, hturns⟩
    exact ⟨x, hx, n, m, ⟨hn, rfl⟩, (), m', hturns, rfl, rfl⟩

theorem gives_run_branch (b : Branch) (m m' : Machine) (a : Option Value) :
    Gives (Tree.branch b).run m a m' ↔ a = none ∧ ∃ held, Gives b.run m held m' := by
  simp only [Tree.run, gives_bind, gives_pure]
  constructor
  · rintro ⟨held, _, hrun, rfl, rfl⟩
    exact ⟨rfl, held, hrun⟩
  · rintro ⟨rfl, held, hrun⟩
    exact ⟨held, m', hrun, rfl, rfl⟩

theorem gives_runAll_cons (t : Tree) (ts : List Tree) (m m' : Machine) :
    Gives (Tree.runAll (t :: ts)) m () m' ↔
      ∃ a m₁, Gives t.run m a m₁ ∧ Gives (Tree.runAll ts) m₁ () m' := by
  simp only [Tree.runAll, gives_bind]

theorem Tree.runAll_append (body body' : List Tree) :
    Tree.runAll (body ++ body') = Tree.runAll body >>= fun _ => Tree.runAll body' := by
  induction body with
  | nil => rw [List.nil_append, Tree.runAll, pure_bind]
  | cons t body ih => simp only [List.cons_append, Tree.runAll, ih, bind_assoc]

/-- A branch runs its block if its condition holds, else the others, and if none of those
holds the last block. -/
theorem gives_run_chain {c : Tree} (h : c.IsSilent) (body : List Tree) (others : List Branch)
    (last : List Tree) (p : Position) (m m' : Machine) (held : Bool) :
    Gives (Branch.run ⟨c, body, others, last, p⟩) m held m' ↔
      ∃ x, c.value? m.bindings = some x ∧
        ((x.holds = true ∧ held = true ∧ Gives (Tree.runAll body) m () m') ∨
          (x.holds = false ∧ held = true ∧ Gives (Branch.runFirst others) m true m') ∨
          (x.holds = false ∧ held = false ∧ ∃ m₁, Gives (Branch.runFirst others) m false m₁ ∧
            Gives (Tree.runAll last) m₁ () m')) := by
  simp only [Branch.run, h.runsSilently.gives_operand]
  constructor
  · rintro ⟨x, hx, hrun⟩
    refine ⟨x, hx, ?_⟩
    cases hholds : x.holds with
    | true =>
      simp only [hholds, if_true, gives_bind, gives_pure] at hrun
      obtain ⟨_, _, hbody, rfl, rfl⟩ := hrun
      exact .inl ⟨rfl, rfl, hbody⟩
    | false =>
      simp only [hholds, Bool.false_eq_true, if_false, gives_bind] at hrun
      obtain ⟨found, m₁, hfirst, hrest⟩ := hrun
      cases found with
      | true =>
        obtain ⟨rfl, rfl⟩ := (gives_pure ..).mp hrest
        exact .inr (.inl ⟨rfl, rfl, hfirst⟩)
      | false =>
        rw [if_neg Bool.false_ne_true, gives_bind] at hrest
        obtain ⟨_, _, hlast, hpure⟩ := hrest
        obtain ⟨rfl, rfl⟩ := (gives_pure ..).mp hpure
        exact .inr (.inr ⟨rfl, rfl, m₁, hfirst, hlast⟩)
  · rintro ⟨x, hx, hrun⟩
    refine ⟨x, hx, ?_⟩
    rcases hrun with ⟨hholds, rfl, hbody⟩ | ⟨hholds, rfl, hfirst⟩ | ⟨hholds, rfl, m₁, hfirst, hlast⟩
    · rw [if_pos hholds, gives_bind]
      exact ⟨(), m', hbody, (gives_pure ..).mpr ⟨rfl, rfl⟩⟩
    · rw [if_neg (by simp [hholds]), gives_bind]
      exact ⟨true, m', hfirst, (gives_pure ..).mpr ⟨rfl, rfl⟩⟩
    · rw [if_neg (by simp [hholds]), gives_bind]
      refine ⟨false, m₁, hfirst, ?_⟩
      rw [if_neg Bool.false_ne_true, gives_bind]
      exact ⟨(), m', hlast, (gives_pure ..).mpr ⟨rfl, rfl⟩⟩

/-- A branch without others holds and runs its block, or does nothing. -/
theorem gives_run_elif {c : Tree} (h : c.IsSilent) (body : List Tree) (p : Position)
    (m m' : Machine) :
    (Gives (Branch.run ⟨c, body, [], [], p⟩) m true m' ↔ ∃ x, c.value? m.bindings = some x ∧
      x.holds = true ∧ Gives (Tree.runAll body) m () m') ∧
    (Gives (Branch.run ⟨c, body, [], [], p⟩) m false m' ↔ ∃ x, c.value? m.bindings = some x ∧
      x.holds = false ∧ m' = m) := by
  simp only [gives_run_chain h, Branch.runFirst, Tree.runAll, gives_pure]
  grind

/-- Branches are tried in order, up to the first that holds. -/
theorem gives_runFirst_cons (b : Branch) (bs : List Branch) (m m' : Machine) (held : Bool) :
    Gives (Branch.runFirst (b :: bs)) m held m' ↔ (held = true ∧ Gives b.run m true m') ∨
      ∃ m₁, Gives b.run m false m₁ ∧ Gives (Branch.runFirst bs) m₁ held m' := by
  simp only [Branch.runFirst, gives_bind]
  constructor
  · rintro ⟨found, m₁, hb, hrest⟩
    cases found with
    | true =>
      obtain ⟨rfl, rfl⟩ := (gives_pure ..).mp hrest
      exact .inl ⟨rfl, hb⟩
    | false => exact .inr ⟨m₁, hb, hrest⟩
  · rintro (⟨rfl, hb⟩ | ⟨m₁, hb, hrest⟩)
    · exact ⟨true, m', hb, (gives_pure ..).mpr ⟨rfl, rfl⟩⟩
    · exact ⟨false, m₁, hb, hrest⟩

theorem gives_times_succ (n : Nat) (act : Run Unit) (m m' : Machine) :
    Gives (Run.times (n + 1) act) m () m' ↔
      ∃ m₁, Gives act m () m₁ ∧ Gives (Run.times n act) m₁ () m' := by
  simp only [Run.times, gives_bind]
  constructor
  · rintro ⟨_, m₁, hact, hmore⟩
    exact ⟨m₁, hact, hmore⟩
  · rintro ⟨m₁, hact, hmore⟩
    exact ⟨(), m₁, hact, hmore⟩

/-- One more turn at the end is one more turn. -/
theorem gives_times_snoc {n : Nat} {act : Run Unit} {m m₁ m' : Machine}
    (hturns : Gives (Run.times n act) m () m₁) (hact : Gives act m₁ () m') :
    Gives (Run.times (n + 1) act) m () m' := by
  induction n generalizing m with
  | zero =>
    obtain ⟨_, rfl⟩ := (gives_pure ..).mp hturns
    exact (gives_times_succ ..).mpr ⟨m', hact, (gives_pure ..).mpr ⟨rfl, rfl⟩⟩
  | succ n ih =>
    obtain ⟨m₂, hfirst, hmore⟩ := (gives_times_succ ..).mp hturns
    exact (gives_times_succ ..).mpr ⟨m₂, hfirst, ih hmore⟩

/-- What every turn keeps, all of them keep. -/
theorem times_invariant (inv : Machine → Prop) {act : Run Unit}
    (hstep : ∀ m m', inv m → Gives act m () m' → inv m') {n : Nat} {m m' : Machine} (h : inv m)
    (hturns : Gives (Run.times n act) m () m') : inv m' := by
  induction n generalizing m with
  | zero =>
    obtain ⟨_, rfl⟩ := (gives_pure ..).mp hturns
    exact h
  | succ n ih =>
    obtain ⟨m₁, hfirst, hmore⟩ := (gives_times_succ ..).mp hturns
    exact ih (hstep m m₁ h hfirst) hmore

end Scriptlet
