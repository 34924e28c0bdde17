import Mathlib.Order.Bounds.Basic
import Scriptlet.Proofs.CSource.Induction
import Scriptlet.Proofs.CSource.OwnNames

/-!
The numbers of loop counters. A name for a counter is sought by trying number after number, and
the search ends because only finitely many names are bound and different numbers have different
names. The next search goes on after the number that was found, so however the bindings change
in between, no name is handed out twice. Drafts take their counters in this way, also those that
fail halfway, so that of all loops that are drafted one after another no two have the
same counter.
-/
namespace Scriptlet.CSource

namespace Counters

inductive Seeks (b : Bindings) : Counters → String → Counters → Prop
  | found {c : Counters} (unbound : b.contains (name c.next) = false) :
      Seeks b c (name c.next) ⟨c.next + 1⟩
  | passed {c c' : Counters} {s : String} (bound : b.contains (name c.next) = true)
      (later : Seeks b ⟨c.next + 1⟩ s c') : Seeks b c s c'

/-- The number taken is the first from `next` on whose name is not bound. -/
theorem free_isLeast (c : Counters) (b : Bindings) :
    IsLeast {n | c.next ≤ n ∧ b.contains (name n) = false} (c.free b) := by
  refine ⟨c.free_spec b, fun n hn => ?_⟩
  obtain ⟨hnext, hunbound⟩ := hn
  by_contra hlt
  unfold free at hlt
  cases hfind : (List.range' c.next b.size).find? fun k => !b.contains (name k) with
  | some k =>
    have hbefore := (List.find?_range'_eq_some.mp hfind).2.2 n hnext
    rw [hfind, Option.getD_some, not_le] at hlt
    simpa [hunbound] using hbefore hlt
  | none =>
    have hall := List.find?_range'_eq_none.mp hfind n hnext
    rw [hfind, Option.getD_none, not_le] at hlt
    simpa [hunbound] using hall hlt

/-- The search ends at the first number whose name is not bound. -/
theorem seeks_of_isLeast {b : Bindings} {c : Counters} {n : Nat}
    (h : IsLeast {n | c.next ≤ n ∧ b.contains (name n) = false} n) :
    Seeks b c (name n) ⟨n + 1⟩ := by
  -- The numbers still to be passed over before `n` become fewer.
  obtain ⟨k, hk⟩ := Nat.exists_eq_add_of_le h.1.1
  induction k generalizing c with
  | zero =>
    subst hk
    exact .found h.1.2
  | succ k ih =>
    have hbound : b.contains (name c.next) = true := by
      by_contra hunbound
      have hle := h.2 ⟨le_rfl, eq_false_of_ne_true hunbound⟩
      omega
    refine .passed hbound (ih ⟨⟨?_, h.1.2⟩, fun m hm => ?_⟩ ?_)
    · change c.next + 1 ≤ n
      omega
    · exact h.2 ⟨Nat.le_of_succ_le hm.1, hm.2⟩
    · change n = c.next + 1 + k
      omega

def takeAll (c : Counters) : List Bindings → List String
  | [] => []
  | b :: bs => (c.take b).1 :: (c.take b).2.takeAll bs

/-- The numbers of calls, the first of which starts at `c`: each call ends, with the least number
after the one before whose name is not bound. -/
inductive HandsOut : Counters → List Bindings → List Nat → Prop
  | nil (c : Counters) : HandsOut c [] []
  | cons {c : Counters} {b : Bindings} {bs : List Bindings} {n : Nat} {ns : List Nat}
      (ends : Seeks b c (name n) ⟨n + 1⟩)
      (least : IsLeast {k | c.next ≤ k ∧ b.contains (name k) = false} n)
      (more : HandsOut ⟨n + 1⟩ bs ns) : HandsOut c (b :: bs) (n :: ns)

/-- Each of any number of calls ends. -/
theorem exists_handsOut (c : Counters) (bs : List Bindings) :
    ∃ ns, c.takeAll bs = ns.map name ∧ HandsOut c bs ns := by
  induction bs generalizing c with
  | nil => exact ⟨[], rfl, .nil c⟩
  | cons b bs ih =>
    obtain ⟨ns, hnames, hmore⟩ := ih (c.take b).2
    have hleast := c.free_isLeast b
    exact ⟨c.free b :: ns, congrArg (_ :: ·) hnames, .cons (seeks_of_isLeast hleast) hleast hmore⟩

/-- The numbers that are handed out go up, from where the first search starts. -/
theorem HandsOut.pairwise {c : Counters} {bs : List Bindings} {ns : List Nat}
    (h : HandsOut c bs ns) : ns.Pairwise (· < ·) ∧ ∀ n ∈ ns, c.next ≤ n := by
  induction h with
  | nil c => exact ⟨.nil, by simp⟩
  | @cons c b bs n ns _ least _ ih =>
    have hnext : c.next ≤ n := least.1.1
    refine ⟨List.pairwise_cons.mpr ⟨ih.2, ih.1⟩, fun k hk => ?_⟩
    rcases List.mem_cons.mp hk with rfl | hk
    · exact hnext
    · have hlater : n + 1 ≤ k := ih.2 k hk
      omega

/-- Numbers that go up have different names. -/
theorem nodup_names {ns : List Nat} (h : ns.Pairwise (· < ·)) : (ns.map name).Nodup :=
  (h.imp Nat.ne_of_lt).map _ fun _ _ hne heq => hne (name_injective heq)

/-- The names have numbers that go upwards from `low` on and stay below `high`. -/
def Numbered (low : Nat) (names : List String) (high : Nat) : Prop :=
  low ≤ high ∧ ∃ ns : List Nat, names = ns.map name ∧ ns.Pairwise (· < ·) ∧
    ∀ n ∈ ns, low ≤ n ∧ n < high

namespace Numbered

variable {low mid high : Nat} {names names' : List String}

theorem nil (h : low ≤ high) : Numbered low [] high :=
  ⟨h, [], rfl, .nil, by simp⟩

theorem append (h : Numbered low names mid) (h' : Numbered mid names' high) :
    Numbered low (names ++ names') high := by
  obtain ⟨hle, ns, rfl, hordered, hbounds⟩ := h
  obtain ⟨hle', ns', rfl, hordered', hbounds'⟩ := h'
  refine ⟨hle.trans hle', ns ++ ns', by simp, ?_, fun n hn => ?_⟩
  · refine List.pairwise_append.mpr ⟨hordered, hordered', fun n hn n' hn' => ?_⟩
    have hlt := (hbounds n hn).2
    have hle := (hbounds' n' hn').1
    omega
  · rcases List.mem_append.mp hn with hfirst | hsecond
    · have hfirst := hbounds n hfirst
      omega
    · have hsecond := hbounds' n hsecond
      omega

theorem nodup (h : Numbered low names high) : names.Nodup := by
  obtain ⟨_, ns, rfl, hordered, _⟩ := h
  exact nodup_names hordered

end Numbered

/-- A call hands out a number and goes on after it. -/
theorem numbered_take (c : Counters) (b : Bindings) :
    Numbered c.next [(c.take b).1] (c.take b).2.next := by
  have hnext := (c.free_spec b).1
  refine ⟨Nat.le_succ_of_le hnext, [c.free b], rfl, List.pairwise_singleton _ _, ?_⟩
  exact List.forall_mem_singleton.mpr ⟨hnext, Nat.lt_succ_self _⟩

end Counters

section Rules

variable {α β : Type} {before : List String} {counters : α → List String} {d : Draft}

/-- However `x` ends, it takes numbers upwards. If it gives something, then the counters of that
are those from `before` and the ones that `x` has taken. -/
def NumbersOn (before : List String) (counters : α → List String) (x : Drafting α) (d : Draft) :
    Prop :=
  match x.run d with
  | (.ok a, d') => ∃ taken, counters a = before ++ taken ∧
      Counters.Numbered d.counters.next taken d'.counters.next
  | (.error _, d') => d.counters.next ≤ d'.counters.next

namespace NumbersOn

theorem of_pure {a : α} (h : counters a = before) :
    NumbersOn before counters (pure a : Drafting α) d :=
  ⟨[], by simpa using h, .nil le_rfl⟩

/-- What leaves the counters alone can stand anywhere. -/
theorem of_still {x : Drafting α} (h : (x.run d).2.counters = d.counters) :
    NumbersOn before (fun _ => before) x d := by
  unfold NumbersOn
  cases hrun : x.run d with
  | mk r d' =>
    rw [hrun] at h
    cases r with
    | ok a => exact ⟨[], by simp, .nil (by rw [h])⟩
    | error e => exact le_of_eq (by rw [h])

theorem bind {counters' : β → List String} {x : Drafting α} {k : α → Drafting β}
    (hx : NumbersOn before counters x d)
    (hk : ∀ a d₁, Gives x d a d₁ → NumbersOn (counters a) counters' (k a) d₁) :
    NumbersOn before counters' (x >>= k) d := by
  unfold NumbersOn at hx ⊢
  rw [run_bind]
  cases hrun : x.run d with
  | mk r d₁ =>
    rw [hrun] at hx
    cases r with
    | error e => exact hx
    | ok a =>
      obtain ⟨taken, hcounters, hnumbered⟩ := hx
      have hsecond := hk a d₁ hrun
      unfold NumbersOn at hsecond
      dsimp only
      cases hrun' : (k a).run d₁ with
      | mk r' d' =>
        rw [hrun'] at hsecond
        cases r' with
        | error e => exact hnumbered.1.trans hsecond
        | ok b =>
          obtain ⟨taken', hcounters', hnumbered'⟩ := hsecond
          refine ⟨taken ++ taken', ?_, hnumbered.append hnumbered'⟩
          rw [hcounters', hcounters, List.append_assoc]

/-- A draft of a part, when counters have been taken before. -/
theorem after {x : Drafting α} (h : NumbersOn [] counters x d) (before : List String) :
    NumbersOn before (fun a => before ++ counters a) x d := by
  unfold NumbersOn at h ⊢
  cases hrun : x.run d with
  | mk r d' =>
    rw [hrun] at h
    cases r with
    | error e => exact h
    | ok a =>
      obtain ⟨taken, hcounters, hnumbered⟩ := h
      exact ⟨taken, congrArg (before ++ ·) hcounters, hnumbered⟩

end NumbersOn

theorem numbersOn_ofExcept (r : Except RunError α) :
    NumbersOn before (fun _ => before) (Attempt.ofExcept r) d := by
  cases r <;> exact .of_still rfl

/-- Drafts obey the rules for numbering their counters. -/
theorem numbersOn_draftRules : DraftRules id (fun _ => True)
    (fun before counters x _ d => NumbersOn before counters x d) where
  part _ _ := trivial
  of_pure h := .of_pure h
  bind hx hnext := hx.bind hnext
  after before h := h.after before
  of_get := .of_still rfl
  resolve _ := NumbersOn.bind (.of_still rfl) fun _ _ _ => numbersOn_ofExcept _
  evaluate _ _ := .of_still (by rw [Drafting.run_evaluate])
  define _ _ _ := .of_still rfl
  count _ := numbersOn_ofExcept _
  takeCounter {_ d} := ⟨[_], rfl, Counters.numbered_take d.counters d.bindings⟩

end Rules

/-- Drafts one after another, each from where the one before ended, whether it failed or not. -/
def draftEach : List Tree → Draft → List (Except RunError Code)
  | [], _ => []
  | t :: ts, d => ((t.draft .statement).run d).1 :: draftEach ts ((t.draft .statement).run d).2

def emitted : Except RunError Code → List String
  | .ok code => code.counters
  | .error _ => []

/-- One draft: what it emits is numbered from where it starts up to where it ends. -/
theorem numbered_emitted (t : Tree) (d : Draft) :
    Counters.Numbered d.counters.next (emitted ((t.draft .statement).run d).1)
      ((t.draft .statement).run d).2.counters.next := by
  have hdraft := numbersOn_draftRules.tree t trivial .statement d
  unfold NumbersOn at hdraft
  cases hrun : (t.draft .statement).run d with
  | mk r d' =>
    rw [hrun] at hdraft
    cases r with
    | error e => exact .nil hdraft
    | ok code =>
      obtain ⟨taken, hcounters, hnumbered⟩ := hdraft
      rw [emitted, hcounters]
      exact hnumbered

/-- The counters of drafts made one after another are numbered upwards. -/
theorem exists_numbered_draftEach (ts : List Tree) (d : Draft) :
    ∃ high, Counters.Numbered d.counters.next ((draftEach ts d).flatMap emitted) high := by
  induction ts generalizing d with
  | nil => exact ⟨_, .nil le_rfl⟩
  | cons t ts ih =>
    obtain ⟨high, hmore⟩ := ih ((t.draft .statement).run d).2
    exact ⟨high, (numbered_emitted t d).append hmore⟩

/-- Counters are never used twice. However the bindings change from one call to the next, each
call ends with the name of the least number after the one before that is not bound, and all names
are different. So are the counters of all loops in what is drafted one tree after another,
nested or not, whatever trees they are and also if drafts between them fail. -/
theorem counters_never_repeat :
    (∀ bs : List Bindings, ∃ ns : List Nat,
      Counters.takeAll {} bs = ns.map (fun n => "_r" ++ n.repr) ∧ Counters.HandsOut {} bs ns ∧
      (Counters.takeAll {} bs).Nodup) ∧
    ∀ (ts : List Tree) (d : Draft), ((draftEach ts d).flatMap emitted).Nodup := by
  refine ⟨fun bs => ?_, fun ts d => ?_⟩
  · obtain ⟨ns, hnames, hnumbers⟩ := Counters.exists_handsOut {} bs
    refine ⟨ns, hnames, hnumbers, ?_⟩
    rw [hnames]
    exact Counters.nodup_names hnumbers.pairwise.1
  · obtain ⟨high, hnumbered⟩ := exists_numbered_draftEach ts d
    exact hnumbered.nodup

end Scriptlet.CSource
