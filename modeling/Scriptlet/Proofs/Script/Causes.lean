import Scriptlet.Proofs.Grammar.Rooted
import Scriptlet.Proofs.CSource.Declared
import Scriptlet.Proofs.CSource.Induction
import Scriptlet.Proofs.Tree.Safety

/-!
Errors point at the token that caused them. A run of a script, or a draft of its C text, can
only fail at a name, an operator, a loop or when the output is full, and it passes on the
place of the node it fails at. As every such node stands where its token does, the error names
the place of a token of the right kind. What a value is needed from always has one, so
no other error is left.
-/
namespace Scriptlet

/-- The tokens hold one that the error can be blamed on, where it says. A full output is
nobody's fault. -/
def RunError.CausedBy (ts : List Token) : RunError → Prop
  | unbound id p => ⟨.identifier id, p⟩ ∈ ts
  | arithmetic .divisionByZero p => ⟨.mark .slash, p⟩ ∈ ts
  | arithmetic .overflow p => ∃ m ∈ [Mark.plus, .minus, .star], ⟨.mark m, p⟩ ∈ ts
  | notCount _ p => ⟨.keyword .repeatWord, p⟩ ∈ ts
  | noValue _ => False
  | outputFull => True

/-- Only division can have a zero divisor, and it is never too large. -/
theorem ArithOp.causedBy {ts : List Token} {p : Position} {op : ArithOp} {l r : Value}
    {fault : ArithOp.Fault} (h : op.IsRooted ts p) (hfault : op.apply l r = .error fault) :
    (RunError.arithmetic fault p).CausedBy ts := by
  unfold apply at hfault
  by_cases hdiv : op = .div
  · subst hdiv
    rw [if_pos rfl] at hfault
    split at hfault
    · cases hfault
      exact h
    · cases hfault
  · rw [if_neg hdiv] at hfault
    obtain rfl : .overflow = fault := by
      split at hfault
      · split at hfault
        · cases hfault
        · cases hfault
          rfl
      · cases hfault
    cases op with
    | div => exact absurd rfl hdiv
    | _ => exact h

def FailsOnlyBy {σ α : Type} (ts : List Token) (x : Attempt σ α) (s : σ) : Prop :=
  ∀ e s', Fails x s e s' → e.CausedBy ts

section Rules

variable {σ α β : Type} {ts : List Token} {s : σ}

theorem failsOnlyBy_of_ok {x : Attempt σ α} {a : α} {s' : σ} (h : Gives x s a s') :
    FailsOnlyBy ts x s := by
  intro e t hfails
  rw [Fails, show x.run s = _ from h] at hfails
  cases hfails

theorem FailsOnlyBy.bind {x : Attempt σ α} {k : α → Attempt σ β} (hx : FailsOnlyBy ts x s)
    (hk : ∀ a t, Gives x s a t → FailsOnlyBy ts (k a) t) : FailsOnlyBy ts (x >>= k) s := by
  intro e s' hfails
  rcases (fails_bind x k s s' e).mp hfails with hfirst | ⟨a, t, hgives, hsecond⟩
  · exact hx e s' hfirst
  · exact hk a t hgives e s' hsecond

theorem failsOnlyBy_ofExcept {r : Except RunError α} (h : ∀ e, r = .error e → e.CausedBy ts) :
    FailsOnlyBy ts (Attempt.ofExcept r) s := by
  intro e s' hfails
  exact h e ((Attempt.fails_ofExcept ..).mp hfails).1

theorem failsOnlyBy_resolve {view : σ → Bindings} {id : String} {p : Position}
    (h : ⟨.identifier id, p⟩ ∈ ts) : FailsOnlyBy ts (Attempt.resolve view id p) s := by
  intro e s' hfails
  obtain ⟨⟨rfl, _⟩, _⟩ := (Attempt.fails_resolve ..).mp hfails
  exact h

theorem failsOnlyBy_count {v : Value} {p : Position} (h : ⟨.keyword .repeatWord, p⟩ ∈ ts) :
    FailsOnlyBy ts (Attempt.ofExcept (v.count p)) s := by
  refine failsOnlyBy_ofExcept fun e herror => ?_
  unfold Value.count at herror
  split at herror
  · cases herror
  · cases herror
    exact h

end Rules

theorem Run.failsOnlyBy_give {ts : List Token} (v : Value) (shown : Bool) (m : Machine) :
    FailsOnlyBy ts (give v shown) m := by
  cases shown with
  | false => exact failsOnlyBy_of_ok rfl
  | true =>
    refine FailsOnlyBy.bind (fun e m' hfails => ?_) fun _ _ _ => failsOnlyBy_of_ok rfl
    obtain ⟨_, rfl, _⟩ := (fails_print v m m' e).mp hfails
    trivial

/-- What a silent tree gives is a value. -/
theorem Tree.IsSilent.failsOnlyBy_needed {ts : List Token} {t : Tree} {a : Option Value}
    {m m₁ : Machine} (h : t.IsSilent) (hrun : Gives t.run m a m₁) (p : Position) :
    FailsOnlyBy ts (Run.needed p a) m₁ := by
  obtain ⟨v, _, rfl, _⟩ := (h.runsSilently _ _ _).mp hrun
  exact failsOnlyBy_of_ok rfl

def Part.IsRooted (ts : List Token) : Part → Prop
  | tree t => t.IsRooted ts
  | block body => Tree.AllRooted ts body
  | branch b => b.IsRooted ts
  | first bs => Branch.AllRooted ts bs

theorem Part.IsRooted.holds {ts : List Token} {a b : Part} (h : a.IsRooted ts)
    (hholds : a.Holds b) : b.IsRooted ts := by
  cases hholds with
  | program => exact h
  | arithLeft => exact h.1
  | arithRight => exact h.2.1
  | compareLeft => exact h.1
  | compareRight => exact h.2
  | assigned => exact h
  | choiceTest => exact h.1
  | choiceYes => exact h.2.1
  | choiceNo => exact h.2.2
  | chain => exact h
  | branchTest => exact h.1
  | branchBody => exact h.2.1
  | branchOthers => exact h.2.2.1
  | branchLast => exact h.2.2.2
  | firstHead => exact h.1
  | firstTail => exact h.2
  | bound => exact h.1
  | turn => exact h.2.1
  | head => exact h.1
  | tail => exact h.2

/-- No run of a rooted tree fails but by one of its tokens. -/
theorem failsOnlyBy_runRules (ts : List Token) :
    RunRules id (fun a => a.IsProper ∧ a.IsRooted ts) (fun _ run _ m => FailsOnlyBy ts run m) where
  part h hholds := ⟨h.1.holds hholds, h.2.holds hholds⟩
  of_pure _ := failsOnlyBy_of_ok rfl
  bind hrun hnext := hrun.bind hnext
  enters _ h := h
  resolve h := failsOnlyBy_resolve h.2
  give _ _ := Run.failsOnlyBy_give _ _ _
  fault h hfault := failsOnlyBy_ofExcept (r := .error _) fun _ herror => by
    cases herror
    exact ArithOp.causedBy h.2.2.2 hfault
  needed hx hholds hblock hrun := (hx.1.isSilent hholds hblock).failsOnlyBy_needed hrun _
  define _ _ := failsOnlyBy_of_ok rfl
  count h := failsOnlyBy_count h.2.2.2

namespace CSource

variable {ts : List Token}

theorem failsOnlyBy_evaluate {t : Tree} (ht : t.IsSilent) (h : t.IsRooted ts) (d : Draft) :
    FailsOnlyBy ts (Drafting.evaluate t) d := by
  intro e d' hfails
  obtain ⟨m, hrun, _⟩ := (Drafting.fails_evaluate t d d' e).mp hfails
  refine FailsOnlyBy.bind ?_ (fun a _ hgives => ht.failsOnlyBy_needed hgives t.pos) e m hrun
  exact (failsOnlyBy_runRules ts).tree t ⟨.inr (.inr ht), h⟩ 0 _

/-- No draft of a rooted tree fails but by one of its tokens. -/
theorem failsOnlyBy_draftRules (ts : List Token) :
    DraftRules id (fun a => a.IsProper ∧ a.IsRooted ts)
      (fun _ _ x _ d => FailsOnlyBy ts x d) where
  part h hholds := ⟨h.1.holds hholds, h.2.holds hholds⟩
  of_pure _ := failsOnlyBy_of_ok rfl
  bind hx hnext := hx.bind hnext
  after _ h := h
  of_get := failsOnlyBy_of_ok rfl
  resolve h := failsOnlyBy_resolve h.2
  evaluate h heval :=
    failsOnlyBy_evaluate (h.1.isSilent heval.holds heval.ne_block) (h.2.holds heval.holds) _
  define _ _ _ := failsOnlyBy_of_ok rfl
  count h := failsOnlyBy_count h.2.2.2
  takeCounter := failsOnlyBy_of_ok rfl

end CSource

namespace Script

/-- The statements of a script stand on its tokens. -/
theorem allRooted_of_parse {source : String} {body : List Tree}
    (h : parse source = .ok (.program body)) :
    ∃ ts, Token.scan source = .ok ts ∧ Tree.AllRooted ts body := by
  obtain ⟨ts, hscan, hphrase⟩ := phrase_of_parse h
  cases hphrase with
  | statements all => exact ⟨ts, hscan, all.allRooted (List.Subset.refl ts)⟩

/-- A run that fails after the script has been read. -/
theorem exists_fails_of_run {source : String} {output : Output} {e : RunError}
    (h : (run source output).result = .error (.run e)) :
    ∃ body m, parse source = .ok (.program body) ∧
      Fails (Tree.runAll body) { output := output } e m := by
  cases hparse : parse source with
  | error e' =>
    rw [run, hparse] at h
    cases h
    exact absurd hparse (parse_ne_run source e)
  | ok t =>
    obtain ⟨body, rfl⟩ := parse_eq_program hparse
    cases hrun : (Tree.program body).run.run { output := output } with
    | mk result m =>
      rw [run_of_parse hparse hrun] at h
      cases result with
      | ok a => cases h
      | error e' =>
        cases h
        have hfails : Fails (Tree.program body).run { output := output } e m := hrun
        rcases (fails_bind ..).mp hfails with hbody | ⟨_, _, _, hreturn⟩
        · exact ⟨body, m, rfl, hbody⟩
        · exact (not_fails_pure _ _ _ _ hreturn).elim

/-- If a script fails while it runs, on whatever output, or while it is written out as C, then
the text has a token that the error is due to, at the place the error names. -/
theorem error_causedBy_token (source : String) (e : RunError)
    (h : (∃ output, (run source output).result = .error (.run e)) ∨
      ∃ step, toC source step = .error (.run e)) :
    ∃ ts, Token.scan source = .ok ts ∧ e.CausedBy ts := by
  rcases h with ⟨output, hrun⟩ | ⟨step, htoC⟩
  · obtain ⟨body, m, hparse, hfails⟩ := exists_fails_of_run hrun
    obtain ⟨ts, hscan, hrooted⟩ := allRooted_of_parse hparse
    have hstatements := allStatements_of_parse hparse
    refine ⟨ts, hscan, ?_⟩
    exact (failsOnlyBy_runRules ts).block body ⟨hstatements, hrooted⟩ 0 _ e m hfails
  · obtain ⟨body, d, hparse, hfails⟩ := exists_fails_of_toC htoC
    obtain ⟨ts, hscan, hrooted⟩ := allRooted_of_parse hparse
    have hstatements := allStatements_of_parse hparse
    refine ⟨ts, hscan, ?_⟩
    exact (CSource.failsOnlyBy_draftRules ts).block body ⟨hstatements, hrooted⟩ _ e d hfails

/-- The script `let x = 0 - 9223372036854775807 - 1; 5; 2 * (-x);`. -/
def negatedLeast : List Tree :=
  [.assign "x" (.arith .sub (.arith .sub (.literal 0 false ⟨1, 9⟩)
      (.literal 9223372036854775807 false ⟨1, 13⟩) false ⟨1, 11⟩) (.literal 1 false ⟨1, 35⟩) false
      ⟨1, 33⟩) ⟨1, 1⟩,
    .literal 5 true ⟨1, 38⟩,
    .arith .mul (.literal 2 false ⟨1, 41⟩) (.arith .mul (.literal (-1) false ⟨1, 46⟩)
      (.name "x" false ⟨1, 47⟩) false ⟨1, 46⟩) true ⟨1, 43⟩]

/-- The least integer has no opposite, and the sign before its name is blamed for that. -/
theorem negatedLeast_causedBy_sign :
    run "let x = 0 - 9223372036854775807 - 1; 5; 2 * (-x);" {} =
      ⟨.error (.run (.arithmetic .overflow ⟨1, 46⟩)), "5\n"⟩ ∧
    ∃ ts, Token.scan "let x = 0 - 9223372036854775807 - 1; 5; 2 * (-x);" = .ok ts ∧
      ∃ m ∈ [Mark.plus, .minus, .star], ⟨.mark m, ⟨1, 46⟩⟩ ∈ ts := by
  have hparse : parse "let x = 0 - 9223372036854775807 - 1; 5; 2 * (-x);" =
      .ok (.program negatedLeast) := by with_unfolding_all rfl
  have hend : (Tree.program negatedLeast).run.run {} = (.error (.arithmetic .overflow ⟨1, 46⟩),
      ⟨Bindings.empty.define "x" (.integer (-9223372036854775808)), ⟨"5\n", none⟩⟩) := rfl
  have hrun : run "let x = 0 - 9223372036854775807 - 1; 5; 2 * (-x);" {} =
      ⟨.error (.run (.arithmetic .overflow ⟨1, 46⟩)), "5\n"⟩ := run_of_parse hparse hend
  exact ⟨hrun, error_causedBy_token _ _ (.inl ⟨{}, congrArg Outcome.result hrun⟩)⟩

end Script

end Scriptlet
