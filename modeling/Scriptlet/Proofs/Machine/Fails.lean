import Scriptlet.Proofs.Machine.Gives

/-!
Runs that fail, as a relation beside `Gives`. `Fails x s e s'` says that `x`, started in the
state `s`, stops with the error `e` and leaves `s'` behind. Each way to build a run has one
law here too: a run of two parts fails in the first, or the first gives something and the
second fails from there.
-/
namespace Scriptlet

section General

variable {ε σ α β : Type}

def Fails (x : ExceptT ε (StateM σ) α) (s : σ) (e : ε) (s' : σ) : Prop :=
  x.run s = (.error e, s')

@[simp] theorem not_fails_pure (a : α) (s s' : σ) (e : ε) :
    ¬ Fails (pure a : ExceptT ε (StateM σ) α) s e s' := by
  intro h
  cases h

@[simp] theorem fails_throw (e e' : ε) (s s' : σ) :
    Fails (throw e : ExceptT ε (StateM σ) α) s e' s' ↔ e = e' ∧ s = s' := by
  constructor
  · intro h
    cases h
    exact ⟨rfl, rfl⟩
  · rintro ⟨rfl, rfl⟩
    rfl

/-- A sequence fails where its first part does, or where its second does after the first. -/
@[simp] theorem fails_bind (x : ExceptT ε (StateM σ) α) (f : α → ExceptT ε (StateM σ) β)
    (s s' : σ) (e : ε) :
    Fails (x >>= f) s e s' ↔ Fails x s e s' ∨ ∃ a t, Gives x s a t ∧ Fails (f a) t e s' := by
  unfold Fails Gives
  rw [run_bind]
  cases hx : x.run s with
  | mk r t =>
    cases r with
    | error e' =>
      constructor
      · intro h
        cases h
        exact .inl rfl
      · rintro (h | ⟨_, _, heq, _⟩)
        · cases h
          rfl
        · cases heq
    | ok a =>
      constructor
      · intro h
        exact .inr ⟨a, t, rfl, h⟩
      · rintro (h | ⟨_, _, heq, h⟩)
        · cases h
        · cases heq
          exact h

theorem Fails.run_bind {x : ExceptT ε (StateM σ) α} {s t : σ} {e : ε} (h : Fails x s e t)
    (f : α → ExceptT ε (StateM σ) β) : (x >>= f).run s = (.error e, t) := by
  rw [Scriptlet.run_bind, show x.run s = _ from h]

@[simp] theorem not_fails_get (s s' : σ) (e : ε) :
    ¬ Fails (get : ExceptT ε (StateM σ) σ) s e s' := by
  intro h
  cases h

@[simp] theorem not_fails_modify (f : σ → σ) (s s' : σ) (e : ε) :
    ¬ Fails (modify f : ExceptT ε (StateM σ) Unit) s e s' := by
  intro h
  cases h

end General

/-- A name is refused where it has no value, and in no other case. -/
theorem Bindings.resolve_eq_error (b : Bindings) (id : String) (p : Position) (e : RunError) :
    b.resolve id p = .error e ↔ e = .unbound id p ∧ b.contains id = false := by
  rw [resolve, contains_eq_isSome]
  cases b.get? id <;> simp [eq_comm]

namespace Attempt

variable {σ α : Type}

@[simp] theorem fails_ofExcept (r : Except RunError α) (s s' : σ) (e : RunError) :
    Fails (ofExcept r) s e s' ↔ r = .error e ∧ s' = s := by
  cases r <;> simp [ofExcept, eq_comm]

@[simp] theorem fails_resolve (view : σ → Bindings) (id : String) (p : Position) (s s' : σ)
    (e : RunError) : Fails (resolve view id p) s e s' ↔
      (e = .unbound id p ∧ (view s).contains id = false) ∧ s' = s := by
  simp only [resolve, fails_bind, not_fails_get, gives_get, fails_ofExcept,
    Bindings.resolve_eq_error, false_or]
  grind

end Attempt

namespace Run

@[simp] theorem fails_fail {α : Type} (e e' : RunError) (m m' : Machine) :
    Fails (fail e : Run α) m e' m' ↔ e = e' ∧ m = m' :=
  fails_throw e e' m m'

@[simp] theorem fails_needed (p : Position) (r : Option Value) (m m' : Machine) (e : RunError) :
    Fails (needed p r) m e m' ↔ r = none ∧ e = .noValue p ∧ m' = m := by
  cases r <;> simp [needed, eq_comm]

end Run

namespace CSource.Drafting

@[simp] theorem not_fails_define (id : String) (v : Value) (d d' : Draft) (e : RunError) :
    ¬ Fails (define id v) d e d' :=
  not_fails_modify _ d d' e

@[simp] theorem not_fails_takeCounter (d d' : Draft) (e : RunError) :
    ¬ Fails takeCounter d e d' := by
  simp only [takeCounter, fails_bind, not_fails_get, not_fails_modify, not_fails_pure]
  simp

/-- An evaluation that fails leaves the bindings to which the run came. -/
@[simp] theorem fails_evaluate (t : Tree) (d d' : Draft) (e : RunError) :
    Fails (evaluate t) d e d' ↔ ∃ m, Fails t.runValue { bindings := d.bindings } e m ∧
      d' = { d with bindings := m.bindings } := by
  unfold Fails
  rw [run_evaluate]
  constructor
  · intro h
    obtain ⟨herror, hends⟩ := Prod.mk.inj h
    exact ⟨_, Prod.ext herror rfl, hends.symm⟩
  · rintro ⟨m, hrun, rfl⟩
    rw [hrun]

end CSource.Drafting

end Scriptlet
