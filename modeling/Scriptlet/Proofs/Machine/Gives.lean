import Scriptlet.CSource.Draft

/-!
Runs that succeed, as a relation. `Gives x s a s'` says that `x`, started in the state `s`,
gives `a` and ends in `s'`. Runs of scripts and drafts of C code are both of this kind, and
for each way to build one there is one law that takes a successful run apart.
-/
namespace Scriptlet

section General

variable {ε σ α β : Type}

def Gives (x : ExceptT ε (StateM σ) α) (s : σ) (a : α) (s' : σ) : Prop :=
  x.run s = (.ok a, s')

@[simp] theorem gives_pure (a b : α) (s s' : σ) :
    Gives (pure a : ExceptT ε (StateM σ) α) s b s' ↔ a = b ∧ s = s' := by
  constructor
  · intro h
    cases h
    exact ⟨rfl, rfl⟩
  · rintro ⟨rfl, rfl⟩
    rfl

@[simp] theorem not_gives_throw (e : ε) (s s' : σ) (a : α) :
    ¬ Gives (throw e : ExceptT ε (StateM σ) α) s a s' := by
  intro h
  cases h

/-- A sequence goes on from the state its first part ends in, if that gives something. -/
theorem run_bind (x : ExceptT ε (StateM σ) α) (f : α → ExceptT ε (StateM σ) β) (s : σ) :
    (x >>= f).run s = match x.run s with
      | (.ok a, t) => (f a).run t
      | (.error e, t) => (.error e, t) := by
  change (ExceptT.bind x f).run s = _
  unfold ExceptT.bind ExceptT.run ExceptT.mk
  simp only [bind, StateT.bind, ExceptT.bindCont]
  cases x s with
  | mk r t => cases r <;> rfl

/-- A sequence gives what its second part does, after the first. -/
@[simp] theorem gives_bind (x : ExceptT ε (StateM σ) α) (f : α → ExceptT ε (StateM σ) β)
    (s s' : σ) (b : β) :
    Gives (x >>= f) s b s' ↔ ∃ a t, Gives x s a t ∧ Gives (f a) t b s' := by
  unfold Gives
  rw [run_bind]
  constructor
  · intro h
    cases hx : x.run s with
    | mk r t =>
      cases r with
      | error e => rw [hx] at h; cases h
      | ok a => exact ⟨a, t, rfl, by rw [hx] at h; exact h⟩
  · rintro ⟨a, t, hx, hf⟩
    rw [hx]
    exact hf

theorem Gives.run_bind {x : ExceptT ε (StateM σ) α} {s t : σ} {a : α} (h : Gives x s a t)
    (f : α → ExceptT ε (StateM σ) β) : (x >>= f).run s = (f a).run t := by
  rw [Scriptlet.run_bind, show x.run s = _ from h]

@[simp] theorem gives_map (x : ExceptT ε (StateM σ) α) (f : α → β) (s s' : σ) (b : β) :
    Gives (f <$> x) s b s' ↔ ∃ a, Gives x s a s' ∧ f a = b := by
  rw [map_eq_pure_bind, gives_bind]
  simp only [gives_pure]
  grind

@[simp] theorem gives_get (s s' a : σ) :
    Gives (get : ExceptT ε (StateM σ) σ) s a s' ↔ a = s ∧ s' = s := by
  constructor
  · intro h
    cases h
    exact ⟨rfl, rfl⟩
  · rintro ⟨rfl, rfl⟩
    rfl

@[simp] theorem gives_modify (f : σ → σ) (s s' : σ) (u : Unit) :
    Gives (modify f : ExceptT ε (StateM σ) Unit) s u s' ↔ s' = f s := by
  constructor
  · intro h
    cases h
    rfl
  · rintro rfl
    rfl

/-- An attempt gives one thing at most. -/
theorem Gives.unique {x : ExceptT ε (StateM σ) α} {s t t' : σ} {a b : α} (ha : Gives x s a t)
    (hb : Gives x s b t') : a = b ∧ t = t' := by
  unfold Gives at ha hb
  rw [ha] at hb
  cases hb
  exact ⟨rfl, rfl⟩

end General

namespace Attempt

variable {σ α : Type}

@[simp] theorem gives_ofExcept (r : Except RunError α) (s s' : σ) (a : α) :
    Gives (ofExcept r) s a s' ↔ r = .ok a ∧ s' = s := by
  cases r <;> simp [ofExcept, eq_comm]

@[simp] theorem gives_resolve (view : σ → Bindings) (id : String) (p : Position) (s s' : σ)
    (v : Value) : Gives (resolve view id p) s v s' ↔ (view s).get? id = some v ∧ s' = s := by
  simp only [resolve, gives_bind, gives_get, gives_ofExcept, Bindings.resolve]
  grind

end Attempt

namespace Run

@[simp] theorem not_gives_fail {α : Type} (e : RunError) (m m' : Machine) (a : α) :
    ¬ Gives (fail e : Run α) m a m' :=
  not_gives_throw e m m' a

@[simp] theorem gives_define (id : String) (v : Value) (m m' : Machine) (u : Unit) :
    Gives (define id v) m u m' ↔ m' = { m with bindings := m.bindings.define id v } :=
  gives_modify ..

@[simp] theorem gives_needed (p : Position) (r : Option Value) (m m' : Machine) (v : Value) :
    Gives (needed p r) m v m' ↔ r = some v ∧ m' = m := by
  cases r <;> simp [needed, eq_comm]

end Run

theorem gives_runValue (t : Tree) (m m' : Machine) (v : Value) :
    Gives t.runValue m v m' ↔ Gives t.run m (some v) m' := by
  simp only [Tree.runValue, gives_bind, Run.gives_needed]
  grind

namespace CSource.Drafting

@[simp] theorem gives_define (id : String) (v : Value) (d d' : Draft) (u : Unit) :
    Gives (define id v) d u d' ↔ d' = { d with bindings := d.bindings.define id v } :=
  gives_modify ..

/-- A draft takes over the bindings of an evaluation, whether it gives a value or fails. -/
theorem run_evaluate (t : Tree) (d : Draft) :
    (evaluate t).run d = ((t.runValue.run { bindings := d.bindings }).1,
      { d with bindings := (t.runValue.run { bindings := d.bindings }).2.bindings }) := by
  change (Attempt.ofExcept (t.runValue.run { bindings := d.bindings }).1 : Drafting Value).run
    { d with bindings := (t.runValue.run { bindings := d.bindings }).2.bindings } = _
  generalize t.runValue.run { bindings := d.bindings } = ended
  obtain ⟨r, m⟩ := ended
  cases r <;> rfl

@[simp] theorem gives_evaluate (t : Tree) (d d' : Draft) (v : Value) :
    Gives (evaluate t) d v d' ↔ ∃ m, Gives t.run { bindings := d.bindings } (some v) m ∧
      d' = { d with bindings := m.bindings } := by
  simp only [← gives_runValue]
  unfold Gives
  rw [run_evaluate]
  constructor
  · intro h
    obtain ⟨hvalue, hends⟩ := Prod.mk.inj h
    exact ⟨_, Prod.ext hvalue rfl, hends.symm⟩
  · rintro ⟨m, hrun, rfl⟩
    rw [hrun]

/-- A counter that is taken has the next free name, and the counters go on from there. -/
@[simp] theorem gives_takeCounter (d d' : Draft) (name : String) :
    Gives takeCounter d name d' ↔ name = (d.counters.take d.bindings).1 ∧
      d' = { d with counters := (d.counters.take d.bindings).2 } := by
  simp only [takeCounter, gives_bind, gives_get, gives_modify, gives_pure]
  grind

end CSource.Drafting

end Scriptlet
