import Scriptlet.Proofs.Grammar.Yields

/-!
Failed replies as a relation, beside `Yields`. `Sticks` says with which error a rule is stuck
and forgets which tokens it left. A rule of two parts is stuck in its first part, or the first
part yields something and the second is stuck on the tokens left over.
-/
namespace Scriptlet.Grammar

namespace Reply

variable {α β : Type} {n m : Nat}

def Sticks (r : Reply α n) (e : GrammarError) : Prop :=
  ∃ rest, r = .stuck e rest

@[simp] theorem not_sticks_done (a : α) (ts : List Token) (h : ts.length < n)
    (e : GrammarError) : ¬ (done a ts h : Reply α n).Sticks e := by
  rintro ⟨_, heq⟩
  cases heq

@[simp] theorem sticks_stuck (e e' : GrammarError) (ts : List Token) :
    (stuck e ts : Reply α n).Sticks e' ↔ e = e' := by
  constructor
  · rintro ⟨_, heq⟩
    cases heq
    rfl
  · rintro rfl
    exact ⟨ts, rfl⟩

@[simp] theorem sticks_later (r : Reply α n) (e : GrammarError) :
    r.later.Sticks e ↔ r.Sticks e := by
  cases r <;> simp [later]

@[simp] theorem sticks_map (r : Reply α n) (f : α → β) (e : GrammarError) :
    (r.map f).Sticks e ↔ r.Sticks e := by
  cases r <;> simp [map]

theorem exists_yields_done (a : α) (ts : List Token) (h : ts.length < n)
    (P : α → List Token → Prop) :
    (∃ b rest, (done a ts h : Reply α n).Yields b rest ∧ P b rest) ↔ P a ts := by
  constructor
  · rintro ⟨b, rest, hy, hP⟩
    obtain ⟨rfl, rfl⟩ := (yields_done ..).mp hy
    exact hP
  · intro hP
    exact ⟨a, ts, ⟨h, rfl⟩, hP⟩

/-- One after the other, rules are stuck where the first is, or the second behind it. -/
@[simp] theorem sticks_andThen (r : Reply α n)
    (f : α → (ts : List Token) → Reply β ts.length) (e : GrammarError) :
    (r.andThen fun a ts _ => f a ts).Sticks e ↔
      r.Sticks e ∨ ∃ a ts, r.Yields a ts ∧ (f a ts).Sticks e := by
  cases r with
  | stuck e' ts => simp [andThen]
  | done a ts h =>
    have hsecond : ((done a ts h : Reply α n).andThen fun a ts _ => f a ts).Sticks e ↔
        (f a ts).Sticks e := by
      cases hf : f a ts <;> simp [andThen, hf]
    rw [hsecond, exists_yields_done a ts h fun a ts => (f a ts).Sticks e]
    simp

@[simp] theorem sticks_andMaybe (r : Reply α n)
    (f : α → (ts : List Token) → Reply β (ts.length + 1)) (e : GrammarError) :
    (r.andMaybe fun a ts _ => f a ts).Sticks e ↔
      r.Sticks e ∨ ∃ a ts, r.Yields a ts ∧ (f a ts).Sticks e := by
  cases r with
  | stuck e' ts => simp [andMaybe]
  | done a ts h =>
    have hsecond : ((done a ts h : Reply α n).andMaybe fun a ts _ => f a ts).Sticks e ↔
        (f a ts).Sticks e := by
      cases hf : f a ts <;> simp [andMaybe, hf]
    rw [hsecond, exists_yields_done a ts h fun a ts => (f a ts).Sticks e]
    simp

theorem Yields.not_sticks {r : Reply α n} {a : α} {rest : List Token} (h : r.Yields a rest)
    (e : GrammarError) : ¬ r.Sticks e := by
  obtain ⟨hlt, rfl⟩ := h
  exact not_sticks_done a rest hlt e

/-- Two replies that differ at most in the bound on the tokens left over and in the tokens
that a failure leaves. -/
def Same (r : Reply α n) (r' : Reply α m) : Prop :=
  (∀ a rest, r.Yields a rest ↔ r'.Yields a rest) ∧ ∀ e, r.Sticks e ↔ r'.Sticks e

theorem Same.refl (r : Reply α n) : Same r r :=
  ⟨fun _ _ => Iff.rfl, fun _ => Iff.rfl⟩

theorem same_later (r : Reply α n) : Same r.later r :=
  ⟨yields_later r, sticks_later r⟩

theorem same_later_later (r : Reply α n) : Same r.later.later r := by
  constructor <;> simp

end Reply

end Scriptlet.Grammar
