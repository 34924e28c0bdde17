import Scriptlet.Grammar.Statement

/-!
Successful replies as a relation. `Yields` says that a rule gave a value and left certain
tokens over, and forgets the bound on their number. Each way of joining replies and
each rule then has one law, read from left to right to take a reading apart and from right
to left to put one together.
-/
namespace Scriptlet.Grammar

namespace Reply

variable {α β : Type} {n : Nat}

def Yields (r : Reply α n) (a : α) (rest : List Token) : Prop :=
  ∃ h, r = .done a rest h

@[simp] theorem yields_done (a b : α) (ts rest : List Token) (h : ts.length < n) :
    (done a ts h : Reply α n).Yields b rest ↔ a = b ∧ ts = rest := by
  constructor
  · rintro ⟨_, heq⟩
    cases heq
    exact ⟨rfl, rfl⟩
  · rintro ⟨rfl, rfl⟩
    exact ⟨h, rfl⟩

@[simp] theorem not_yields_stuck (e : GrammarError) (ts : List Token) (a : α)
    (rest : List Token) : ¬ (stuck e ts : Reply α n).Yields a rest := by
  rintro ⟨_, heq⟩
  cases heq

@[simp] theorem yields_later (r : Reply α n) (a : α) (rest : List Token) :
    r.later.Yields a rest ↔ r.Yields a rest := by
  cases r <;> simp [later]

@[simp] theorem yields_map (r : Reply α n) (f : α → β) (b : β) (rest : List Token) :
    (r.map f).Yields b rest ↔ ∃ a, r.Yields a rest ∧ f a = b := by
  cases r with
  | done a ts h =>
    simp only [map, yields_done]
    constructor
    · rintro ⟨hf, hts⟩
      exact ⟨a, ⟨rfl, hts⟩, hf⟩
    · rintro ⟨_, ⟨rfl, hts⟩, hf⟩
      exact ⟨hf, hts⟩
  | stuck e ts => simp [map]

@[simp] theorem yields_andThen (r : Reply α n)
    (f : α → (ts : List Token) → Reply β ts.length) (b : β) (rest : List Token) :
    (r.andThen fun a ts _ => f a ts).Yields b rest ↔
      ∃ a ts, r.Yields a ts ∧ (f a ts).Yields b rest := by
  cases r with
  | stuck e ts => simp [andThen]
  | done a ts h =>
    constructor
    · intro hy
      refine ⟨a, ts, ⟨h, rfl⟩, ?_⟩
      cases hf : f a ts <;> simp_all [andThen]
    · rintro ⟨a', ts', hr, hy⟩
      obtain ⟨rfl, rfl⟩ := (yields_done ..).mp hr
      cases hf : f a ts <;> simp_all [andThen]

@[simp] theorem yields_andMaybe (r : Reply α n)
    (f : α → (ts : List Token) → Reply β (ts.length + 1)) (b : β) (rest : List Token) :
    (r.andMaybe fun a ts _ => f a ts).Yields b rest ↔
      ∃ a ts, r.Yields a ts ∧ (f a ts).Yields b rest := by
  cases r with
  | stuck e ts => simp [andMaybe]
  | done a ts h =>
    constructor
    · intro hy
      refine ⟨a, ts, ⟨h, rfl⟩, ?_⟩
      cases hf : f a ts <;> simp_all [andMaybe]
    · rintro ⟨a', ts', hr, hy⟩
      obtain ⟨rfl, rfl⟩ := (yields_done ..).mp hr
      cases hf : f a ts <;> simp_all [andMaybe]

/-- A rule that succeeds leaves fewer tokens than it was bounded by. -/
theorem Yields.length_lt {r : Reply α n} {a : α} {rest : List Token} (h : r.Yields a rest) :
    rest.length < n :=
  h.1

end Reply

@[simp] theorem expectMark_yields (m : Mark) (ts : List Token) (t : Token)
    (rest : List Token) :
    (expectMark m ts).Yields t rest ↔ ts = t :: rest ∧ t.kind = .mark m := by
  unfold expectMark expect
  cases ts with
  | nil => simp
  | cons k ks =>
    have hclass : k.kind.toClass = .mark m ↔ k.kind = .mark m := by
      cases k.kind <;> simp [Token.Kind.toClass]
    dsimp only
    split <;> grind [Reply.yields_done, Reply.not_yields_stuck]

@[simp] theorem expectName_yields (ts : List Token) (s : String) (rest : List Token) :
    (expectName ts).Yields s rest ↔ ∃ p, ts = ⟨.identifier s, p⟩ :: rest := by
  cases ts with
  | nil => simp [expectName]
  | cons k ks =>
    obtain ⟨kind, p⟩ := k
    cases kind <;> simp [expectName]

theorem map_eq_ok {ε α β : Type} {f : α → β} {x : Except ε α} {b : β} :
    f <$> x = .ok b ↔ ∃ a, x = .ok a ∧ f a = b := by
  cases x <;> simp [Functor.map, Except.map]

end Scriptlet.Grammar
