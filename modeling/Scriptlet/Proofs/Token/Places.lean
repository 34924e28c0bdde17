import Scriptlet.Proofs.Token.Scanned

/-!
The places of scanned tokens. Each token stands after the one before it, in the order in which
a text is read, so no two stand at the same place.
-/
namespace Scriptlet

namespace Position

def Before (p q : Position) : Prop :=
  p.compare q = .lt

theorem before_iff {p q : Position} :
    p.Before q ↔ p.line < q.line ∨ p.line = q.line ∧ p.column < q.column := by
  simp [Before, compare, Ordering.then_eq_lt, Nat.compare_eq_lt]

theorem Before.trans {p q r : Position} (h : p.Before q) (h' : q.Before r) : p.Before r := by
  rw [before_iff] at *
  omega

theorem Before.ne {p q : Position} (h : p.Before q) : p ≠ q := by
  rintro rfl
  rw [before_iff] at h
  omega

theorem before_next (p : Position) (c : Char) : p.Before (p.next c) := by
  rw [before_iff, next]
  split <;> simp

/-- Reading at least one character leads on. -/
theorem before_after (p : Position) (c : Char) (cs : List Char) : p.Before (p.after (c :: cs)) := by
  induction cs generalizing p c with
  | nil => exact before_next p c
  | cons d cs ih => exact (before_next p c).trans (ih (p.next c) d)

end Position

namespace Lexeme

/-- Tokens come in the order of their positions, from where the text begins. -/
theorem pairwise_tokens {p : Position} {ls : List Lexeme} {ts : List Token}
    (h : tokens p ls = .ok ts) :
    ts.Pairwise (fun t u => t.pos.Before u.pos) ∧ ∀ t ∈ ts, t.pos = p ∨ p.Before t.pos := by
  induction ls generalizing p ts with
  | nil =>
    obtain rfl : [] = ts := by simpa [tokens] using h
    exact ⟨.nil, by simp⟩
  | cons l ls ih =>
    obtain ⟨kind, rest, _, hrest, rfl⟩ := tokens_cons_eq_ok.mp h
    obtain ⟨hordered, hplaces⟩ := ih hrest
    have hlater : ∀ t ∈ rest, p.Before t.pos := by
      intro t ht
      rcases hplaces t ht with heq | hbefore
      · rw [heq]
        exact p.before_after l.first l.rest
      · exact (p.before_after l.first l.rest).trans hbefore
    cases kind with
    | none => exact ⟨hordered, fun t ht => .inr (hlater t ht)⟩
    | some k =>
      refine ⟨List.pairwise_cons.mpr ⟨hlater, hordered⟩, fun t ht => ?_⟩
      rcases List.mem_cons.mp ht with rfl | ht
      · exact .inl rfl
      · exact .inr (hlater t ht)

end Lexeme

/-- No two tokens of a text have one position. -/
theorem Token.nodup_pos_of_scan {source : String} {ts : List Token} (h : scan source = .ok ts) :
    (ts.map Token.pos).Nodup := by
  obtain ⟨hordered, _⟩ := Lexeme.pairwise_tokens h
  exact List.pairwise_map.mpr (hordered.imp Position.Before.ne)

end Scriptlet
