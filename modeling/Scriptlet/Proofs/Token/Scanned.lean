import Scriptlet.Proofs.Grammar.Sound
import Scriptlet.Proofs.Token.Spelling

/-!
What can be said of tokens because they were scanned from a text: each stands for a lexeme of
the text, so integers are unsigned and identifiers are names.
-/
namespace Scriptlet

namespace Lexeme

theorem wellFormed_of_mem_cut {cs : List Char} {l : Lexeme} (h : l ∈ cut cs) : l.WellFormed := by
  fun_induction cut cs with
  | case1 => simp at h
  | case2 c cs more ih =>
    rcases List.mem_cons.mp h with rfl | hmem
    · intro d hd
      exact List.all_eq_true.mp List.all_takeWhile d hd
    · exact ih hmem

theorem tokens_cons_eq_ok {p : Position} {l : Lexeme} {ls : List Lexeme} {ts : List Token} :
    tokens p (l :: ls) = .ok ts ↔ ∃ kind rest, l.kind? p = .ok kind ∧
      tokens (p.after l.chars) ls = .ok rest ∧ ts = kind.toList.map (⟨·, p⟩) ++ rest := by
  rw [tokens]
  cases hkind : l.kind? p with
  | error e => simp [bind, Except.bind]
  | ok kind =>
    cases htokens : tokens (p.after l.chars) ls with
    | error e => simp [bind, Except.bind]
    | ok rest =>
      cases kind <;> simp [bind, Except.bind, pure, Except.pure, eq_comm]

/-- Every token comes from a lexeme at its position. -/
theorem exists_lexeme_of_mem_tokens {p : Position} {ls : List Lexeme} {ts : List Token}
    (h : tokens p ls = .ok ts) {t : Token} (ht : t ∈ ts) :
    ∃ l ∈ ls, l.kind? t.pos = .ok (some t.kind) := by
  induction ls generalizing p ts with
  | nil =>
    obtain rfl : [] = ts := by simpa [tokens] using h
    simp at ht
  | cons l ls ih =>
    obtain ⟨kind, rest, hkind, hrest, rfl⟩ := tokens_cons_eq_ok.mp h
    rcases List.mem_append.mp ht with hfirst | hlater
    · obtain ⟨k, hk, rfl⟩ := List.mem_map.mp hfirst
      rw [Option.mem_toList.mp hk] at hkind
      exact ⟨l, by simp, hkind⟩
    · obtain ⟨l', hl', hkind'⟩ := ih hrest hlater
      exact ⟨l', List.mem_cons_of_mem _ hl', hkind'⟩

theorem ofChar?_eq_some {c : Char} {m : Mark} (h : Mark.ofChar? c = some m) : m.char = c := by
  simpa using List.find?_some h

/-- A lexeme stands for the integer its digits write, for the word it is or for its mark. -/
theorem kind?_eq_some {l : Lexeme} {p : Position} {k : Token.Kind}
    (h : l.kind? p = .ok (some k)) :
    (l.toClass = .digits ∧ ∃ n, k = .integer n ∧ n.toInt = Integer.ofDigits l.chars) ∨
    (l.toClass = .word ∧ k = wordKind l.text) ∨
    (l.toClass = .sign ∧ ∃ m, k = .mark m ∧ m.char = l.first) := by
  unfold kind? at h
  cases hclass : l.toClass <;> rw [hclass] at h
  case digits =>
    refine Or.inl ⟨rfl, ?_⟩
    simp only [← Integer.ofInt?_eq_some_iff]
    generalize Integer.ofInt? (Integer.ofDigits l.chars) = word at h ⊢
    cases word with
    | none => cases h
    | some n => cases h; exact ⟨n, rfl, rfl⟩
  case word =>
    cases h
    exact Or.inr (Or.inl ⟨rfl, rfl⟩)
  case sign =>
    refine Or.inr (Or.inr ⟨rfl, ?_⟩)
    cases hmark : Mark.ofChar? l.first with
    | none => simp [hmark] at h
    | some m =>
      simp only [hmark, Except.ok.injEq, Option.some.injEq] at h
      exact ⟨m, h.symm, ofChar?_eq_some hmark⟩
  all_goals cases h

theorem wordKind_ne_integer (s : String) (n : Int64) : wordKind s ≠ .integer n := by
  unfold wordKind
  split <;> nofun

theorem wordKind_eq_identifier {s r : String} (h : wordKind s = .identifier r) :
    s = r ∧ Keyword.ofText? s = none := by
  unfold wordKind at h
  split at h
  · cases h
  · cases h
    exact ⟨rfl, by assumption⟩

/-- A literal has the value of its digits. -/
theorem kind?_eq_integer {l : Lexeme} {p : Position} {n : Int64}
    (h : l.kind? p = .ok (some (.integer n))) : n.toInt = Integer.ofDigits l.chars := by
  rcases kind?_eq_some h with ⟨_, m, hm, hvalue⟩ | ⟨_, hword⟩ | ⟨_, m, hm, _⟩
  · cases hm
    exact hvalue
  · exact absurd hword.symm (wordKind_ne_integer _ n)
  · cases hm

theorem isLetter_of_toClass {c : Char} (h : Class.ofChar c = .word) : isLetter c = true := by
  unfold Class.ofChar at h
  grind

theorem kind?_eq_identifier {l : Lexeme} {p : Position} {s : String}
    (hl : l.WellFormed) (h : l.kind? p = .ok (some (.identifier s))) : IsName s := by
  rcases kind?_eq_some h with ⟨_, m, hm, _⟩ | ⟨hclass, hword⟩ | ⟨_, m, hm, _⟩
  · cases hm
  · obtain ⟨rfl, hkeyword⟩ := wordKind_eq_identifier hword.symm
    refine ⟨l.first, l.rest, by simp [text, chars], isLetter_of_toClass hclass, ?_, hkeyword⟩
    intro d hd
    simpa only [hclass, Class.continues] using hl d hd
  · cases hm

end Lexeme

namespace Token

/-- No literal that is scanned has a sign. -/
theorem scan_unsigned {source : String} {ts : List Token} (h : scan source = .ok ts) :
    Grammar.Unsigned ts := by
  intro t ht n hn
  obtain ⟨l, _, hl⟩ := Lexeme.exists_lexeme_of_mem_tokens h ht
  rw [hn] at hl
  rw [Lexeme.kind?_eq_integer hl]
  exact Int.natCast_nonneg _

theorem isName_of_mem_scan {source : String} {ts : List Token} (h : scan source = .ok ts)
    {t : Token} (ht : t ∈ ts) {s : String} (hs : t.kind = .identifier s) : Lexeme.IsName s := by
  obtain ⟨l, hmem, hl⟩ := Lexeme.exists_lexeme_of_mem_tokens h ht
  rw [hs] at hl
  exact Lexeme.kind?_eq_identifier (Lexeme.wellFormed_of_mem_cut hmem) hl

/-- Names are the texts that scan as an identifier. -/
theorem scan_eq_identifier_iff {s : String} :
    scan s = .ok [⟨.identifier s, .start⟩] ↔ Lexeme.IsName s := by
  constructor
  · intro h
    exact isName_of_mem_scan h (List.mem_singleton.mpr rfl) rfl
  · rintro ⟨c, cs, hs, hc, hcs, hkeyword⟩
    have hstands := Lexeme.stands_word hs hc hcs
    have hend : Lexeme.EndsBefore ⟨c, cs⟩ [] := by simp [Lexeme.EndsBefore]
    have hcut := Lexeme.cut_append hstands.wellFormed hend
    rw [List.append_nil, Lexeme.chars, Lexeme.cut] at hcut
    rw [scan, hs, hcut]
    apply Lexeme.tokens_cons_eq_ok.mpr
    exact ⟨_, [], hstands.kind _, rfl, by simp [Lexeme.wordKind, hkeyword]⟩

end Token

end Scriptlet
