import Scriptlet.Proofs.Token.Layout

/-!
Where scanning stops. The text before the place of an error scans by itself and does not end
inside a comment, and the characters at the place spell no token: one that no lexeme starts
with, or digits of a number that is too large.
-/
namespace Scriptlet

namespace Lexeme

/-- The last line of the text has a comment in it, which would go on. -/
def InComment (before : List Char) : Prop :=
  ∃ earlier body, before = earlier ++ '#' :: body ∧ '\n' ∉ body

/-- Characters that spell no token where they stand, with the error that says so. -/
inductive Refused : ScanError → List Char → List Char → List Char → Prop
  | stray {before rest : List Char} {c : Char} (blank : ¬ IsBlank c) (comment : c ≠ '#')
      (digit : isDigit c = false) (letter : isLetter c = false) (mark : ∀ m : Mark, m.char ≠ c) :
      Refused (.strayCharacter c (.ofText before)) before [c] rest
  | tooLarge {before ds rest : List Char} (nonempty : ds ≠ [])
      (digits : ∀ d ∈ ds, isDigit d = true) (ends : ∀ c ∈ rest.head?, isDigit c = false)
      (large : 2 ^ 63 ≤ Integer.decimal ds) :
      Refused (.literalTooLarge (String.ofList ds) (.ofText before)) before ds rest

/-- A scan that fails does so at a lexeme with only good ones before it. -/
theorem tokens_eq_error {p : Position} {ls : List Lexeme} {e : ScanError}
    (h : tokens p ls = .error e) :
    ∃ ls₁ l ls₂ ts, ls = ls₁ ++ l :: ls₂ ∧ tokens p ls₁ = .ok ts ∧
      l.kind? (p.after (ls₁.flatMap chars)) = .error e := by
  induction ls generalizing p with
  | nil => simp [tokens] at h
  | cons l ls ih =>
    cases hkind : l.kind? p with
    | error e' =>
      have he : e' = e := by simpa [tokens, hkind, bind, Except.bind] using h
      subst he
      exact ⟨[], l, ls, [], rfl, rfl, hkind⟩
    | ok kind =>
      have hrest : tokens (p.after l.chars) ls = .error e := by
        cases htokens : tokens (p.after l.chars) ls with
        | error e' => simpa [tokens, hkind, htokens, bind, Except.bind] using h
        | ok rest =>
          have hok := tokens_cons_eq_ok.mpr ⟨kind, rest, hkind, htokens, rfl⟩
          rw [hok] at h
          cases h
      obtain ⟨ls₁, l', ls₂, ts, hsplit, hok, herror⟩ := ih hrest
      refine ⟨l :: ls₁, l', ls₂, kind.toList.map (⟨·, p⟩) ++ ts, by rw [hsplit]; rfl, ?_, ?_⟩
      · exact tokens_cons_eq_ok.mpr ⟨kind, ts, hkind, hok, rfl⟩
      · rw [List.flatMap_cons, Position.after_append]
        exact herror

theorem EndsBefore.left {l : Lexeme} {cs ds : List Char} (h : l.EndsBefore (cs ++ ds)) :
    l.EndsBefore cs := by
  intro c hc
  apply h c
  rw [List.head?_append, hc]
  rfl

/-- The first lexemes of a text are the lexemes of the text that they make up. -/
theorem cut_flatMap_chars {cs : List Char} {ls₁ ls₂ : List Lexeme} (h : cut cs = ls₁ ++ ls₂) :
    cut (ls₁.flatMap chars) = ls₁ := by
  induction ls₁ generalizing cs with
  | nil => simp [cut]
  | cons l ls₁ ih =>
    rw [List.cons_append] at h
    obtain ⟨rest, _, hrest, hl, hend⟩ := cut_eq_cons h
    have hchars := flatMap_chars_cut rest
    rw [hrest, List.flatMap_append] at hchars
    rw [← hchars] at hend
    rw [List.flatMap_cons, cut_append hl hend.left, ih hrest]

/-- Each lexeme of a text is well-formed and ends before the lexemes after it. -/
theorem endsBefore_of_cut {cs : List Char} {ls₁ ls₂ : List Lexeme} {l : Lexeme}
    (h : cut cs = ls₁ ++ l :: ls₂) : l.WellFormed ∧ l.EndsBefore (ls₂.flatMap chars) := by
  induction ls₁ generalizing cs with
  | nil =>
    obtain ⟨rest, _, hrest, hl, hend⟩ := cut_eq_cons h
    rw [← hrest, flatMap_chars_cut]
    exact ⟨hl, hend⟩
  | cons l₁ ls₁ ih =>
    rw [List.cons_append] at h
    obtain ⟨rest, _, hrest, _⟩ := cut_eq_cons h
    exact ih hrest

theorem toClass_of_hash {l : Lexeme} (hl : l.WellFormed) (h : '#' ∈ l.chars) :
    l.toClass = .comment := by
  rcases List.mem_cons.mp h with hfirst | hrest
  · rw [toClass, ← hfirst]
    rfl
  · have hcontinues := hl '#' hrest
    cases hclass : l.toClass with
    | comment => rfl
    | _ =>
      rw [hclass] at hcontinues
      cases hcontinues

/-- A lexeme other than a newline does not begin inside a comment. -/
theorem not_inComment {cs : List Char} {ls₁ ls₂ : List Lexeme} {l : Lexeme}
    (h : cut cs = ls₁ ++ l :: ls₂) (hl : l.first ≠ '\n') : ¬ InComment (ls₁.flatMap chars) := by
  induction ls₁ generalizing cs with
  | nil =>
    intro hcomment
    obtain ⟨earlier, body, heq, _⟩ := hcomment
    simp at heq
  | cons l₁ ls₁ ih =>
    intro hcomment
    obtain ⟨earlier, body, heq, hbody⟩ := hcomment
    rw [List.cons_append] at h
    obtain ⟨rest, _, hrest, hwell, hend⟩ := cut_eq_cons h
    rw [List.flatMap_cons] at heq
    have hlater := ih hrest
    rcases List.append_eq_append_iff.mp heq with ⟨more, hmore, hflat⟩ | ⟨more, hmore, hflat⟩
    · exact hlater ⟨more, body, hflat, hbody⟩
    · cases more with
      | nil => exact hlater ⟨[], body, hflat.symm, hbody⟩
      | cons c more =>
        obtain ⟨hc, hbody'⟩ := List.cons.inj hflat
        subst hc
        have hclass := toClass_of_hash hwell (by rw [hmore]; simp)
        have hnewline : ∀ l' ls', ls₁ ++ l :: ls₂ = l' :: ls' → l'.first = '\n' := by
          intro l' ls' hls
          rw [hls] at hrest
          obtain ⟨rest', hrest', _⟩ := cut_eq_cons hrest
          have hstop := hend l'.first (by rw [hrest']; rfl)
          simpa [hclass, Class.continues] using hstop
        cases ls₁ with
        | nil => exact hl (hnewline l ls₂ rfl)
        | cons l' ls' =>
          apply hbody
          rw [hbody', ← hnewline l' _ rfl]
          simp [chars]

/-- A lexeme is refused for its digits or for its only character. -/
theorem kind?_eq_error {l : Lexeme} {p : Position} {e : ScanError} (h : l.kind? p = .error e) :
    (l.toClass = .digits ∧ e = .literalTooLarge l.text p ∧
      ¬ Integer.Fits (Integer.ofDigits l.chars)) ∨
    (l.toClass = .sign ∧ e = .strayCharacter l.first p ∧ Mark.ofChar? l.first = none) := by
  unfold kind? at h
  cases hclass : l.toClass <;> rw [hclass] at h
  case digits =>
    refine Or.inl ⟨rfl, ?_⟩
    rw [← Integer.ofInt?_eq_none_iff]
    generalize Integer.ofInt? (Integer.ofDigits l.chars) = word at h ⊢
    cases word with
    | some n => cases h
    | none =>
      cases h
      exact ⟨rfl, rfl⟩
  case sign =>
    refine Or.inr ⟨rfl, ?_⟩
    cases hmark : Mark.ofChar? l.first with
    | some m => simp [hmark] at h
    | none =>
      simp only [hmark, Except.error.injEq] at h
      exact ⟨h.symm, rfl⟩
  all_goals cases h

/-- A lexeme that stands for nothing the language has is refused, for the reason given. -/
theorem refused_of_kind? {l : Lexeme} {before rest : List Char} {e : ScanError}
    (hl : l.WellFormed) (hend : l.EndsBefore rest) (he : l.kind? (.ofText before) = .error e) :
    Refused e before l.chars rest := by
  rcases kind?_eq_error he with ⟨hclass, he, hfits⟩ | ⟨hclass, he, hmark⟩
  · subst he
    refine .tooLarge (by simp [chars]) (hl.isDigit hclass) ?_ ?_
    · intro c hc
      simpa only [hclass, Class.continues] using hend c hc
    · rw [Integer.ofDigits_eq_decimal] at hfits
      unfold Integer.Fits at hfits
      omega
  · subst he
    obtain ⟨hblank, hhash, hdigit, hletter⟩ := opens_first hclass
    rw [chars, hl.rest_eq_nil hclass]
    refine .stray hblank hhash hdigit hletter fun m hm => ?_
    rw [← hm, Mark.ofChar?_char] at hmark
    cases hmark

theorem first_ne_newline {l : Lexeme} {p : Position} {e : ScanError} (h : l.kind? p = .error e) :
    l.first ≠ '\n' := by
  intro hfirst
  have hclass : l.toClass = .newline := by
    rw [toClass, hfirst]
    rfl
  rcases kind?_eq_error h with ⟨hdigits, _⟩ | ⟨hsign, _⟩
  · rw [hclass] at hdigits
    cases hdigits
  · rw [hclass] at hsign
    cases hsign

end Lexeme

namespace Token

open Lexeme

/-- Scanning is exact. The tokens it gives lie in the text, one after the other, with gaps and
nothing else around them. If it gives an error instead, the text up to the place of the
error scans, that place is in no comment, and what stands there spells no token. -/
theorem scan_exact (source : String) :
    match scan source with
    | .ok ts => Laid [] source.toList ts ∧ ts.Pairwise (fun t u => t.pos.Before u.pos)
    | .error e => ∃ before lexeme rest, source.toList = before ++ (lexeme ++ rest) ∧
        Refused e before lexeme rest ∧ (∃ ts, scan (String.ofList before) = .ok ts) ∧
        ¬ InComment before := by
  cases hscan : scan source with
  | ok ts => exact ⟨scan_eq_ok_iff.mp hscan, (pairwise_tokens hscan).1⟩
  | error e =>
    obtain ⟨ls₁, l, ls₂, ts, hcut, hok, herror⟩ := tokens_eq_error hscan
    have hbefore := cut_flatMap_chars hcut
    have hsource := flatMap_chars_cut source.toList
    rw [Position.start_after] at herror
    rw [hcut, List.flatMap_append, List.flatMap_cons] at hsource
    obtain ⟨hl, hend⟩ := endsBefore_of_cut hcut
    refine ⟨ls₁.flatMap chars, l.chars, ls₂.flatMap chars, hsource.symm,
      refused_of_kind? hl hend herror, ⟨ts, ?_⟩, not_inComment hcut (first_ne_newline herror)⟩
    rw [scan, String.toList_ofList, hbefore]
    exact hok

end Token

end Scriptlet
