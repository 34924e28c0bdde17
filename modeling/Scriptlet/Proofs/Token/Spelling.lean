import Scriptlet.Token.Scan

/-!
Scanning a text put together from the texts of tokens. A lexeme in front of a text is cut off
whole when its own characters continue it and the text after it does not; the tokens of the
text then are the one it stands for and those of the rest. `Spells` says so without places,
and there is one law for each kind of token and one for blanks.
-/
namespace Scriptlet

theorem takeWhile_run {p : Char → Bool} {run rest : List Char} (hrun : ∀ c ∈ run, p c = true)
    (hstop : ∀ c ∈ rest.head?, p c = false) : (run ++ rest).takeWhile p = run := by
  have hrest : rest.takeWhile p = [] := by
    cases rest with
    | nil => rfl
    | cons c cs => simp [hstop c rfl]
  rw [List.takeWhile_append_of_pos hrun, hrest, List.append_nil]

theorem dropWhile_run {p : Char → Bool} {run rest : List Char} (hrun : ∀ c ∈ run, p c = true)
    (hstop : ∀ c ∈ rest.head?, p c = false) : (run ++ rest).dropWhile p = rest := by
  rw [List.dropWhile_append_of_pos hrun]
  cases rest with
  | nil => rfl
  | cons c cs => simp [hstop c rfl]

namespace Lexeme

def WellFormed (l : Lexeme) : Prop :=
  ∀ c ∈ l.rest, l.toClass.continues c = true

def EndsBefore (l : Lexeme) (rest : List Char) : Prop :=
  ∀ c ∈ rest.head?, l.toClass.continues c = false

/-- A well-formed lexeme is cut off before anything that does not continue it. -/
theorem cut_append {l : Lexeme} {rest : List Char} (hl : l.WellFormed) (hend : l.EndsBefore rest) :
    cut (l.chars ++ rest) = l :: cut rest := by
  have htake := takeWhile_run hl hend
  have hdrop := dropWhile_run hl hend
  unfold toClass at htake hdrop
  rw [chars, List.cons_append, cut]
  simp only [htake, hdrop]

/-- The characters `cs` are the text of tokens of the kinds `ks`, wherever they stand. -/
def Spells (cs : List Char) (ks : List Token.Kind) : Prop :=
  ∀ p, ∃ ts, tokens p (cut cs) = .ok ts ∧ ts.map Token.kind = ks

theorem spells_nil : Spells [] [] := by
  intro p
  exact ⟨[], by simp [cut, tokens], rfl⟩

structure Stands (l : Lexeme) (k : Token.Kind) : Prop where
  wellFormed : l.WellFormed
  kind : ∀ p, l.kind? p = .ok (some k)

/-- A lexeme before a text adds the token it stands for. -/
theorem Stands.spells {l : Lexeme} {k : Token.Kind} {rest : List Char} {ks : List Token.Kind}
    (hl : l.Stands k) (hend : l.EndsBefore rest) (hrest : Spells rest ks) :
    Spells (l.chars ++ rest) (k :: ks) := by
  intro p
  obtain ⟨ts, hts, hks⟩ := hrest (p.after l.chars)
  refine ⟨⟨k, p⟩ :: ts, ?_, by simp [hks]⟩
  rw [cut_append hl.wellFormed hend, tokens, hl.kind p]
  simp [hts, bind, Except.bind, pure, Except.pure]

theorem toClass_of_isSpace {c : Char} (h : isSpace c = true) : Class.ofChar c = .spaces := by
  have hc : c ≠ '\n' := by
    rintro rfl
    exact absurd h (by decide)
  simp [Class.ofChar, hc, h]

/-- A lexeme that stands for no token only moves the place on. -/
theorem tokens_cons_of_none {p : Position} {l : Lexeme} (h : l.kind? p = .ok none)
    (ls : List Lexeme) : tokens p (l :: ls) = tokens (p.after l.chars) ls := by
  rw [tokens, h]
  cases tokens (p.after l.chars) ls <;> simp [bind, Except.bind, pure, Except.pure]

theorem kind?_spaces {c : Char} (h : isSpace c = true) (cs : List Char) (p : Position) :
    kind? ⟨c, cs⟩ p = .ok none := by
  unfold kind? toClass
  rw [toClass_of_isSpace h]

/-- A blank in front only moves the place on, also where it joins blanks that follow. -/
theorem tokens_cut_space (p : Position) {c : Char} (hc : isSpace c = true) (cs : List Char) :
    tokens p (cut (c :: cs)) = tokens (p.next c) (cut cs) := by
  rw [cut, toClass_of_isSpace hc, tokens_cons_of_none (kind?_spaces hc _ p), chars,
    Position.after_cons]
  cases cs with
  | nil => rfl
  | cons d ds =>
    by_cases hd : isSpace d = true
    · rw [cut, toClass_of_isSpace hd, tokens_cons_of_none (kind?_spaces hd _ _)]
      simp [Class.continues, hd, chars]
    · simp [Class.continues, hd, Position.after_nil]

theorem Spells.space {c : Char} {cs : List Char} {ks : List Token.Kind} (hc : isSpace c = true)
    (h : Spells cs ks) : Spells (c :: cs) ks := by
  intro p
  rw [tokens_cut_space p hc]
  exact h (p.next c)

theorem isDigit_iff {c : Char} : isDigit c = true ↔ 48 ≤ c.toNat ∧ c.toNat ≤ 57 := by
  simp [isDigit, Char.le_def, UInt32.le_iff_toNat_le]

theorem isLetter_iff {c : Char} : isLetter c = true ↔
    (97 ≤ c.toNat ∧ c.toNat ≤ 122) ∨ (65 ≤ c.toNat ∧ c.toNat ≤ 90) ∨ c.toNat = 95 := by
  have hscore : c = '_' ↔ c.toNat = 95 := by
    rw [← Char.toNat_inj]
    rfl
  simp [isLetter, Char.le_def, UInt32.le_iff_toNat_le, hscore, or_assoc]

theorem not_isDigit_of_isLetter {c : Char} (h : isLetter c = true) : isDigit c = false := by
  rw [isLetter_iff] at h
  rw [← Bool.not_eq_true, isDigit_iff]
  omega

theorem not_isSpace {c : Char} (h : 33 ≤ c.toNat) : isSpace c = false := by
  rw [← Bool.not_eq_true]
  intro hspace
  simp only [isSpace, Bool.or_eq_true, beq_iff_eq] at hspace
  rcases hspace with (((rfl | rfl) | rfl) | rfl) | rfl <;> exact absurd h (by decide)

theorem toClass_of_isLetter {c : Char} (h : isLetter c = true) : Class.ofChar c = .word := by
  have hspace : isSpace c = false := not_isSpace (by rw [isLetter_iff] at h; omega)
  have hnewline : c ≠ '\n' := by
    rintro rfl
    exact absurd h (by decide)
  have hcomment : c ≠ '#' := by
    rintro rfl
    exact absurd h (by decide)
  simp [Class.ofChar, hnewline, hspace, hcomment, not_isDigit_of_isLetter h, h]

theorem toClass_of_isDigit {c : Char} (h : isDigit c = true) : Class.ofChar c = .digits := by
  have hspace : isSpace c = false := not_isSpace (by rw [isDigit_iff] at h; omega)
  have hnewline : c ≠ '\n' := by
    rintro rfl
    exact absurd h (by decide)
  have hcomment : c ≠ '#' := by
    rintro rfl
    exact absurd h (by decide)
  simp [Class.ofChar, hnewline, hspace, hcomment, h]

theorem stands_mark (m : Mark) : Stands ⟨m.char, []⟩ (.mark m) where
  wellFormed := by simp [WellFormed]
  kind p := by cases m <;> rfl

/-- A name: a letter, then letters and digits, and no keyword. -/
def IsName (s : String) : Prop :=
  ∃ c cs, s.toList = c :: cs ∧ isLetter c = true ∧ (∀ d ∈ cs, (isLetter d || isDigit d) = true) ∧
    Keyword.ofText? s = none

theorem stands_word {s : String} {c : Char} {cs : List Char} (hs : s.toList = c :: cs)
    (hc : isLetter c = true) (hcs : ∀ d ∈ cs, (isLetter d || isDigit d) = true) :
    Stands ⟨c, cs⟩ (wordKind s) where
  wellFormed := by
    intro d hd
    simpa [toClass, toClass_of_isLetter hc, Class.continues] using hcs d hd
  kind p := by
    have htext : text ⟨c, cs⟩ = s := by rw [text, chars, ← hs, String.ofList_toList]
    simp [kind?, toClass, toClass_of_isLetter hc, htext]

theorem kind?_digits {l : Lexeme} {n : Int64} (hclass : l.toClass = .digits)
    (hn : n.toInt = Integer.ofDigits l.chars) (p : Position) :
    l.kind? p = .ok (some (.integer n)) := by
  have hword := Integer.ofInt?_eq_some_iff.mpr hn
  unfold kind?
  -- The conversion is kept closed: computing it would compare with `2 ^ 63` in unary.
  generalize Integer.ofInt? (Integer.ofDigits l.chars) = word at hword
  subst hword
  rw [hclass]

theorem stands_digits {d : Char} {ds : List Char} {n : Int64} (hd : isDigit d = true)
    (hds : ∀ c ∈ ds, isDigit c = true) (hn : n.toInt = Integer.ofDigits (chars ⟨d, ds⟩)) :
    Stands ⟨d, ds⟩ (.integer n) where
  wellFormed := by
    intro c hc
    simpa [toClass, toClass_of_isDigit hd, Class.continues] using hds c hc
  kind := kind?_digits (toClass_of_isDigit hd) hn

theorem isDigit_of_mem_repr {n : Nat} {c : Char} (h : c ∈ n.repr.toList) :
    isDigit c = true := by
  rw [Nat.toList_repr] at h
  have hdigit := Nat.isDigit_of_mem_toDigits (by decide) (by decide) h
  simpa [isDigit, Char.isDigit, Char.le_def] using hdigit

theorem mem_repr {n : Int} {c : Char} (h : c ∈ n.repr.toList) : c = '-' ∨ isDigit c = true := by
  rw [Int.repr_eq_if] at h
  split at h
  · exact .inr (isDigit_of_mem_repr h)
  · rw [String.toList_append, List.mem_append] at h
    rcases h with hsign | hnumber
    · exact .inl (by simpa using hsign)
    · exact .inr (isDigit_of_mem_repr hnumber)

/-- The digits of a number read back as that number. -/
theorem exists_digits (n : Nat) : ∃ d ds, n.repr.toList = d :: ds ∧ isDigit d = true ∧
    (∀ c ∈ ds, isDigit c = true) ∧ Integer.ofDigits (d :: ds) = n := by
  have hdigits : ∀ c ∈ n.repr.toList, isDigit c = true := fun c => isDigit_of_mem_repr
  have hvalue : Integer.ofDigits n.repr.toList = n := by
    rw [Nat.toList_repr]
    exact Nat.ofDigitChars_ten_toDigits
  cases hlist : n.repr.toList with
  | nil =>
    rw [Nat.toList_repr] at hlist
    exact absurd hlist Nat.toDigits_ne_nil
  | cons d ds =>
    rw [hlist] at hdigits hvalue
    exact ⟨d, ds, rfl, hdigits d (by simp), fun c hc => hdigits c (by simp [hc]), hvalue⟩

def Apart (rest : List Char) : Prop :=
  ∀ c ∈ rest.head?, (isLetter c || isDigit c) = false

theorem spells_mark (m : Mark) {rest : List Char} {ks : List Token.Kind} (h : Spells rest ks) :
    Spells (m.char :: rest) (.mark m :: ks) := by
  have hend : EndsBefore ⟨m.char, []⟩ rest := by
    intro c _
    cases m <;> rfl
  exact (stands_mark m).spells hend h

theorem spells_word {s : String} {c : Char} {cs rest : List Char} {ks : List Token.Kind}
    (hs : s.toList = c :: cs) (hc : isLetter c = true)
    (hcs : ∀ d ∈ cs, (isLetter d || isDigit d) = true) (hrest : Apart rest)
    (h : Spells rest ks) : Spells (s.toList ++ rest) (wordKind s :: ks) := by
  have hend : EndsBefore ⟨c, cs⟩ rest := by
    intro d hd
    simpa only [toClass, toClass_of_isLetter hc, Class.continues] using hrest d hd
  rw [hs]
  exact (stands_word hs hc hcs).spells hend h

theorem spells_name {s : String} {rest : List Char} {ks : List Token.Kind} (hs : IsName s)
    (hrest : Apart rest) (h : Spells rest ks) :
    Spells (s.toList ++ rest) (.identifier s :: ks) := by
  obtain ⟨c, cs, hlist, hc, hcs, hkeyword⟩ := hs
  have hword := spells_word hlist hc hcs hrest h
  simpa only [wordKind, hkeyword] using hword

/-- A decimal before something apart from it is spelled as a literal. -/
theorem spells_integer {a : Int64} {n : Nat} {rest : List Char} {ks : List Token.Kind}
    (ha : a.toInt = n) (hrest : Apart rest) (h : Spells rest ks) :
    Spells (n.repr.toList ++ rest) (.integer a :: ks) := by
  obtain ⟨d, ds, hlist, hd, hds, hvalue⟩ := exists_digits n
  have hend : EndsBefore ⟨d, ds⟩ rest := by
    intro c hc
    have hnot := hrest c hc
    simp only [Bool.or_eq_false_iff] at hnot
    simpa only [toClass, toClass_of_isDigit hd, Class.continues] using hnot.2
  have hstands : Stands ⟨d, ds⟩ (.integer a) := stands_digits hd hds (by rw [chars, hvalue, ha])
  rw [hlist]
  exact hstands.spells hend h

end Lexeme

/-- A text that spells tokens is scanned as these. -/
theorem Token.exists_scan {source : String} {ks : List Token.Kind}
    (h : Lexeme.Spells source.toList ks) :
    ∃ ts, Token.scan source = .ok ts ∧ ts.map Token.kind = ks :=
  h .start

end Scriptlet
