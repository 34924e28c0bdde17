import Scriptlet.Proofs.Token.Spelling

/-!
The tokens of C, as far as translated scripts use them: words, decimal integers, texts in
quotes, punctuation and preprocessor lines. Punctuation is cut as long as possible, so two
characters that form an operator are never read as two. What lies outside this part of C
is refused here or by the rules that read the tokens.
-/
namespace Scriptlet.C

open Lexeme

inductive Token
  | word (s : String)
  | number (n : Nat)
  /-- A text without its quotes, escapes replaced by what they stand for. -/
  | text (s : String)
  | mark (c : Char)
  /-- An operator of two characters. -/
  | pair (c d : Char)
  /-- A preprocessor line without its sign. -/
  | directive (s : String)
deriving DecidableEq, Repr

namespace Token

def isBlank (c : Char) : Bool :=
  c == '\n' || isSpace c

def isWordChar (c : Char) : Bool :=
  isLetter c || isDigit c

/-- Characters that are read together where they stand together: operators, digraphs, and
the starts of comments, which no rule accepts. -/
def pairs : List (Char × Char) :=
  [('+', '+'), ('-', '-'), ('-', '>'), ('<', '<'), ('>', '>'), ('<', '='), ('>', '='),
   ('=', '='), ('!', '='), ('&', '&'), ('|', '|'), ('+', '='), ('-', '='), ('*', '='),
   ('/', '='), ('%', '='), ('&', '='), ('|', '='), ('^', '='), ('<', ':'), (':', '>'),
   ('<', '%'), ('%', '>'), ('%', ':'), ('/', '/'), ('/', '*')]

/-- The value of a decimal integer. Other numbers are refused, and so is a zero in front,
which would make the number octal. -/
def decimal? (ds : List Char) : Option Nat :=
  if ds.all isDigit && (ds.head? != some '0' || ds.length == 1) then some (Integer.ofDigits ds)
  else none

/-- The text up to the closing quote. The only escape is that of the line end. -/
def quoted? : List Char → Option (List Char)
  | [] => none
  | '"' :: _ => some []
  | '\n' :: _ => none
  | '\\' :: 'n' :: cs => ('\n' :: ·) <$> quoted? cs
  | '\\' :: _ => none
  | c :: cs => (c :: ·) <$> quoted? cs

def afterQuote (cs : List Char) : List Char :=
  (cs.dropWhile (· != '"')).tail

theorem length_afterQuote_le (cs : List Char) : (afterQuote cs).length ≤ cs.length := by
  have hdrop := (List.dropWhile_suffix (l := cs) (· != '"')).length_le
  rw [afterQuote, List.length_tail]
  omega

def scan : List Char → Option (List Token)
  | [] => some []
  | c :: cs =>
    if isBlank c then scan cs
    else if isLetter c then
      (word (String.ofList (c :: cs.takeWhile isWordChar)) :: ·) <$> scan (cs.dropWhile isWordChar)
    else if isDigit c then
      match decimal? (c :: cs.takeWhile isWordChar) with
      | some n => (number n :: ·) <$> scan (cs.dropWhile isWordChar)
      | none => none
    else if c = '"' then
      match quoted? cs with
      | some s => (text (String.ofList s) :: ·) <$> scan (afterQuote cs)
      | none => none
    else if c = '#' then
      (directive (String.ofList (cs.takeWhile (· != '\n'))) :: ·) <$>
        scan (cs.dropWhile (· != '\n'))
    else
      match cs.head?.filter fun d => pairs.contains (c, d) with
      | some d => (pair c d :: ·) <$> scan cs.tail
      | none => (mark c :: ·) <$> scan cs
termination_by cs => cs.length
decreasing_by
  all_goals
    have hword := (List.dropWhile_suffix (l := cs) isWordChar).length_le
    have hline := (List.dropWhile_suffix (l := cs) (· != '\n')).length_le
    have hquote := length_afterQuote_le cs
    simp only [List.length_cons, List.length_tail]
    omega

/-- A text that scans to these tokens whatever follows it. -/
def Lays (cs : List Char) (ts : List Token) : Prop :=
  ∀ rest, scan (cs ++ rest) = (ts ++ ·) <$> scan rest

/-- A text that scans to these tokens unless what follows continues its last word. -/
def Spells (cs : List Char) (ts : List Token) : Prop :=
  ∀ rest, Apart rest → scan (cs ++ rest) = (ts ++ ·) <$> scan rest

theorem lays_nil : Lays [] [] := by
  intro rest
  simp

/-- Texts that scan whatever follows can be put one after the other. -/
theorem Lays.append {cs cs' : List Char} {ts ts' : List Token} (h : Lays cs ts)
    (h' : Lays cs' ts') : Lays (cs ++ cs') (ts ++ ts') := by
  intro rest
  rw [List.append_assoc, h, h']
  simp [Function.comp_def]

theorem Lays.spells {cs : List Char} {ts : List Token} (h : Lays cs ts) : Spells cs ts :=
  fun rest _ => h rest

/-- A word or a number is closed off by a character that belongs to neither. -/
theorem Spells.close {c : Char} {cs cs' : List Char} {ts ts' : List Token} (h : Spells cs ts)
    (h' : Lays (c :: cs') ts') (hc : isWordChar c = false) :
    Lays (cs ++ c :: cs') (ts ++ ts') := by
  intro rest
  have happart : Apart (c :: cs' ++ rest) := by
    intro d hd
    cases hd
    exact hc
  rw [List.append_assoc, h _ happart, h']
  simp [Function.comp_def]

theorem scan_blank {c : Char} (h : isBlank c = true) (cs : List Char) :
    scan (c :: cs) = scan cs := by
  rw [scan, if_pos h]

theorem lays_blank {c : Char} (h : isBlank c = true) : Lays [c] [] := by
  intro rest
  rw [List.cons_append, List.nil_append, scan_blank h]
  simp

theorem lays_blanks (n : Nat) : Lays (List.replicate n ' ') [] := by
  induction n with
  | zero => exact lays_nil
  | succ n ih => exact (lays_blank rfl).append ih

def isPunctuation (c : Char) : Bool :=
  !isBlank c && !isLetter c && !isDigit c && c != '"' && c != '#'

theorem scan_punctuation {c : Char} (h : isPunctuation c = true) (cs : List Char) :
    scan (c :: cs) = match cs.head?.filter fun d => pairs.contains (c, d) with
      | some d => (pair c d :: ·) <$> scan cs.tail
      | none => (mark c :: ·) <$> scan cs := by
  simp only [isPunctuation, Bool.and_eq_true, Bool.not_eq_true', bne_iff_ne, ne_eq] at h
  obtain ⟨⟨⟨⟨hblank, hletter⟩, hdigit⟩, hquote⟩, hline⟩ := h
  rw [scan]
  simp [hblank, hletter, hdigit, hquote, hline]

/-- Brackets, the semicolon and the comma start no operator of two characters. -/
theorem lays_bracket {c : Char} (h : c ∈ ['(', ')', '\x7b', '\x7d', ';', ',']) :
    Lays [c] [mark c] := by
  intro rest
  have hpunctuation : isPunctuation c = true :=
    List.all_eq_true.mp (show List.all _ isPunctuation = true by decide) c h
  have hsingle : (rest.head?.filter fun d => pairs.contains (c, d)) = none := by
    simp only [List.mem_cons, List.not_mem_nil, or_false] at h
    rcases h with rfl | rfl | rfl | rfl | rfl | rfl <;> cases rest <;> simp [pairs]
  rw [List.cons_append, List.nil_append, scan_punctuation hpunctuation, hsingle]
  simp

/-- An operator of one character with a blank after it. -/
theorem lays_operator {c : Char} (h : c ∈ ['=', '<', '>', '+', '-', '*', '/', '?', ':']) :
    Lays [c, ' '] [mark c] := by
  intro rest
  have hpunctuation : isPunctuation c = true :=
    List.all_eq_true.mp (show List.all _ isPunctuation = true by decide) c h
  have hsingle : ((' ' :: rest).head?.filter fun d => pairs.contains (c, d)) = none := by
    simp [pairs]
  rw [List.cons_append, List.cons_append, List.nil_append, scan_punctuation hpunctuation, hsingle]
  simp [scan_blank (c := ' ') rfl]

theorem lays_increment : Lays ['+', '+'] [pair '+' '+'] := by
  intro rest
  have hdouble : (('+' :: rest).head?.filter fun d => pairs.contains ('+', d)) = some '+' := by
    simp [pairs]
  rw [List.cons_append, List.cons_append, List.nil_append, scan_punctuation rfl, hdouble]
  simp

def IsWord (s : String) : Prop :=
  ∃ c cs, s.toList = c :: cs ∧ isLetter c = true ∧ ∀ d ∈ cs, isWordChar d = true

theorem not_isBlank {c : Char} (h : 33 ≤ c.toNat) : isBlank c = false := by
  have hnewline : c ≠ '\n' := by
    rintro rfl
    exact absurd h (by decide)
  simp [isBlank, not_isSpace h, hnewline]

theorem isBlank_of_isLetter {c : Char} (h : isLetter c = true) : isBlank c = false :=
  not_isBlank (by rw [isLetter_iff] at h; omega)

theorem isBlank_of_isDigit {c : Char} (h : isDigit c = true) : isBlank c = false :=
  not_isBlank (by rw [isDigit_iff] at h; omega)

theorem not_isLetter_of_isDigit {c : Char} (h : isDigit c = true) : isLetter c = false := by
  cases hletter : isLetter c with
  | false => rfl
  | true => simp [not_isDigit_of_isLetter hletter] at h

theorem spells_word {s : String} (h : IsWord s) : Spells s.toList [word s] := by
  obtain ⟨c, cs, hs, hc, hcs⟩ := h
  intro rest hrest
  have hs' : String.ofList (c :: cs) = s := by rw [← hs, String.ofList_toList]
  rw [hs, List.cons_append, scan, if_neg (by simp [isBlank_of_isLetter hc]), if_pos hc,
    takeWhile_run hcs hrest, dropWhile_run hcs hrest, hs']
  rfl

theorem eq_zero_of_head?_toDigits (n : Nat) (h : (Nat.toDigits 10 n).head? = some '0') :
    n = 0 := by
  induction n using Nat.strongRecOn with
  | ind n ih =>
    rw [Nat.toDigits_eq_if (by decide)] at h
    by_cases hn : n < 10
    · have hdigit : ∀ m < 10, Nat.digitChar m = '0' → m = 0 := by decide
      rw [if_pos hn] at h
      exact hdigit n hn (by simpa using h)
    · obtain ⟨d, ds, hlist⟩ :=
        List.exists_cons_of_ne_nil (Nat.toDigits_ne_nil (n := n / 10) (b := 10))
      have hzero := ih (n / 10) (by omega) (by simpa [hn, hlist] using h)
      omega

/-- A number is read back from the digits it is written with. -/
theorem decimal?_repr (n : Nat) : decimal? n.repr.toList = some n := by
  obtain ⟨d, ds, hlist, hd, hds, hvalue⟩ := exists_digits n
  have hall : (d :: ds).all isDigit = true := by
    rw [List.all_cons, hd, List.all_eq_true.mpr hds]
    rfl
  have hplain : ((d :: ds).head? != some '0' || (d :: ds).length == 1) = true := by
    by_cases hzero : d = '0'
    · have hn := eq_zero_of_head?_toDigits n (by rw [← Nat.toList_repr, hlist, hzero]; rfl)
      rw [← hlist, hn]
      rfl
    · simp [hzero]
  rw [hlist, decimal?, hall, hplain, hvalue]
  rfl

theorem spells_number (n : Nat) : Spells n.repr.toList [number n] := by
  obtain ⟨d, ds, hlist, hd, hds, _⟩ := exists_digits n
  have hdecimal := decimal?_repr n
  intro rest hrest
  have hds' : ∀ c ∈ ds, isWordChar c = true := by
    intro c hc
    simp [isWordChar, hds c hc]
  rw [hlist] at hdecimal ⊢
  rw [List.cons_append, scan, if_neg (by simp [isBlank_of_isDigit hd]),
    if_neg (by simp [not_isLetter_of_isDigit hd]), if_pos hd, takeWhile_run hds' hrest,
    dropWhile_run hds' hrest, hdecimal]
  rfl

/-- A minus sign right before a number is a sign of its own. -/
theorem spells_negative (n : Nat) : Spells ('-' :: n.repr.toList) [mark '-', number n] := by
  obtain ⟨d, ds, hlist, hd, _, _⟩ := exists_digits n
  intro rest hrest
  have hsingle : ((d :: (ds ++ rest)).head?.filter fun e => pairs.contains ('-', e)) = none := by
    have hnot : ∀ e, ('-', e) ∈ pairs → isDigit e = false := by simp [pairs, isDigit]
    have hd' : ¬ ('-', d) ∈ pairs := fun hmem => by simp [hnot d hmem] at hd
    simpa using hd'
  have hnumber := spells_number n rest hrest
  rw [List.cons_append, scan_punctuation rfl]
  rw [hlist, List.cons_append] at hnumber ⊢
  rw [hsingle, hnumber]
  simp [Function.comp_def]

/-- A text in quotes that ends in an escaped line end. -/
theorem lays_text {s : String} (h : ∀ c ∈ s.toList, c ≠ '"' ∧ c ≠ '\\' ∧ c ≠ '\n') :
    Lays ('"' :: (s.toList ++ ['\\', 'n', '"'])) [text (s ++ "\n")] := by
  intro rest
  have hquoted : ∀ cs : List Char, (∀ c ∈ cs, c ≠ '"' ∧ c ≠ '\\' ∧ c ≠ '\n') →
      quoted? (cs ++ '\\' :: 'n' :: '"' :: rest) = some (cs ++ ['\n']) := by
    intro cs hcs
    induction cs with
    | nil => simp [quoted?]
    | cons c cs ih =>
      obtain ⟨hquote, hescape, hline⟩ := hcs c (by simp)
      rw [List.cons_append, quoted?, ih fun d hd => hcs d (by simp [hd])]
      all_goals simp_all
  have hdrop : (s.toList ++ '\\' :: 'n' :: '"' :: rest).dropWhile (· != '"') = '"' :: rest := by
    rw [List.dropWhile_append_of_pos fun c hc => by simp [(h c hc).1]]
    simp
  have htext : String.ofList (s.toList ++ ['\n']) = s ++ "\n" := by
    rw [String.ofList_append, String.ofList_toList]
  rw [List.cons_append, List.append_assoc, scan]
  simp only [List.cons_append, List.nil_append, hquoted _ h, afterQuote, hdrop, List.tail_cons,
    htext]
  rfl

/-- A line of the preprocessor is one token, its newline included. -/
theorem lays_line {s : String} (h : ∀ c ∈ s.toList, c ≠ '\n') :
    Lays ('#' :: (s.toList ++ ['\n'])) [directive s] := by
  intro rest
  have hs : ∀ c ∈ s.toList, (c != '\n') = true := fun c hc => by simp [h c hc]
  have hstop : ∀ c ∈ ('\n' :: rest).head?, (c != '\n') = false := by simp
  rw [List.cons_append, List.append_assoc, scan]
  simp only [List.cons_append, List.nil_append, takeWhile_run hs hstop, dropWhile_run hs hstop,
    scan_blank (c := '\n') rfl, String.ofList_toList]
  rfl

end Token

end Scriptlet.C
