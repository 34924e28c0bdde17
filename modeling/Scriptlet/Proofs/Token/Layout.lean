import Mathlib.Data.List.Induction
import Mathlib.Data.Nat.Digits.Defs
import Scriptlet.Proofs.Token.Places

/-!
How tokens lie in a text. Between two tokens, before the first and after the last there are
gaps: blanks, newlines and comments, a comment reaching up to a newline or the end of the text.
Each token is spelled by characters that cannot be continued, and its place is counted from
the text before it. Scanning finds exactly the tokens that lie in the text in this way.
-/
namespace Scriptlet

namespace Position

/-- The place after a text: its line counts the newlines of the text, its column the characters
since the last of them. -/
def ofText (before : List Char) : Position :=
  ⟨1 + before.count '\n', 1 + (before.reverse.takeWhile (· != '\n')).length⟩

/-- The position behind a text is found by counting its lines and columns. -/
theorem start_after (before : List Char) : start.after before = ofText before := by
  induction before using List.reverseRecOn with
  | nil => rfl
  | append_singleton cs c ih =>
    rw [after_append, ih, after_cons, after_nil, next]
    by_cases hc : c = '\n'
    · subst c
      simp [ofText, Nat.add_assoc]
    · rw [if_neg hc]
      simp [ofText, hc, Nat.add_assoc]

end Position

namespace Integer

def decimal (ds : List Char) : Nat :=
  Nat.ofDigits 10 (ds.reverse.map fun d => d.toNat - '0'.toNat)

theorem ofDigits_eq_decimal (ds : List Char) : ofDigits ds = decimal ds := by
  unfold ofDigits decimal
  induction ds using List.reverseRecOn with
  | nil => rfl
  | append_singleton ds d ih =>
    rw [List.foldl_append, ih]
    simp [Nat.ofDigits_cons, Nat.add_comm]

end Integer

namespace Lexeme

def IsBlank (c : Char) : Prop :=
  isSpace c = true ∨ c = '\n'

/-- The text `gap` holds no token where `rest` follows it. A comment goes on until the line or the
text ends. -/
inductive Gap : List Char → List Char → Prop
  | nil (rest : List Char) : Gap [] rest
  | blank {c : Char} {gap rest : List Char} (blank : IsBlank c) (more : Gap gap rest) :
      Gap (c :: gap) rest
  | comment {body gap rest : List Char} (line : '\n' ∉ body)
      (ends : ∀ c ∈ (gap ++ rest).head?, c = '\n') (more : Gap gap rest) :
      Gap ('#' :: (body ++ gap)) rest

/-- The characters spell a token of this kind where `rest` follows them, and would not spell it
any longer with the first character of `rest`. -/
inductive Spelling : List Char → Token.Kind → List Char → Prop
  | integer {ds rest : List Char} {n : Int64} (nonempty : ds ≠ [])
      (digits : ∀ d ∈ ds, isDigit d = true) (ends : ∀ c ∈ rest.head?, isDigit c = false)
      (value : n.toInt = Integer.decimal ds) : Spelling ds (.integer n) rest
  | keyword {rest : List Char} (k : Keyword) (ends : Apart rest) :
      Spelling k.text.toList (.keyword k) rest
  | identifier {s : String} {rest : List Char} (name : IsName s) (ends : Apart rest) :
      Spelling s.toList (.identifier s) rest
  | mark (m : Mark) (rest : List Char) : Spelling [m.char] (.mark m) rest

end Lexeme

/-- The tokens that lie in a text which stands after the text `before`. -/
inductive Token.Laid : List Char → List Char → List Token → Prop
  | last {before gap : List Char} (skipped : Lexeme.Gap gap []) : Laid before gap []
  | token {before gap lexeme rest : List Char} {k : Token.Kind} {ts : List Token}
      (skipped : Lexeme.Gap gap (lexeme ++ rest)) (spelled : Lexeme.Spelling lexeme k rest)
      (more : Laid (before ++ (gap ++ lexeme)) rest ts) :
      Laid before (gap ++ (lexeme ++ rest)) (⟨k, .ofText (before ++ gap)⟩ :: ts)

namespace Lexeme

theorem IsBlank.not_continues {c : Char} (h : IsBlank c) : (isLetter c || isDigit c) = false := by
  rcases h with hspace | hnewline
  · simp only [isSpace, Bool.or_eq_true, beq_iff_eq] at hspace
    rcases hspace with (((hc | hc) | hc) | hc) | hc <;> subst c <;> rfl
  · subst c
    rfl

theorem tokens_cut_newline (p : Position) (cs : List Char) :
    tokens p (cut ('\n' :: cs)) = tokens (p.next '\n') (cut cs) := by
  have hl : WellFormed ⟨'\n', []⟩ := by simp [WellFormed]
  have hend : EndsBefore ⟨'\n', []⟩ cs := fun _ _ => rfl
  have hcut := cut_append hl hend
  rw [chars, List.singleton_append] at hcut
  rw [hcut]
  exact tokens_cons_of_none rfl _

theorem tokens_cut_blank (p : Position) {c : Char} (hc : IsBlank c) (cs : List Char) :
    tokens p (cut (c :: cs)) = tokens (p.next c) (cut cs) := by
  rcases hc with hspace | hnewline
  · exact tokens_cut_space p hspace cs
  · subst c
    exact tokens_cut_newline p cs

/-- A comment up to the end of its line gives no tokens. -/
theorem tokens_cut_comment (p : Position) {body rest : List Char} (hbody : '\n' ∉ body)
    (hends : ∀ c ∈ rest.head?, c = '\n') :
    tokens p (cut ('#' :: (body ++ rest))) = tokens (p.after ('#' :: body)) (cut rest) := by
  have hl : WellFormed ⟨'#', body⟩ := by
    intro c hc
    have hne : c ≠ '\n' := fun heq => hbody (heq ▸ hc)
    simp [toClass, Class.ofChar, isSpace, Class.continues, hne]
  have hend : EndsBefore ⟨'#', body⟩ rest := by
    intro c hc
    rw [hends c hc]
    rfl
  have hcut := cut_append hl hend
  rw [chars, List.cons_append] at hcut
  rw [hcut]
  exact tokens_cons_of_none rfl _

/-- A gap in front of a text only moves the place on. -/
theorem Gap.tokens_eq {gap rest : List Char} (h : Gap gap rest) (p : Position) :
    tokens p (cut (gap ++ rest)) = tokens (p.after gap) (cut rest) := by
  induction h generalizing p with
  | nil rest => rfl
  | @blank c gap rest hc more ih =>
    rw [List.cons_append, tokens_cut_blank p hc, ih, Position.after_cons]
  | @comment body gap rest hbody hends more ih =>
    rw [List.cons_append, List.append_assoc, tokens_cut_comment p hbody hends, ih,
      ← Position.after_append, List.cons_append]

theorem Gap.blanks {run gap rest : List Char} (hrun : ∀ c ∈ run, IsBlank c) (h : Gap gap rest) :
    Gap (run ++ gap) rest := by
  induction run with
  | nil => exact h
  | cons c run ih =>
    have hmore := ih fun d hd => hrun d (List.mem_cons_of_mem c hd)
    exact .blank (hrun c List.mem_cons_self) hmore

theorem exists_keyword_chars (k : Keyword) : ∃ c cs, k.text.toList = c :: cs ∧
    isLetter c = true ∧ ∀ d ∈ cs, (isLetter d || isDigit d) = true := by
  cases k <;> exact ⟨_, _, rfl, rfl, List.all_eq_true.mp (by decide)⟩

/-- What spells a token is the lexeme that is cut off, and stands for the token. -/
theorem Spelling.exists_lexeme {cs rest : List Char} {k : Token.Kind} (h : Spelling cs k rest) :
    ∃ l : Lexeme, l.chars = cs ∧ l.Stands k ∧ l.EndsBefore rest := by
  cases h with
  | @integer ds rest n hne hds hend hvalue =>
    cases cs with
    | nil => exact absurd rfl hne
    | cons d ds =>
      have hd := hds d List.mem_cons_self
      refine ⟨⟨d, ds⟩, rfl, stands_digits hd (fun c hc => hds c (List.mem_cons_of_mem d hc)) ?_, ?_⟩
      · rw [hvalue, ← Integer.ofDigits_eq_decimal]
        rfl
      · intro c hc
        simpa only [toClass, toClass_of_isDigit hd, Class.continues] using hend c hc
  | keyword k hend =>
    obtain ⟨c, cs, hlist, hc, hcs⟩ := exists_keyword_chars k
    have hstands := stands_word hlist hc hcs
    rw [wordKind, Keyword.ofText?_text] at hstands
    refine ⟨⟨c, cs⟩, hlist.symm, hstands, ?_⟩
    intro d hd
    simpa only [toClass, toClass_of_isLetter hc, Class.continues] using hend d hd
  | @identifier s rest hname hend =>
    obtain ⟨c, cs, hlist, hc, hcs, hkeyword⟩ := hname
    have hstands := stands_word hlist hc hcs
    simp only [wordKind, hkeyword] at hstands
    refine ⟨⟨c, cs⟩, hlist.symm, hstands, ?_⟩
    intro d hd
    simpa only [toClass, toClass_of_isLetter hc, Class.continues] using hend d hd
  | mark m rest =>
    refine ⟨⟨m.char, []⟩, rfl, stands_mark m, ?_⟩
    intro c _
    cases m <;> rfl

def Class.Opens : Class → Char → Prop
  | newline, c => c = '\n'
  | spaces, c => isSpace c = true
  | comment, c => c = '#'
  | digits, c => isDigit c = true
  | word, c => isLetter c = true
  | sign, c => ¬ IsBlank c ∧ c ≠ '#' ∧ isDigit c = false ∧ isLetter c = false

theorem Class.opens_ofChar (c : Char) : (Class.ofChar c).Opens c := by
  unfold Class.ofChar
  split_ifs <;> simp_all [Opens, IsBlank]

theorem opens_first {l : Lexeme} {sort : Class} (h : l.toClass = sort) : sort.Opens l.first := by
  rw [← h]
  exact Class.opens_ofChar l.first

theorem wordKind_cases {s : String} {k : Token.Kind} (h : k = wordKind s) :
    (∃ w : Keyword, w.text = s ∧ k = .keyword w) ∨
      Keyword.ofText? s = none ∧ k = .identifier s := by
  unfold wordKind at h
  cases hword : Keyword.ofText? s with
  | none => exact Or.inr ⟨rfl, by simpa [hword] using h⟩
  | some w =>
    have htext : w.text = s := by simpa using List.find?_some hword
    exact Or.inl ⟨w, htext, by simpa [hword] using h⟩

theorem WellFormed.isDigit {l : Lexeme} (hl : l.WellFormed) (hclass : l.toClass = .digits) :
    ∀ d ∈ l.chars, isDigit d = true := by
  intro d hd
  rcases List.mem_cons.mp hd with hfirst | hrest
  · rw [hfirst]
    exact opens_first hclass
  · simpa only [hclass, Class.continues] using hl d hrest

theorem WellFormed.rest_eq_nil {l : Lexeme} (hl : l.WellFormed) (hclass : l.toClass = .sign) :
    l.rest = [] := by
  rw [List.eq_nil_iff_forall_not_mem]
  intro d hd
  have hcontinues := hl d hd
  rw [hclass] at hcontinues
  cases hcontinues

/-- A lexeme that stands for a token spells it. -/
theorem spelling_of_kind? {l : Lexeme} {p : Position} {k : Token.Kind} {rest : List Char}
    (hl : l.WellFormed) (hend : l.EndsBefore rest) (hk : l.kind? p = .ok (some k)) :
    Spelling l.chars k rest := by
  rcases kind?_eq_some hk with ⟨hclass, n, rfl, hvalue⟩ | ⟨hclass, hword⟩ | ⟨hclass, m, rfl, hm⟩
  · refine .integer (by simp [chars]) (hl.isDigit hclass) ?_ ?_
    · intro c hc
      simpa only [hclass, Class.continues] using hend c hc
    · rw [hvalue, Integer.ofDigits_eq_decimal]
  · have hapart : Apart rest := by
      intro c hc
      simpa only [hclass, Class.continues] using hend c hc
    have hchars : l.chars = l.text.toList := by simp [text]
    rw [hchars]
    rcases wordKind_cases hword with ⟨w, htext, rfl⟩ | ⟨hkeyword, rfl⟩
    · rw [← htext]
      exact .keyword w hapart
    · refine .identifier
        ⟨l.first, l.rest, hchars.symm, isLetter_of_toClass hclass, ?_, hkeyword⟩ hapart
      intro d hd
      simpa only [hclass, Class.continues] using hl d hd
  · rw [chars, hl.rest_eq_nil hclass, ← hm]
    exact .mark m rest

/-- Newlines, spaces and comments alone stand for nothing. -/
theorem kind?_eq_none {l : Lexeme} {p : Position} (h : l.kind? p = .ok none) :
    l.toClass = .newline ∨ l.toClass = .spaces ∨ l.toClass = .comment := by
  unfold kind? at h
  cases hclass : l.toClass <;> rw [hclass] at h
  case digits =>
    generalize Integer.ofInt? (Integer.ofDigits l.chars) = word at h
    cases word <;> cases h
  case sign =>
    generalize Mark.ofChar? l.first = mark at h
    cases mark <;> cases h
  case word => cases h
  all_goals simp

/-- A lexeme that stands for no token is part of a gap. -/
theorem gap_of_kind? {l : Lexeme} {p : Position} {gap rest : List Char} (hl : l.WellFormed)
    (hend : l.EndsBefore (gap ++ rest)) (hk : l.kind? p = .ok none) (h : Gap gap rest) :
    Gap (l.chars ++ gap) rest := by
  rcases kind?_eq_none hk with hclass | hclass | hclass
  · refine .blanks (fun c hc => ?_) h
    rcases List.mem_cons.mp hc with hfirst | hrest
    · exact Or.inr (hfirst.trans (opens_first hclass))
    · have hcontinues := hl c hrest
      rw [hclass] at hcontinues
      cases hcontinues
  · refine .blanks (fun c hc => Or.inl ?_) h
    rcases List.mem_cons.mp hc with hfirst | hrest
    · rw [hfirst]
      exact opens_first hclass
    · simpa only [hclass, Class.continues] using hl c hrest
  · have hhash : l.first = '#' := opens_first hclass
    rw [chars, hhash, List.cons_append]
    refine .comment (fun hmem => ?_) (fun c hc => ?_) h
    · simpa [hclass, Class.continues] using hl '\n' hmem
    · simpa [hclass, Class.continues] using hend c hc

/-- The first lexeme of a text, with what it cannot run into. -/
theorem cut_eq_cons {cs : List Char} {l : Lexeme} {ls : List Lexeme} (h : cut cs = l :: ls) :
    ∃ rest, cs = l.chars ++ rest ∧ cut rest = ls ∧ l.WellFormed ∧ l.EndsBefore rest := by
  cases cs with
  | nil => simp [cut] at h
  | cons c cs =>
    rw [cut] at h
    obtain ⟨hl, hls⟩ := List.cons.inj h
    subst hl
    refine ⟨_, ?_, hls, ?_, ?_⟩
    · simp [chars]
    · intro d hd
      exact List.all_eq_true.mp List.all_takeWhile d hd
    · intro d hd
      have hnot := List.head?_dropWhile_not (Class.ofChar c).continues cs
      rw [hd] at hnot
      simpa [toClass] using hnot

end Lexeme

namespace Token

/-- A text that is laid out as tokens is scanned as these. -/
theorem Laid.tokens_eq {before cs : List Char} {ts : List Token} (h : Laid before cs ts) :
    Lexeme.tokens (.ofText before) (Lexeme.cut cs) = .ok ts := by
  induction h with
  | @last before gap skipped =>
    have hgap := skipped.tokens_eq (.ofText before)
    rw [List.append_nil] at hgap
    rw [hgap]
    simp [Lexeme.cut, Lexeme.tokens]
  | @token before gap lexeme rest k ts skipped spelled more ih =>
    obtain ⟨l, hchars, hstands, hend⟩ := spelled.exists_lexeme
    subst lexeme
    rw [skipped.tokens_eq, ← Position.start_after, ← Position.after_append,
      Lexeme.cut_append hstands.wellFormed hend]
    refine Lexeme.tokens_cons_eq_ok.mpr ⟨some k, ts, hstands.kind _, ?_, ?_⟩
    · rw [← Position.after_append, List.append_assoc, Position.start_after]
      exact ih
    · simp [Position.start_after]

/-- Text without a token joins the gap before the first token. -/
theorem Laid.skip {before cs : List Char} {ts : List Token} {l : Lexeme} {p : Position}
    (hl : l.WellFormed) (hend : l.EndsBefore cs) (hk : l.kind? p = .ok none)
    (h : Laid (before ++ l.chars) cs ts) : Laid before (l.chars ++ cs) ts := by
  cases h with
  | last skipped =>
    have hgap := Lexeme.gap_of_kind? hl (by rwa [List.append_nil]) hk skipped
    exact .last hgap
  | @token _ gap lexeme rest k ts skipped spelled more =>
    have hgap := Lexeme.gap_of_kind? hl hend hk skipped
    have hmore : Laid (before ++ (l.chars ++ gap ++ lexeme)) rest ts := by
      simpa only [List.append_assoc] using more
    have htoken := Laid.token hgap spelled hmore
    simpa only [List.append_assoc] using htoken

/-- A text that is scanned is laid out as its tokens. -/
theorem laid_of_tokens {before cs : List Char} {ts : List Token}
    (h : Lexeme.tokens (.ofText before) (Lexeme.cut cs) = .ok ts) : Laid before cs ts := by
  generalize hls : Lexeme.cut cs = ls at h
  induction ls generalizing before cs ts with
  | nil =>
    have hcs := Lexeme.flatMap_chars_cut cs
    rw [hls, List.flatMap_nil] at hcs
    obtain rfl : [] = ts := by simpa [Lexeme.tokens] using h
    subst hcs
    exact .last (.nil [])
  | cons l ls ih =>
    obtain ⟨rest, hcs, hrest, hl, hend⟩ := Lexeme.cut_eq_cons hls
    subst hcs
    obtain ⟨kind, more, hkind, hmore, hts⟩ := Lexeme.tokens_cons_eq_ok.mp h
    rw [← Position.start_after, ← Position.after_append, Position.start_after] at hmore
    have hlaid := ih hrest hmore
    subst hts
    cases kind with
    | none => exact hlaid.skip hl hend hkind
    | some k =>
      have hspelled := Lexeme.spelling_of_kind? hl hend hkind
      have htoken : Laid before ([] ++ (l.chars ++ rest)) (⟨k, .ofText (before ++ [])⟩ :: more) :=
        .token (.nil _) hspelled hlaid
      simpa using htoken

/-- Scanning gives the tokens that lie in the text. -/
theorem scan_eq_ok_iff {source : String} {ts : List Token} :
    scan source = .ok ts ↔ Laid [] source.toList ts := by
  constructor
  · intro h
    exact laid_of_tokens h
  · intro h
    exact h.tokens_eq

end Token

end Scriptlet
