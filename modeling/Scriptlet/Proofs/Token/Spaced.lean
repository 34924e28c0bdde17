import Mathlib.Data.List.Chain
import Scriptlet.Proofs.Token.Layout

/-!
Texts made by writing tokens one after the other with separators around them. A separator may
be missing except where the texts of two tokens would join: a word with a word or an integer
after it, and two integers. Scanning such a text gives back the tokens that were written.
-/
namespace Scriptlet

namespace Lexeme

/-- Blanks and comments, each comment with the newline that ends it. -/
inductive Separator : List Char → Prop
  | nil : Separator []
  | blank {c : Char} {rest : List Char} (blank : IsBlank c) (more : Separator rest) :
      Separator (c :: rest)
  | comment {body rest : List Char} (line : '\n' ∉ body) (more : Separator rest) :
      Separator ('#' :: (body ++ '\n' :: rest))

theorem Separator.gap {cs : List Char} (h : Separator cs) (rest : List Char) : Gap cs rest := by
  induction h with
  | nil => exact .nil rest
  | blank hc more ih => exact .blank hc ih
  | comment hbody more ih => exact .comment hbody (by simp) (.blank (Or.inr rfl) ih)

theorem Separator.apart {cs : List Char} (h : Separator cs) (hne : cs ≠ []) (rest : List Char) :
    Apart (cs ++ rest) := by
  intro c hc
  cases h with
  | nil => exact absurd rfl hne
  | @blank d ds hd more =>
    obtain rfl : d = c := by simpa using hc
    exact hd.not_continues
  | comment hbody more =>
    obtain rfl : '#' = c := by simpa using hc
    rfl

end Lexeme

namespace Token.Kind

open Lexeme

/-- The kinds of token that a text can show: integers without a sign, identifiers that are names. -/
def IsWritten : Kind → Prop
  | integer n => 0 ≤ n.toInt
  | identifier s => IsName s
  | keyword _ => True
  | mark _ => True
  | trivia _ => False

def isInteger : Kind → Bool
  | integer _ => true
  | _ => false

def isWord : Kind → Bool
  | identifier _ => true
  | keyword _ => true
  | _ => false

/-- Written without anything between them, the two would be read as something else. -/
def joins (k l : Kind) : Bool :=
  k.isWord && (l.isWord || l.isInteger) || k.isInteger && l.isInteger

/-- The text of an integer that is not negative is its digits. -/
theorem text_integer {n : Int64} (h : 0 ≤ n.toInt) : text (integer n) = n.toInt.toNat.repr := by
  obtain ⟨m, hm⟩ := Int.eq_ofNat_of_zero_le h
  simp only [text, hm]
  rfl

/-- The first character of a token's text. -/
theorem exists_first {k : Kind} (h : k.IsWritten) : ∃ c cs, k.text.toList = c :: cs ∧
    (k.isWord = false → isLetter c = false) ∧ (k.isInteger = false → isDigit c = false) := by
  cases k with
  | integer n =>
    obtain ⟨d, ds, hlist, hd, _⟩ := exists_digits n.toInt.toNat
    refine ⟨d, ds, by rw [text_integer h, hlist], fun _ => ?_, nofun⟩
    rw [← Bool.not_eq_true]
    intro hletter
    rw [not_isDigit_of_isLetter hletter] at hd
    cases hd
  | identifier s =>
    obtain ⟨c, cs, hlist, hc, _⟩ := h
    exact ⟨c, cs, hlist, nofun, fun _ => not_isDigit_of_isLetter hc⟩
  | keyword w =>
    obtain ⟨c, cs, hlist, hc, _⟩ := exists_keyword_chars w
    exact ⟨c, cs, hlist, nofun, fun _ => not_isDigit_of_isLetter hc⟩
  | mark m =>
    exact ⟨m.char, [], by simp [text, Mark.text], by cases m <;> decide, by cases m <;> decide⟩
  | trivia t => exact h.elim

def EndsBefore (k : Kind) (rest : List Char) : Prop :=
  ∀ c ∈ rest.head?, (k.isWord = true → (isLetter c || isDigit c) = false) ∧
    (k.isInteger = true → isDigit c = false)

/-- The text of a kind spells it before anything that it does not run into. -/
theorem spelling {k : Kind} {rest : List Char} (h : k.IsWritten) (hend : k.EndsBefore rest) :
    Spelling k.text.toList k rest := by
  cases k with
  | integer n =>
    obtain ⟨d, ds, hlist, hd, hds, hvalue⟩ := exists_digits n.toInt.toNat
    rw [text_integer h, hlist]
    refine .integer (by simp) ?_ (fun c hc => (hend c hc).2 rfl) ?_
    · intro c hc
      rcases List.mem_cons.mp hc with hfirst | hrest
      · rw [hfirst]
        exact hd
      · exact hds c hrest
    · rw [← Integer.ofDigits_eq_decimal, hvalue, Int.toNat_of_nonneg h]
  | identifier s => exact .identifier h fun c hc => (hend c hc).1 rfl
  | keyword w => exact .keyword w fun c hc => (hend c hc).1 rfl
  | mark m =>
    have htext : (mark m).text.toList = [m.char] := by simp [text, Mark.text]
    rw [htext]
    exact .mark m rest
  | trivia t => exact h.elim

end Token.Kind

namespace Token

open Lexeme

/-- A token with its separator ends where the next token starts. -/
theorem Kind.endsBefore_items {k : Kind} {sep : String} {items : List (Kind × String)}
    (hsep : Separator sep.toList) (hitems : ∀ item ∈ items, item.1.IsWritten)
    (hapart : ∀ item ∈ items.head?, k.joins item.1 = true → sep ≠ "") :
    k.EndsBefore (sep.toList ++ items.flatMap fun item => item.1.text.toList ++ item.2.toList) := by
  by_cases hempty : sep = ""
  · subst hempty
    cases items with
    | nil => simp [Kind.EndsBefore]
    | cons item items =>
      obtain ⟨l, sep⟩ := item
      obtain ⟨c, cs, hlist, hletter, hdigit⟩ :=
        Kind.exists_first (hitems (l, sep) List.mem_cons_self)
      have hjoins : k.joins l = false := by
        by_contra hjoins
        exact hapart (l, sep) rfl (by simpa using hjoins) rfl
      intro d hd
      obtain rfl : c = d := by simpa [hlist] using hd
      unfold Kind.joins at hjoins
      grind
  · have hne : sep.toList ≠ [] := by simpa using hempty
    intro c hc
    have hnot := hsep.apart hne _ c hc
    exact ⟨fun _ => hnot, fun _ => (Bool.or_eq_false_iff.mp hnot).2⟩

/-- Texts of tokens with separators between them are laid out as these tokens. -/
theorem exists_laid {first : List Char} {items : List (Kind × String)} (before : List Char)
    (hfirst : Separator first) (hitems : ∀ item ∈ items, item.1.IsWritten)
    (hseps : ∀ item ∈ items, Separator item.2.toList)
    (hapart : items.IsChain fun a b => a.1.joins b.1 = true → a.2 ≠ "") :
    ∃ ts, Laid before (first ++ items.flatMap fun item => item.1.text.toList ++ item.2.toList) ts ∧
      ts.map Token.kind = items.map Prod.fst := by
  induction items generalizing first before with
  | nil =>
    refine ⟨[], ?_, rfl⟩
    rw [List.flatMap_nil, List.append_nil]
    exact .last (hfirst.gap [])
  | cons item items ih =>
    obtain ⟨k, sep⟩ := item
    obtain ⟨hnext, hchain⟩ := List.isChain_cons.mp hapart
    have hlater : ∀ item ∈ items, item.1.IsWritten :=
      fun item hmem => hitems item (List.mem_cons_of_mem _ hmem)
    have hk : k.IsWritten := hitems (k, sep) List.mem_cons_self
    have hsep : Separator sep.toList := hseps (k, sep) List.mem_cons_self
    obtain ⟨ts, hlaid, hkinds⟩ := ih (before ++ (first ++ k.text.toList)) hsep hlater
      (fun item hmem => hseps item (List.mem_cons_of_mem _ hmem)) hchain
    have hspelled := Kind.spelling hk (Kind.endsBefore_items hsep hlater hnext)
    have htoken := Laid.token (hfirst.gap _) hspelled hlaid
    refine ⟨⟨k, .ofText (before ++ first)⟩ :: ts, ?_, ?_⟩
    · rw [List.flatMap_cons, List.append_assoc]
      exact htoken
    · rw [List.map_cons, List.map_cons, hkinds]

/-- Tokens that are written with separators are scanned as they were written. -/
theorem scan_spaced {first : String} {items : List (Kind × String)}
    (hfirst : Separator first.toList) (hitems : ∀ item ∈ items, item.1.IsWritten)
    (hseps : ∀ item ∈ items, Separator item.2.toList)
    (hapart : items.IsChain fun a b => a.1.joins b.1 = true → a.2 ≠ "") :
    ∃ ts, scan (first ++ String.join (items.map fun item => item.1.text ++ item.2)) = .ok ts ∧
      ts.map Token.kind = items.map Prod.fst := by
  obtain ⟨ts, hlaid, hkinds⟩ := exists_laid [] hfirst hitems hseps hapart
  refine ⟨ts, scan_eq_ok_iff.mpr ?_, hkinds⟩
  simpa [String.toList_join, List.flatMap_map] using hlaid

def closeTokens : List (Kind × String) :=
  [(.integer 12, ""), (.identifier "ab", ""), (.mark .less, ""), (.keyword .letWord, "#é <\n"),
    (.identifier "letter", "\t"), (.integer 7, ""), (.keyword .ifWord, "")]

theorem closeTokens_scanned :
    Separator " ".toList ∧ (∀ item ∈ closeTokens, item.1.IsWritten) ∧
    (∀ item ∈ closeTokens, Separator item.2.toList) ∧
    closeTokens.IsChain (fun a b => a.1.joins b.1 = true → a.2 ≠ "") ∧
    ∃ ts, scan " 12ab<let#é <\nletter\t7if" = .ok ts ∧
      ts.map Token.kind = closeTokens.map Prod.fst := by
  have hfirst : Separator " ".toList := .blank (Or.inl rfl) .nil
  have hitems : ∀ item ∈ closeTokens, item.1.IsWritten := by
    have hab : IsName "ab" := ⟨'a', ['b'], rfl, rfl, List.all_eq_true.mp (by decide), by decide⟩
    have hletter : IsName "letter" :=
      ⟨'l', "etter".toList, rfl, rfl, List.all_eq_true.mp (by decide), by decide⟩
    simp [closeTokens, Kind.IsWritten, hab, hletter]
  have hseps : ∀ item ∈ closeTokens, Separator item.2.toList := by
    have hcomment : Separator "#é <\n".toList :=
      .comment (show '\n' ∉ "é <".toList by decide) .nil
    have htab : Separator "\t".toList := .blank (Or.inl rfl) .nil
    have hnone : Separator "".toList := .nil
    simp only [closeTokens, List.forall_mem_cons]
    exact ⟨hnone, hnone, hnone, hcomment, htab, hnone, hnone, nofun⟩
  have hapart : closeTokens.IsChain (fun a b => a.1.joins b.1 = true → a.2 ≠ "") := by
    simp [closeTokens, Kind.joins, Kind.isWord, Kind.isInteger]
  exact ⟨hfirst, hitems, hseps, hapart, scan_spaced hfirst hitems hseps hapart⟩

end Token

end Scriptlet
