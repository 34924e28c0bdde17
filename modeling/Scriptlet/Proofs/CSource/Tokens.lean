import Scriptlet.CSource.Layout
import Scriptlet.Proofs.C.Syntax
import Scriptlet.Proofs.CSource.Shape

/-!
The tokens of C code. Code that is made of variables and statements in their places is laid
out as a text that scans to its tokens, however far its lines are indented.
-/
namespace Scriptlet.CSource

open C C.Token

/-- A word that C can use as a variable beside the frame of the program. -/
def IsVariable (s : String) : Prop :=
  IsWord s ∧ isFree s = true

def inParens (needed : Bool) (ts : List C.Token) : List C.Token :=
  if needed then .mark '(' :: (ts ++ [.mark ')']) else ts

def inBraces (ts : List C.Token) : List C.Token :=
  .mark '\x7b' :: (ts ++ [.mark '\x7d'])

mutual

def Code.tokens : Code → List C.Token
  | .main body => C.opening ++ Code.tokensAll body ++ C.closing
  | .number n =>
    if n.toInt < 0 then [.mark '-', .number (-n.toInt).toNat] else [.number n.toInt.toNat]
  | .var id => [.word id]
  | .arith op l r =>
    inParens (l.needsParens op false) l.tokens ++
      .mark op.mark.char :: inParens (r.needsParens op true) r.tokens
  | .compare op l r => l.tokens ++ .mark op.mark.char :: r.tokens
  | .choose c y n => c.tokens ++ .mark '?' :: (y.tokens ++ .mark ':' :: n.tokens)
  | .printNumber n =>
    [.word "printf", .mark '(', .text (n.toInt.repr ++ "\n"), .mark ')', .mark ';']
  | .print v =>
    .word "printf" :: .mark '(' :: .text "%i\n" :: .mark ',' ::
      (v.tokens ++ [.mark ')', .mark ';'])
  | .set declares id v =>
    (if declares then [.word "int"] else []) ++ .word id :: .mark '=' :: (v.tokens ++ [.mark ';'])
  | .branch chain => chain.tokens
  | .loop counter turns body =>
    [.word "for", .mark '(', .word "int", .word counter, .mark '=', .number 0, .mark ';',
      .word counter, .mark '<', .number turns, .mark ';', .word counter, .pair '+' '+',
      .mark ')'] ++ inBraces (Code.tokensAll body)

def Code.tokensAll : List Code → List C.Token
  | [] => []
  | c :: cs => c.tokens ++ Code.tokensAll cs

def Chain.tokens : Chain → List C.Token
  | .mk test body others last =>
    .word "if" :: .mark '(' :: (test.tokens ++ .mark ')' :: (inBraces (Code.tokensAll body) ++
      (Chain.elseTokens others ++
        if last.isEmpty then [] else .word "else" :: inBraces (Code.tokensAll last))))

def Chain.elseTokens : List Chain → List C.Token
  | [] => []
  | c :: cs => .word "else" :: (c.tokens ++ Chain.elseTokens cs)

end

-- Makes the equations of these functions once, before the laws that all open them.
attribute [local simp] Code.text Code.block Chain.text Chain.elses Code.tokens Code.tokensAll
  Chain.tokens Chain.elseTokens

theorem spells_literal (n : Int64) : Spells n.toInt.repr.toList (Code.number n).tokens := by
  rw [Int.repr_eq_if, Code.tokens]
  by_cases hneg : n.toInt < 0
  · have hsign := spells_negative (-n.toInt).toNat
    simpa [hneg, Int.not_le.mpr hneg] using hsign
  · have hnumber := spells_number n.toInt.toNat
    simpa [hneg, Int.not_lt.mp hneg] using hnumber

theorem spells_parenthesized {s : String} {ts : List C.Token} (h : Spells s.toList ts)
    (needed : Bool) : Spells (parenthesized needed s).toList (inParens needed ts) := by
  cases needed with
  | false => exact h
  | true =>
    have hclose := h.close (lays_bracket (c := ')') (by simp)) rfl
    have hboth := (lays_bracket (c := '(') (by simp)).append hclose
    simpa [parenthesized, inParens] using hboth.spells

/-- Two texts with an operator between them and a blank on each side of it. -/
theorem spells_between {cs cs' : List Char} {ts ts' : List C.Token} (h : Spells cs ts) {c : Char}
    (hc : c ∈ ['=', '<', '>', '+', '-', '*', '/', '?', ':']) (h' : Spells cs' ts') :
    Spells (cs ++ ' ' :: c :: ' ' :: cs') (ts ++ .mark c :: ts') := by
  have hoperator := (lays_blank (c := ' ') rfl).append (lays_operator hc)
  have hleft := h.close hoperator rfl
  intro rest hrest
  have hright := hleft (cs' ++ rest)
  rw [h' rest hrest] at hright
  simpa [Function.comp_def] using hright

theorem operator_char_mem {m : Mark} (h : m.isOperator = true) :
    m.char ∈ ['=', '<', '>', '+', '-', '*', '/', '?', ':'] := by
  revert h
  cases m <;> decide

/-- The text of arithmetic spells its tokens; so do those of tests and values. -/
theorem Code.IsSum.spells (step : Nat) : {c : Code} → c.IsSum IsWord →
    Spells (c.text step 0).toList c.tokens
  | .number n, _ => by
    rw [Code.text]
    exact spells_literal n
  | .var id, h => by
    rw [Code.text, Code.tokens]
    exact spells_word h
  | .arith op l r, h => by
    have hleft := spells_parenthesized (IsSum.spells step h.1) (l.needsParens op false)
    have hright := spells_parenthesized (IsSum.spells step h.2) (r.needsParens op true)
    have hsides := spells_between hleft (operator_char_mem op.isOperator_mark) hright
    simpa [Code.text, Code.tokens, ArithOp.symbol, Mark.text] using hsides

theorem Code.IsTest.spells (step : Nat) {c : Code} (h : c.IsTest IsWord) :
    Spells (c.text step 0).toList c.tokens := by
  cases c with
  | compare op l r =>
    have hsides := spells_between (h.1.spells step) (operator_char_mem op.isOperator_mark)
      (h.2.spells step)
    simpa [Code.text, Code.tokens, CompareOp.symbol, Mark.text] using hsides
  | _ => exact IsSum.spells step h

theorem Code.IsValue.spells (step : Nat) {c : Code} (h : c.IsValue IsWord) :
    Spells (c.text step 0).toList c.tokens := by
  cases c with
  | choose c y n =>
    have hsides := spells_between (h.2.1.spells step) (c := ':') (by simp) (h.2.2.spells step)
    have hall := spells_between (h.1.spells step) (c := '?') (by simp) hsides
    simpa [Code.text, Code.tokens] using hall
  | _ => exact IsSum.spells step h

theorem lays_pad (n : Nat) : Lays (pad n).toList [] := by
  simpa [pad] using lays_blanks n

/-- A word with a blank after it. -/
theorem lays_word {s : String} (h : IsWord s) : Lays (s.toList ++ [' ']) [.word s] :=
  (spells_word h).close (lays_blank rfl) rfl

theorem isWord_of_chars {s : String} (c : Char) (cs : List Char) (hs : s.toList = c :: cs)
    (hc : Lexeme.isLetter c = true) (hcs : cs.all isWordChar = true) : IsWord s :=
  ⟨c, cs, hs, hc, List.all_eq_true.mp hcs⟩

/-- The text of a block: an opening brace, the lines and a closing brace on a line of its own. -/
theorem lays_braces {cs : List Char} {ts : List C.Token} (h : Lays cs ts) (indent : Nat) :
    Lays ('\x7b' :: (cs ++ '\n' :: ((pad indent).toList ++ ['\x7d']))) (inBraces ts) := by
  have hclose := (lays_pad indent).append (lays_bracket (c := '\x7d') (by simp))
  have hend := (lays_blank (c := '\n') rfl).append hclose
  have hopen := (lays_bracket (c := '\x7b') (by simp)).append (h.append hend)
  simpa [inBraces] using hopen

/-- The digits of a number and its sign mean nothing else in a format. -/
theorem plain_of_mem_repr {n : Int} {c : Char} (h : c ∈ n.repr.toList) :
    c ≠ '"' ∧ c ≠ '\\' ∧ c ≠ '\n' ∧ c ≠ '%' := by
  rcases Lexeme.mem_repr h with rfl | hdigit
  · decide
  · refine ⟨?_, ?_, ?_, ?_⟩ <;> rintro rfl <;> exact absurd hdigit (by decide)

theorem lays_printNumber (n : Int64) (step indent : Nat) :
    Lays ((Code.printNumber n).text step indent).toList (Code.printNumber n).tokens := by
  have hplain : ∀ c ∈ n.toInt.repr.toList, c ≠ '"' ∧ c ≠ '\\' ∧ c ≠ '\n' := by
    intro c hc
    obtain ⟨hquote, hescape, hline, _⟩ := plain_of_mem_repr hc
    exact ⟨hquote, hescape, hline⟩
  have hword := (spells_word (isWord_of_chars (s := "printf") _ _ rfl rfl rfl)).close
    (lays_bracket (c := '(') (by simp)) rfl
  have hend := (lays_bracket (c := ')') (by simp)).append (lays_bracket (c := ';') (by simp))
  have hcall := (lays_pad indent).append (hword.append ((lays_text hplain).append hend))
  simpa [Code.text, Code.tokens] using hcall

theorem lays_print {v : Code} (h : v.IsSum IsWord) (step indent : Nat) :
    Lays ((Code.print v).text step indent).toList (Code.print v).tokens := by
  have hword := (spells_word (isWord_of_chars (s := "printf") _ _ rfl rfl rfl)).close
    (lays_bracket (c := '(') (by simp)) rfl
  have hformat := lays_text (s := "%i") (by simp)
  have hcomma := (lays_bracket (c := ',') (by simp)).append (lays_blank (c := ' ') rfl)
  have hend := (lays_bracket (c := ')') (by simp)).append (lays_bracket (c := ';') (by simp))
  have hvalue := (h.spells step).close hend rfl
  have hcall := hword.append (hformat.append (hcomma.append hvalue))
  simpa [Code.text, Code.tokens] using (lays_pad indent).append hcall

theorem lays_set {id : String} {v : Code} (hid : IsWord id) (h : v.IsValue IsWord) (declares : Bool)
    (step indent : Nat) :
    Lays ((Code.set declares id v).text step indent).toList (Code.set declares id v).tokens := by
  have hsign := lays_operator (c := '=') (by simp)
  have hvalue := (h.spells step).close (lays_bracket (c := ';') (by simp)) rfl
  have hassign := (lays_word hid).append (hsign.append hvalue)
  cases declares with
  | false => simpa [Code.text, Code.tokens] using (lays_pad indent).append hassign
  | true =>
    have hint := lays_word (isWord_of_chars (s := "int") _ _ rfl rfl rfl)
    simpa [Code.text, Code.tokens] using (lays_pad indent).append (hint.append hassign)

/-- The head of a counted loop scans to its tokens. -/
theorem lays_countedFor {counter : String} (h : IsWord counter) (turns : Nat) :
    Lays ((countedFor counter turns).toList ++ [' '])
      [.word "for", .mark '(', .word "int", .word counter, .mark '=', .number 0, .mark ';',
        .word counter, .mark '<', .number turns, .mark ';', .word counter, .pair '+' '+',
        .mark ')'] := by
  have hsemicolon := (lays_bracket (c := ';') (by simp)).append (lays_blank (c := ' ') rfl)
  have hfor := (lays_word (isWord_of_chars (s := "for") _ _ rfl rfl rfl)).append
    (lays_bracket (c := '(') (by simp))
  have hint := lays_word (isWord_of_chars (s := "int") _ _ rfl rfl rfl)
  have hdigit : Spells ['0'] [.number 0] := by simpa using spells_number 0
  have hzero := hdigit.close hsemicolon rfl
  have hstart := (lays_word h).append ((lays_operator (c := '=') (by simp)).append hzero)
  have hturns := (spells_number turns).close hsemicolon rfl
  have htest := (lays_word h).append ((lays_operator (c := '<') (by simp)).append hturns)
  have hstep := (spells_word h).close lays_increment rfl
  have hend := (lays_bracket (c := ')') (by simp)).append (lays_blank (c := ' ') rfl)
  have hall := hfor.append (hint.append (hstart.append (htest.append (hstep.append hend))))
  unfold countedFor
  simpa using hall

mutual

/-- The text of a statement scans to its tokens, whatever follows. -/
theorem Code.IsStatement.lays (step : Nat) : {c : Code} → c.IsStatement IsWord → (indent : Nat) →
    Lays (c.text step indent).toList c.tokens
  | .printNumber n, _, indent => lays_printNumber n step indent
  | .print v, h, indent => lays_print h step indent
  | .set declares id v, h, indent => lays_set h.1 h.2 declares step indent
  | .branch chain, h, indent => by
    have hchain := Chain.IsChain.lays step h indent
    simpa [Code.text, Code.tokens] using (lays_pad indent).append hchain
  | .loop counter turns body, h, indent => by
    have hbody := lays_braces (Code.AllStatements.lays_block step h.2 (indent + step)) indent
    have hloop := (lays_countedFor h.1 turns).append hbody
    simpa [Code.text, Code.tokens] using (lays_pad indent).append hloop

/-- Statements with a newline before each. -/
theorem Code.AllStatements.lays_block (step : Nat) : {cs : List Code} →
    Code.AllStatements IsWord cs → (indent : Nat) →
    Lays (Code.block step cs indent).toList (Code.tokensAll cs)
  | [], _, indent => by simpa [Code.block, Code.tokensAll] using lays_nil
  | c :: cs, h, indent => by
    have hhead := Code.IsStatement.lays step h.1 indent
    have htail := Code.AllStatements.lays_block step h.2 indent
    have hall := (lays_blank (c := '\n') rfl).append (hhead.append htail)
    simpa [Code.block, Code.tokensAll] using hall

theorem Chain.IsChain.lays (step : Nat) : {c : Chain} → c.IsChain IsWord → (indent : Nat) →
    Lays (c.text step indent).toList c.tokens
  | .mk test body others last, h, indent => by
    have hif := (lays_word (isWord_of_chars (s := "if") _ _ rfl rfl rfl)).append
      (lays_bracket (c := '(') (by simp))
    have hclose := (lays_bracket (c := ')') (by simp)).append (lays_blank (c := ' ') rfl)
    have htest := (h.1.spells step).close hclose rfl
    have hbody := lays_braces (Code.AllStatements.lays_block step h.2.1 (indent + step)) indent
    have hothers := Chain.AllElifs.lays step h.2.2.1 indent
    have hlast := lays_braces (Code.AllStatements.lays_block step h.2.2.2 (indent + step)) indent
    have hline := (lays_blank (c := '\n') rfl).append (lays_pad indent)
    have helse := hline.append (lays_word (isWord_of_chars (s := "else") _ _ rfl rfl rfl))
    have hfirst := hif.append (htest.append (hbody.append hothers))
    cases last with
    | nil => simpa [Chain.text, Chain.tokens] using hfirst
    | cons c cs => simpa [Chain.text, Chain.tokens] using hfirst.append (helse.append hlast)

theorem Chain.AllElifs.lays (step : Nat) : {cs : List Chain} → Chain.AllElifs IsWord cs →
    (indent : Nat) → Lays (Chain.elses step cs indent).toList (Chain.elseTokens cs)
  | [], _, indent => by simpa [Chain.elses, Chain.elseTokens] using lays_nil
  | .mk test body others last :: cs, h, indent => by
    have hshape : (Chain.mk test body others last).IsChain IsWord := by
      obtain ⟨⟨htest, hbody, rfl, rfl⟩, _⟩ := h
      exact ⟨htest, hbody, trivial, trivial⟩
    have hchain := Chain.IsChain.lays step hshape indent
    have htail := Chain.AllElifs.lays step h.2 indent
    have hline := (lays_blank (c := '\n') rfl).append (lays_pad indent)
    have helse := hline.append (lays_word (isWord_of_chars (s := "else") _ _ rfl rfl rfl))
    have hall := helse.append (hchain.append htail)
    simpa [Chain.elses, Chain.elseTokens] using hall

end

/-- Statements with a newline after each. -/
theorem Code.AllStatements.lays_lines (step : Nat) : {cs : List Code} →
    Code.AllStatements IsWord cs → (indent : Nat) →
    Lays (Code.lines step cs indent).toList (Code.tokensAll cs)
  | [], _, indent => by simpa [Code.lines, Code.tokensAll] using lays_nil
  | c :: cs, h, indent => by
    have hhead := h.1.lays step indent
    have htail := Code.AllStatements.lays_lines step h.2 indent
    have hall := hhead.append ((lays_blank (c := '\n') rfl).append htail)
    simpa [Code.lines, Code.tokensAll] using hall

/-- The start of a program scans to the fixed tokens, at any indentation. -/
theorem lays_opening (indent : Nat) : Lays (opening (pad indent)).toList C.opening := by
  have hstdio := lays_line (s := "include <stdio.h>") (by simp)
  have htime := lays_line (s := "include <time.h>") (by simp)
  have hline := lays_blank (c := '\n') rfl
  have hint := lays_word (isWord_of_chars (s := "int") _ _ rfl rfl rfl)
  have hempty := (lays_bracket (c := '(') (by simp)).append (lays_bracket (c := ')') (by simp))
  have hmain := (spells_word (isWord_of_chars (s := "main") _ _ rfl rfl rfl)).close hempty rfl
  have hbrace := (lays_blank (c := ' ') rfl).append (lays_bracket (c := '\x7b') (by simp))
  have hfunction := hint.append (hmain.append (hbrace.append hline))
  have htype := lays_word (isWord_of_chars (s := "clock_t") _ _ rfl rfl rfl)
  have hstart := lays_word (isWord_of_chars (s := "start_time") _ _ rfl rfl rfl)
  have hclock := (spells_word (isWord_of_chars (s := "clock") _ _ rfl rfl rfl)).close hempty rfl
  have hend := (lays_bracket (c := ';') (by simp)).append hline
  have hsign := lays_operator (c := '=') (by simp)
  have htimer := htype.append (hstart.append (hsign.append (hclock.append hend)))
  have hall := hstdio.append (htime.append (hline.append (hfunction.append
    ((lays_pad indent).append htimer))))
  unfold opening C.opening
  simpa using hall

theorem lays_closing (indent : Nat) :
    Lays ((closing (pad indent)).toList ++ ['\x7d']) C.closing := by
  have hpad := lays_pad indent
  have hopen := lays_bracket (c := '(') (by simp)
  have hclose := lays_bracket (c := ')') (by simp)
  have hblank := lays_blank (c := ' ') rfl
  have hend := (lays_bracket (c := ';') (by simp)).append (lays_blank (c := '\n') rfl)
  have htype := isWord_of_chars (s := "double") _ _ rfl rfl rfl
  have helapsed := isWord_of_chars (s := "elapsed_time") _ _ rfl rfl rfl
  have hcast := hopen.append ((spells_word htype).close hclose rfl)
  have hclock := (spells_word (isWord_of_chars (s := "clock") _ _ rfl rfl rfl)).close
    (hopen.append (hclose.append hblank)) rfl
  have hstart := (spells_word (isWord_of_chars (s := "start_time") _ _ rfl rfl rfl)).close
    (hclose.append hblank) rfl
  have hdifference := hopen.append (hclock.append
    ((lays_operator (c := '-') (by simp)).append hstart))
  have hticks := (spells_word (isWord_of_chars (s := "CLOCKS_PER_SEC") _ _ rfl rfl rfl)).close
    hend rfl
  have hquotient := hdifference.append ((lays_operator (c := '/') (by simp)).append hticks)
  have htime := (lays_word htype).append ((lays_word helapsed).append
    ((lays_operator (c := '=') (by simp)).append (hcast.append hquotient)))
  have hformat := lays_text (s := "Executed in %f seconds.") (by simp)
  have hcomma := (lays_bracket (c := ',') (by simp)).append hblank
  have hargument := hcomma.append ((spells_word helapsed).close (hclose.append hend) rfl)
  have hprintf := (spells_word (isWord_of_chars (s := "printf") _ _ rfl rfl rfl)).close hopen rfl
  have hreport := hprintf.append (hformat.append hargument)
  have hdigit : Spells ['0'] [.number 0] := by simpa using spells_number 0
  have hreturn := (lays_word (isWord_of_chars (s := "return") _ _ rfl rfl rfl)).append
    (hdigit.close hend rfl)
  have hall := (hpad.append htime).append ((hpad.append hreport).append
    ((hpad.append hreturn).append (lays_bracket (c := '\x7d') (by simp))))
  unfold closing C.closing
  simpa using hall

/-- The text of a whole program scans to its tokens. -/
theorem scan_main {body : List Code} (h : Code.AllStatements IsWord body) (step : Nat) :
    C.Token.scan ((Code.main body).text step 0).toList = some (Code.main body).tokens := by
  have hopening := lays_opening step
  have hbody := h.lays_lines step step
  have hall := hopening.append (hbody.append (lays_closing step))
  have hscan := hall []
  simpa [Code.text, Code.tokens, pad, C.Token.scan] using hscan

theorem isVariable_counter (n : Nat) : IsVariable (Counters.name n) := by
  have hchars : (Counters.name n).toList = '_' :: 'r' :: n.repr.toList := by
    simp [Counters.name]
  constructor
  · refine ⟨'_', 'r' :: n.repr.toList, hchars, by decide, fun c hc => ?_⟩
    rcases List.mem_cons.mp hc with rfl | hdigit
    · decide
    · simp [isWordChar, Lexeme.isDigit_of_mem_repr hdigit]
  · have hother : ∀ w ∈ keywords ++ frameNames, w.toList.take 2 ≠ ['_', 'r'] := by decide
    have hnot : Counters.name n ∉ keywords ++ frameNames := fun hmem =>
      hother _ hmem (by simp [hchars])
    simpa [isFree] using hnot

theorem isWord_of_isName {s : String} (h : Lexeme.IsName s) : IsWord s := by
  obtain ⟨c, cs, hs, hc, hcs, _⟩ := h
  exact ⟨c, cs, hs, hc, hcs⟩

end Scriptlet.CSource
