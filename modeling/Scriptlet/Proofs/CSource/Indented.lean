import Scriptlet.Proofs.C.Lines
import Scriptlet.Proofs.CSource.Declared
import Scriptlet.Proofs.CSource.Portable

/-!
How the text of a script is laid out. A statement takes whole lines, and a statement with blocks
leaves as many open as it finds. So the braces of a text are nested, every line is indented by
the blocks around it, and inside the function a line ends where a statement does or at a brace.
-/
namespace Scriptlet.CSource

open C C.Token

section Plain

theorem plain_append (s t : String) :
    (s ++ t).toList.all isPlain = (s.toList.all isPlain && t.toList.all isPlain) := by
  rw [String.toList_append, List.all_append]

theorem isPlain_of_isWordChar {c : Char} (h : isWordChar c = true) : isPlain c = true := by
  simp only [isPlain, Bool.and_eq_true, bne_iff_ne]
  refine ⟨⟨?_, ?_⟩, ?_⟩ <;> rintro rfl <;> exact absurd h (by decide)

theorem isWordChar_of_mem {s : String} (h : IsWord s) {c : Char} (hc : c ∈ s.toList) :
    isWordChar c = true := by
  obtain ⟨first, rest, hs, hfirst, hrest⟩ := h
  rw [hs] at hc
  rcases List.mem_cons.mp hc with rfl | hmem
  · simp [isWordChar, hfirst]
  · exact hrest c hmem

/-- Nothing in a word opens or closes a block or ends a line. -/
theorem plain_of_isWord {s : String} (h : IsWord s) : s.toList.all isPlain = true :=
  List.all_eq_true.mpr fun _ hc => isPlain_of_isWordChar (isWordChar_of_mem h hc)

theorem plain_repr (n : Int) : n.repr.toList.all isPlain = true := by
  refine List.all_eq_true.mpr fun c hc => ?_
  rcases Lexeme.mem_repr hc with rfl | hdigit
  · decide
  · exact isPlain_of_isWordChar (by simp [isWordChar, hdigit])

theorem plain_natRepr (n : Nat) : n.repr.toList.all isPlain = true :=
  plain_repr n

theorem plain_parenthesized {s : String} (h : s.toList.all isPlain = true) (needed : Bool) :
    (parenthesized needed s).toList.all isPlain = true := by
  cases needed with
  | false => exact h
  | true =>
    rw [parenthesized, if_pos rfl, plain_append, plain_append, h]
    decide

theorem plain_operator {m : Mark} (h : m.isOperator = true) :
    m.text.toList.all isPlain = true := by
  revert h
  cases m <;> decide

/-- Code of arithmetic stands inside a line, and so do conditions and values. -/
theorem Code.IsSum.plain : {c : Code} → c.IsSum IsWord → (step indent : Nat) →
    (c.text step indent).toList.all isPlain = true
  | .number n, _, _, _ => by
    rw [Code.text]
    exact plain_repr _
  | .var id, h, _, _ => by
    rw [Code.text]
    exact plain_of_isWord h
  | .arith op left right, h, step, _ => by
    have hop : op.symbol.toList.all isPlain = true := plain_operator op.isOperator_mark
    have hleft := plain_parenthesized (Code.IsSum.plain h.1 step 0) (left.needsParens op false)
    have hright := plain_parenthesized (Code.IsSum.plain h.2 step 0) (right.needsParens op true)
    simp only [Code.text, plain_append, hleft, hop, hright]
    decide

theorem Code.IsTest.plain {c : Code} (h : c.IsTest IsWord) (step indent : Nat) :
    (c.text step indent).toList.all isPlain = true := by
  cases c with
  | compare op left right =>
    have hop : op.symbol.toList.all isPlain = true := plain_operator op.isOperator_mark
    simp only [Code.text, plain_append, h.1.plain step 0, hop, h.2.plain step 0]
    decide
  | _ => exact IsSum.plain h step indent

theorem Code.IsValue.plain {c : Code} (h : c.IsValue IsWord) (step indent : Nat) :
    (c.text step indent).toList.all isPlain = true := by
  cases c with
  | choose test yes no =>
    simp only [Code.text, plain_append, h.1.plain step 0, h.2.1.plain step 0, h.2.2.plain step 0]
    decide
  | _ => exact IsSum.plain h step indent

end Plain

section Phrases

theorem isPhrase_append {s t : String} (hs : IsPhrase s.toList)
    (ht : t.toList.all isPlain = true) : IsPhrase (s ++ t).toList := by
  rw [String.toList_append]
  exact hs.append ht

theorem isPhrase_of_isWord {s : String} (h : IsWord s) : IsPhrase s.toList := by
  refine ⟨plain_of_isWord h, ?_⟩
  obtain ⟨first, rest, hs, hfirst, -⟩ := h
  refine ⟨first, rest, hs, ?_⟩
  rintro rfl
  exact absurd hfirst (by decide)

/-- The left-hand side of an assignment that may declare its variable. -/
theorem isPhrase_declared {id : String} (h : IsWord id) (declares : Bool) :
    IsPhrase ((if declares then "int " else "") ++ id).toList := by
  cases declares with
  | false =>
    rw [if_neg Bool.false_ne_true, String.empty_append]
    exact isPhrase_of_isWord h
  | true =>
    have hstart : IsPhrase "int ".toList := ⟨by decide, _, _, rfl, by decide⟩
    exact isPhrase_append hstart (plain_of_isWord h)

theorem isPhrase_countedFor {counter : String} (h : IsWord counter) (turns : Nat) :
    IsPhrase (countedFor counter turns).toList := by
  have hcounter := plain_of_isWord h
  have hstart : IsPhrase "for (int ".toList := ⟨by decide, _, _, rfl, by decide⟩
  unfold countedFor
  simp only [String.append_assoc]
  refine isPhrase_append hstart ?_
  simp only [plain_append, hcounter, plain_natRepr]
  decide

/-- The condition of a branch, behind what joins the branch to those before it. -/
theorem isPhrase_condition {start : String} (hstart : IsPhrase start.toList) {test : Code}
    (h : test.IsTest IsWord) (step : Nat) :
    IsPhrase (start ++ test.text step 0 ++ ")").toList :=
  isPhrase_append (isPhrase_append hstart (h.plain step 0)) (by decide)

end Phrases

section Passages

variable {step d d' : Nat}

/-- A statement with its indentation and its semicolon is one row. -/
theorem passage_statement {s : String} (h : IsPhrase s.toList) :
    Passage step d (pad (step * d) ++ s ++ ";").toList d := by
  rw [String.toList_append, String.toList_append, pad, String.toList_ofList]
  exact .last (.statement h)

/-- The brace that closes a block, on a line of its own. -/
theorem passage_close : Passage step (d + 1) (pad (step * d) ++ "\x7d").toList d := by
  rw [String.toList_append, pad, String.toList_ofList]
  exact .last (.closes d)

def braced (step indent : Nat) (head : String) (body : List Code) : String :=
  pad indent ++ head ++ " \x7b" ++ Code.block step body (indent + step) ++
    "\n" ++ pad indent ++ "\x7d"

theorem block_append_newline (step : Nat) (body : List Code) (indent : Nat) :
    Code.block step body indent ++ "\n" = "\n" ++ Code.lines step body indent := by
  induction body with
  | nil => rfl
  | cons c cs ih =>
    rw [Code.block, Code.lines, String.append_assoc, ih]
    simp only [String.append_assoc]

/-- What is braced is a passage, if its body one level further in is one. -/
theorem passage_braced {head : String} (hhead : IsPhrase head.toList) {body : List Code}
    (hbody : Passage step (d + 1)
      (Code.lines step body (step * (d + 1)) ++ (pad (step * d) ++ "\x7d")).toList d) :
    Passage step d (braced step (step * d) head body).toList d := by
  have hopen : Row step d (List.replicate (step * d) ' ' ++ (head.toList ++ [' ']) ++ ['\x7b'])
      (d + 1) := .opens (hhead.append (by decide))
  have hlines : braced step (step * d) head body =
      pad (step * d) ++ head ++ " \x7b" ++ ("\n" ++ Code.lines step body (step * (d + 1))) ++
        (pad (step * d) ++ "\x7d") := by
    rw [Nat.mul_succ, ← block_append_newline]
    simp only [braced, String.append_assoc]
  have htext : (braced step (step * d) head body).toList =
      List.replicate (step * d) ' ' ++ (head.toList ++ [' ']) ++ ['\x7b'] ++ '\n' ::
        (Code.lines step body (step * (d + 1)) ++ (pad (step * d) ++ "\x7d")).toList := by
    rw [hlines]
    simp [pad]
  rw [htext]
  exact .row hopen hbody

/-- A passage that leaves the blocks as they were can be followed by any other. -/
theorem passage_newline {s t : String} (hs : Passage step d s.toList d)
    (ht : Passage step d t.toList d') : Passage step d (s ++ "\n" ++ t).toList d' := by
  have happend := hs.append ht
  simpa using happend

end Passages

section Texts

variable (step indent : Nat)

theorem text_printNumber (n : Int64) :
    (Code.printNumber n).text step indent =
      pad indent ++ ("printf(\"" ++ n.toInt.repr ++ "\\n\")") ++ ";" := by
  have hend : ("\\n\");" : String) = "\\n\")" ++ ";" := rfl
  simp only [Code.text, hend, String.append_assoc]

theorem text_print (value : Code) :
    (Code.print value).text step indent =
      pad indent ++ ("printf(\"%i\\n\", " ++ value.text step 0 ++ ")") ++ ";" := by
  have hend : (");" : String) = ")" ++ ";" := rfl
  simp only [Code.text, hend, String.append_assoc]

theorem text_set (declares : Bool) (id : String) (value : Code) :
    (Code.set declares id value).text step indent =
      pad indent ++ ((if declares then "int " else "") ++ id ++ " = " ++ value.text step 0) ++
        ";" := by
  simp only [Code.text, String.append_assoc]

theorem text_loop (counter : String) (turns : Nat) (body : List Code) :
    (Code.loop counter turns body).text step indent =
      braced step indent (countedFor counter turns) body := by
  rw [Code.text, braced]

theorem text_branch (test : Code) (body : List Code) (others : List Chain)
    (otherwise : List Code) :
    (Code.branch (.mk test body others otherwise)).text step indent =
      braced step indent ("if (" ++ test.text step 0 ++ ")") body ++
        Chain.elses step others indent ++
        if otherwise.isEmpty then "" else "\n" ++ braced step indent "else" otherwise := by
  have hopen : (") \x7b" : String) = ")" ++ " \x7b" := rfl
  have helse : ("else \x7b" : String) = "else" ++ " \x7b" := rfl
  simp only [Code.text, Chain.text, braced, hopen, helse, String.append_assoc]

theorem elses_cons (test : Code) (body : List Code) (others : List Chain) :
    Chain.elses step (.mk test body [] [] :: others) indent =
      "\n" ++ braced step indent ("else if (" ++ test.text step 0 ++ ")") body ++
        Chain.elses step others indent := by
  have hopen : (") \x7b" : String) = ")" ++ " \x7b" := rfl
  have hlead : ("else if (" : String) = "else " ++ "if (" := rfl
  simp only [Chain.elses, Chain.text, braced, hopen, hlead, String.append_assoc, List.isEmpty_nil,
    if_true, String.empty_append]

end Texts

mutual

/-- A statement takes whole lines and leaves as many blocks open as it finds. -/
theorem Code.IsStatement.passage (step d : Nat) : {c : Code} → c.IsStatement IsWord →
    Passage step d (c.text step (step * d)).toList d
  | .printNumber n, _ => by
    have hstart : IsPhrase "printf(\"".toList := ⟨by decide, _, _, rfl, by decide⟩
    rw [text_printNumber]
    exact passage_statement (isPhrase_append (isPhrase_append hstart (plain_repr _)) (by decide))
  | .print v, h => by
    have hvalue := Code.IsSum.plain h step 0
    have hstart : IsPhrase "printf(\"%i\\n\", ".toList := ⟨by decide, _, _, rfl, by decide⟩
    rw [text_print]
    exact passage_statement (isPhrase_append (isPhrase_append hstart hvalue) (by decide))
  | .set declares id v, h => by
    rw [text_set]
    exact passage_statement (isPhrase_append (isPhrase_append (isPhrase_declared h.1 declares)
      (by decide)) (h.2.plain step 0))
  | .branch (.mk test body others otherwise), h => by
    obtain ⟨htest, hbody, hothers, hotherwise⟩ := h
    have hif : IsPhrase "if (".toList := ⟨by decide, _, _, rfl, by decide⟩
    have helse : IsPhrase "else".toList := ⟨by decide, _, _, rfl, by decide⟩
    have hbranches := Chain.AllElifs.passage step d hothers
      (passage_braced (isPhrase_condition hif htest step)
        (Code.AllStatements.passage step (d + 1) hbody passage_close))
    rw [text_branch]
    cases otherwise with
    | nil =>
      rw [List.isEmpty_nil, if_pos rfl, String.append_empty]
      exact hbranches
    | cons c cs =>
      rw [List.isEmpty_cons, if_neg Bool.false_ne_true, ← String.append_assoc]
      exact passage_newline hbranches (passage_braced helse
        (Code.AllStatements.passage step (d + 1) hotherwise passage_close))
  | .loop counter turns body, h => by
    rw [text_loop]
    exact passage_braced (isPhrase_countedFor h.1 turns)
      (Code.AllStatements.passage step (d + 1) h.2 passage_close)

theorem Code.AllStatements.passage (step d : Nat) : {cs : List Code} →
    Code.AllStatements IsWord cs → {s : String} → {d' : Nat} → Passage step d s.toList d' →
    Passage step d (Code.lines step cs (step * d) ++ s).toList d'
  | [], _, _, _, hs => by
    rw [Code.lines, String.empty_append]
    exact hs
  | _ :: _, h, _, _, hs => by
    rw [Code.lines, String.append_assoc]
    exact passage_newline (Code.IsStatement.passage step d h.1)
      (Code.AllStatements.passage step d h.2 hs)

theorem Chain.AllElifs.passage (step d : Nat) : {cs : List Chain} → Chain.AllElifs IsWord cs →
    {s : String} → Passage step d s.toList d →
    Passage step d (s ++ Chain.elses step cs (step * d)).toList d
  | [], _, _, hs => by
    rw [Chain.elses, String.append_empty]
    exact hs
  | .mk test body _ _ :: _, h, _, hs => by
    obtain ⟨⟨htest, hbody, rfl, rfl⟩, hcs⟩ := h
    have hstart : IsPhrase "else if (".toList := ⟨by decide, _, _, rfl, by decide⟩
    have hbranch := passage_braced (isPhrase_condition hstart htest step)
      (Code.AllStatements.passage step (d + 1) hbody passage_close)
    rw [elses_cons, ← String.append_assoc, ← String.append_assoc]
    exact Chain.AllElifs.passage step d hcs (passage_newline hs hbranch)

end

section Main

variable (step : Nat) (body : List Code)

def Code.inside : String :=
  pad step ++ "clock_t start_time = clock()" ++ ";" ++ "\n" ++
    (Code.lines step body step ++
      (pad step ++ "double elapsed_time = (double)(clock() - start_time) / CLOCKS_PER_SEC" ++ ";" ++
        "\n" ++ (pad step ++ "printf(\"Executed in %f seconds.\\n\", elapsed_time)" ++ ";" ++
        "\n" ++ (pad step ++ "return 0" ++ ";"))))

theorem text_main :
    (Code.main body).text step 0 =
      "#include <stdio.h>\n#include <time.h>\n" ++ "\n" ++
        ("int main() \x7b" ++ "\n" ++ Code.inside step body ++ "\n" ++ "\x7d") := by
  have hopening : ("#include <stdio.h>\n#include <time.h>\n\nint main() \x7b\n" : String) =
      "#include <stdio.h>\n#include <time.h>\n" ++ "\n" ++ ("int main() \x7b" ++ "\n") := by
    simp only [String.reduceAppend]
  have hstart : ("clock_t start_time = clock();\n" : String) =
      "clock_t start_time = clock()" ++ ";" ++ "\n" := by
    simp only [String.reduceAppend]
  have helapsed : ("double elapsed_time = (double)(clock() - start_time) / CLOCKS_PER_SEC;\n" :
      String) = "double elapsed_time = (double)(clock() - start_time) / CLOCKS_PER_SEC" ++ ";" ++
        "\n" := by
    simp only [String.reduceAppend]
  have hprint : ("printf(\"Executed in %f seconds.\\n\", elapsed_time);\n" : String) =
      "printf(\"Executed in %f seconds.\\n\", elapsed_time)" ++ ";" ++ "\n" := by
    simp only [String.reduceAppend]
  have hreturn : ("return 0;\n" : String) = "return 0" ++ ";" ++ "\n" := by
    simp only [String.reduceAppend]
  have hpad : pad 0 = "" := rfl
  rw [Code.text, hpad]
  unfold CSource.opening CSource.closing
  simp only [Code.inside, hopening, hstart, helapsed, hprint, hreturn, Nat.zero_add,
    String.append_assoc, String.empty_append]

end Main

/-- Between the braces of the function one block is open, before and after. -/
theorem Code.AllStatements.passage_inside {body : List Code} (h : Code.AllStatements IsWord body)
    (step : Nat) : Passage step 1 (Code.inside step body).toList 1 := by
  have hline (s : String) (hplain : s.toList.all isPlain = true)
      (hfirst : ∃ first rest, s.toList = first :: rest ∧ first ≠ ' ') :
      Passage step 1 (pad step ++ s ++ ";").toList 1 := by
    have hpassage : Passage step 1 (pad (step * 1) ++ s ++ ";").toList 1 :=
      passage_statement ⟨hplain, hfirst⟩
    rwa [Nat.mul_one] at hpassage
  have hstart := hline "clock_t start_time = clock()" (by decide) ⟨_, _, rfl, by decide⟩
  have helapsed := hline "double elapsed_time = (double)(clock() - start_time) / CLOCKS_PER_SEC"
    (by decide) ⟨_, _, rfl, by decide⟩
  have hprint := hline "printf(\"Executed in %f seconds.\\n\", elapsed_time)" (by decide)
    ⟨_, _, rfl, by decide⟩
  have hreturn := hline "return 0" (by decide) ⟨_, _, rfl, by decide⟩
  have hbody := h.passage step 1 (passage_newline helapsed (passage_newline hprint hreturn))
  rw [Nat.mul_one] at hbody
  exact passage_newline hstart hbody

/-- The function itself, from the line that opens it to the brace that closes it. -/
theorem Code.AllStatements.passage_main {body : List Code} (h : Code.AllStatements IsWord body)
    (step : Nat) :
    Passage step 0 ("int main() \x7b" ++ "\n" ++ Code.inside step body ++ "\n" ++ "\x7d").toList
      0 := by
  have hhead : IsPhrase "int main() ".toList := ⟨by decide, _, _, rfl, by decide⟩
  have hopen : Row step 0 (List.replicate (step * 0) ' ' ++ "int main() ".toList ++ ['\x7b']) 1 :=
    .opens hhead
  have hall := Passage.row hopen ((h.passage_inside step).append (.last (.closes 0)))
  simpa using hall

/-- The headers open and close no block and are not indented, so that only the function counts. -/
theorem isNested_main {body : List Code} (h : Code.AllStatements IsWord body) (step : Nat) :
    IsNested ((Code.main body).text step 0).toList := by
  have hfunction := h.passage_main step
  have hheaders : nesting ("#include <stdio.h>\n#include <time.h>\n" ++ "\n").toList = 0 := by
    decide
  rw [text_main, String.toList_append]
  constructor
  · refine (nested_of_count_le (by decide)).append ?_
    rw [hheaders]
    exact hfunction.nested
  · rw [nesting_append, hheaders]
    exact hfunction.nesting_eq

/-- Every line of a program is indented for the blocks around it. -/
theorem allIndented_main {body : List Code} (h : Code.AllStatements IsWord body) (step : Nat) :
    AllIndented step 0 (C.lines ((Code.main body).text step 0).toList) := by
  have hfunction := (h.passage_main step).allIndented
  have hheaders : C.lines "#include <stdio.h>\n#include <time.h>\n".toList =
      ["#include <stdio.h>".toList, "#include <time.h>".toList, []] := by decide
  have hstdio : nesting "#include <stdio.h>".toList = 0 := by decide
  have htime : nesting "#include <time.h>".toList = 0 := by decide
  have hempty : nesting [] = 0 := rfl
  rw [text_main, lines_append_newline, hheaders, List.cons_append, List.cons_append,
    List.cons_append, List.nil_append]
  refine .cons (fun _ => ⟨0, '#', _, rfl, by decide, by simp⟩) (.cons (fun _ => ?_)
    (.cons (fun h => absurd rfl h) ?_))
  · rw [hstdio]
    exact ⟨0, '#', _, rfl, by decide, by simp⟩
  · simpa only [hstdio, htime, hempty, add_zero, Int.natCast_zero] using hfunction

theorem lines_main (step : Nat) (body : List Code) :
    C.lines ((Code.main body).text step 0).toList =
      ["#include <stdio.h>", "#include <time.h>", "", "int main() \x7b"].map String.toList ++
        C.lines (Code.inside step body).toList ++ [['\x7d']] := by
  have hheaders : C.lines "#include <stdio.h>\n#include <time.h>\n".toList ++
      C.lines "int main() \x7b".toList =
      ["#include <stdio.h>", "#include <time.h>", "", "int main() \x7b"].map String.toList := by
    decide
  have hclose : C.lines "\x7d".toList = [['\x7d']] := by decide
  rw [text_main, lines_append_newline, lines_append_newline, lines_append_newline, hclose,
    ← List.append_assoc, ← List.append_assoc, hheaders]

end Scriptlet.CSource

namespace Scriptlet.Script

open C CSource

/-- The C text of a script is nested, and each of its lines is indented by the blocks around it.
Inside the function each line ends a statement, or opens or closes a block. -/
theorem toC_nested_and_indented {source text : String} {step : Nat}
    (htext : toC source step = .ok text) :
    IsNested text.toList ∧ AllIndented step 0 (lines text.toList) ∧
    ∃ inside, lines text.toList =
        ["#include <stdio.h>", "#include <time.h>", "", "int main() \x7b"].map String.toList ++
          inside ++ [['\x7d']] ∧
      ∀ line ∈ inside, EndsLine line := by
  obtain ⟨body, hparse⟩ := exists_parse_of_toC htext
  obtain ⟨cs, d, hdraft, rfl⟩ := draftsAll_of_toC hparse htext
  have hwords := hdraft.allStatements (fun n => (isVariable_counter n).1)
    fun id hid => isWord_of_isName (isName_of_parse hparse hid)
  exact ⟨isNested_main hwords step, allIndented_main hwords step,
    lines (Code.inside step cs).toList, lines_main step cs, (hwords.passage_inside step).endsLine⟩

/-- The script `repeat 2 { if 1 < 2 { 5; } else { 6; } }`. -/
def countedBranch : List Tree :=
  [.loop (.literal 2 false ⟨1, 8⟩)
    [.branch (.mk (.compare .less (.literal 1 false ⟨1, 15⟩) (.literal 2 false ⟨1, 19⟩) ⟨1, 17⟩)
      [.literal 5 true ⟨1, 23⟩] [] [.literal 6 true ⟨1, 35⟩] ⟨1, 12⟩)] ⟨1, 1⟩]

def countedBranchCode : List Code :=
  [.loop "_r0" 2 [.branch (.mk (.compare .less (.number 1) (.number 2)) [.printNumber 5] []
    [.printNumber 6])]]

/-- Blocks within blocks, with a step of two. -/
theorem countedBranch_nested_and_indented :
    toC "repeat 2 \x7b if 1 < 2 \x7b 5; \x7d else \x7b 6; \x7d \x7d" 2 =
      .ok ((Code.main countedBranchCode).text 2 0) ∧
    IsNested ((Code.main countedBranchCode).text 2 0).toList ∧
    AllIndented 2 0 (lines ((Code.main countedBranchCode).text 2 0).toList) := by
  have hparse : parse "repeat 2 \x7b if 1 < 2 \x7b 5; \x7d else \x7b 6; \x7d \x7d" =
      .ok (.program countedBranch) := by with_unfolding_all rfl
  have hdraft : (((Tree.program countedBranch).draft .statement).run {}).1 =
      .ok (.main countedBranchCode) := rfl
  have htext := toC_of_draft hparse hdraft 2
  obtain ⟨hnested, hindented, -⟩ := toC_nested_and_indented htext
  exact ⟨htext, hnested, hindented⟩

end Scriptlet.Script
