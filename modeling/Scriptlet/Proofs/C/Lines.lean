/-!
The lines of a C text. Reading a text from its start, each brace opens a block or closes one, and
a line is to be indented by as many steps as there are blocks open around it. A brace that closes
a block stands with the line that opened it. Texts are put together from rows, one for each line,
that say how many blocks are open before and after them.
-/
namespace Scriptlet.C

def nesting (cs : List Char) : Int :=
  cs.count '\x7b' - cs.count '\x7d'

/-- Where so many blocks are open, the characters close none that is not open. -/
def Nested (blocks : Int) (cs : List Char) : Prop :=
  ∀ p, p <+: cs → 0 ≤ blocks + nesting p

/-- No block is closed that is not open, and at the end of the text none is open. -/
structure IsNested (cs : List Char) : Prop where
  opened : Nested 0 cs
  closed : nesting cs = 0

def lines (cs : List Char) : List (List Char) :=
  cs.splitOn '\n'

/-- The line starts with one step of blanks for each block that is open, without the block that
it closes itself, and then with another character. -/
def IsIndented (step : Nat) (blocks : Int) (line : List Char) : Prop :=
  ∃ depth first rest, line = List.replicate (step * depth) ' ' ++ first :: rest ∧ first ≠ ' ' ∧
    (depth : Int) = blocks - if first = '\x7d' then 1 else 0

/-- Each line that is not empty is indented for the blocks that the lines before it leave open. -/
inductive AllIndented (step : Nat) : (blocks : Int) → List (List Char) → Prop
  | nil (blocks : Int) : AllIndented step blocks []
  | cons {blocks : Int} {line : List Char} {rest : List (List Char)}
      (head : line ≠ [] → IsIndented step blocks line)
      (tail : AllIndented step (blocks + nesting line) rest) :
      AllIndented step blocks (line :: rest)

def EndsLine (line : List Char) : Prop :=
  ∃ c ∈ line.getLast?, c ∈ [';', '\x7b', '\x7d']

theorem lines_append_newline (s t : String) :
    lines (s ++ "\n" ++ t).toList = lines s.toList ++ lines t.toList := by
  have htext : (s ++ "\n" ++ t).toList = s.toList ++ '\n' :: t.toList := by simp
  rw [htext, lines, List.splitOn_append_cons_self, lines, lines]

section Nesting

@[simp] theorem nesting_append (cs ds : List Char) :
    nesting (cs ++ ds) = nesting cs + nesting ds := by
  simp only [nesting, List.count_append]
  omega

theorem nesting_newline_cons (cs : List Char) : nesting ('\n' :: cs) = nesting cs := by
  simp [nesting]

theorem nested_of_count_le {blocks : Nat} {cs : List Char} (h : cs.count '\x7d' ≤ blocks) :
    Nested blocks cs := by
  intro p hp
  have hle := hp.sublist.count_le '\x7d'
  unfold nesting
  omega

/-- A text that closes only what is open may go on with one that does so too. -/
theorem Nested.append {blocks : Int} {cs ds : List Char} (h : Nested blocks cs)
    (h' : Nested (blocks + nesting cs) ds) : Nested blocks (cs ++ ds) := by
  intro p hp
  obtain hshort | ⟨q, rfl⟩ := List.prefix_or_prefix_of_prefix hp (List.prefix_append cs ds)
  · exact h p hshort
  · rw [List.prefix_append_right_inj] at hp
    rw [nesting_append, ← Int.add_assoc]
    exact h' q hp

def isPlain (c : Char) : Bool :=
  c != '\n' && c != '\x7b' && c != '\x7d'

theorem not_mem_of_plain {cs : List Char} (h : cs.all isPlain = true) {c : Char}
    (hc : isPlain c = false) : c ∉ cs := by
  intro hmem
  have hplain := List.all_eq_true.mp h c hmem
  rw [hc] at hplain
  cases hplain

theorem count_of_plain {cs : List Char} (h : cs.all isPlain = true) {c : Char}
    (hc : isPlain c = false) : cs.count c = 0 :=
  List.count_eq_zero.mpr (not_mem_of_plain h hc)

theorem nesting_of_plain {cs : List Char} (h : cs.all isPlain = true) : nesting cs = 0 := by
  rw [nesting, count_of_plain h rfl, count_of_plain h rfl, Int.sub_self]

theorem plain_replicate (n : Nat) : (List.replicate n ' ').all isPlain = true := by
  simp [isPlain]

structure IsPhrase (cs : List Char) : Prop where
  plain : cs.all isPlain = true
  starts : ∃ first rest, cs = first :: rest ∧ first ≠ ' '

theorem IsPhrase.append {cs ds : List Char} (h : IsPhrase cs) (hds : ds.all isPlain = true) :
    IsPhrase (cs ++ ds) := by
  obtain ⟨hplain, first, rest, rfl, hfirst⟩ := h
  exact ⟨by rw [List.all_append, hplain, hds, Bool.and_self], first, rest ++ ds, rfl, hfirst⟩

end Nesting

inductive Row (step : Nat) : Nat → List Char → Nat → Prop
  | statement {d : Nat} {cs : List Char} (phrase : IsPhrase cs) :
      Row step d (List.replicate (step * d) ' ' ++ cs ++ [';']) d
  | opens {d : Nat} {cs : List Char} (phrase : IsPhrase cs) :
      Row step d (List.replicate (step * d) ' ' ++ cs ++ ['\x7b']) (d + 1)
  | closes (d : Nat) : Row step (d + 1) (List.replicate (step * d) ' ' ++ ['\x7d']) d

namespace Row

variable {step d d' : Nat} {line : List Char}

/-- Only the last character of a row opens or closes a block. -/
theorem split (h : Row step d line d') :
    ∃ cs c, line = cs ++ [c] ∧ cs.all isPlain = true ∧
      (c = ';' ∧ d' = d ∨ c = '\x7b' ∧ d' = d + 1 ∨ c = '\x7d' ∧ d = d' + 1) := by
  have hplain {cs : List Char} (h : IsPhrase cs) :
      (List.replicate (step * d) ' ' ++ cs).all isPlain = true := by
    rw [List.all_append, plain_replicate, h.plain, Bool.and_self]
  cases h with
  | statement phrase => exact ⟨_, ';', rfl, hplain phrase, by simp⟩
  | opens phrase => exact ⟨_, '\x7b', rfl, hplain phrase, by simp⟩
  | closes => exact ⟨_, '\x7d', rfl, plain_replicate _, by simp⟩

theorem newline_not_mem (h : Row step d line d') : '\n' ∉ line := by
  obtain ⟨cs, c, rfl, hplain, hc⟩ := h.split
  have hcs : '\n' ∉ cs := not_mem_of_plain hplain rfl
  rcases hc with ⟨rfl, -⟩ | ⟨rfl, -⟩ | ⟨rfl, -⟩ <;> simp [hcs]

/-- A row says how many blocks are open after it. -/
theorem nesting_eq (h : Row step d line d') : d + nesting line = d' := by
  obtain ⟨cs, c, rfl, hplain, hc⟩ := h.split
  rw [nesting_append, nesting_of_plain hplain, Int.zero_add]
  rcases hc with ⟨rfl, rfl⟩ | ⟨rfl, rfl⟩ | ⟨rfl, rfl⟩
  · exact Int.add_zero _
  · rfl
  · exact Int.add_neg_cancel_right d' 1

theorem nested (h : Row step d line d') : Nested d line := by
  obtain ⟨cs, c, rfl, hplain, hc⟩ := h.split
  refine nested_of_count_le ?_
  rw [List.count_append, count_of_plain hplain rfl]
  rcases hc with ⟨rfl, rfl⟩ | ⟨rfl, rfl⟩ | ⟨rfl, rfl⟩ <;> simp

theorem endsLine (h : Row step d line d') : EndsLine line := by
  obtain ⟨cs, c, rfl, -, hc⟩ := h.split
  refine ⟨c, by simp, ?_⟩
  rcases hc with ⟨rfl, -⟩ | ⟨rfl, -⟩ | ⟨rfl, -⟩ <;> simp

/-- A row is indented for the blocks that are open before it. -/
theorem isIndented (h : Row step d line d') : IsIndented step d line := by
  have hphrase {cs : List Char} (h : IsPhrase cs) (c : Char) :
      IsIndented step d (List.replicate (step * d) ' ' ++ cs ++ [c]) := by
    obtain ⟨hplain, first, rest, rfl, hfirst⟩ := h
    refine ⟨d, first, rest ++ [c], by simp, hfirst, ?_⟩
    rw [if_neg, Int.sub_zero]
    rintro rfl
    exact not_mem_of_plain hplain rfl List.mem_cons_self
  cases h with
  | statement phrase => exact hphrase phrase ';'
  | opens phrase => exact hphrase phrase '\x7b'
  | closes => exact ⟨d', '\x7d', [], rfl, by decide, by simp⟩

end Row

inductive Passage (step : Nat) : Nat → List Char → Nat → Prop
  | last {d d' : Nat} {line : List Char} (row : Row step d line d') : Passage step d line d'
  | row {d d' d'' : Nat} {line cs : List Char} (row : Row step d line d')
      (rest : Passage step d' cs d'') : Passage step d (line ++ '\n' :: cs) d''

namespace Passage

variable {step d d' d'' : Nat} {cs ds : List Char}

theorem append (h : Passage step d cs d') (h' : Passage step d' ds d'') :
    Passage step d (cs ++ '\n' :: ds) d'' := by
  induction h with
  | last row => exact .row row h'
  | row row _ ih =>
    rw [List.append_assoc, List.cons_append]
    exact .row row (ih h')

theorem nesting_eq (h : Passage step d cs d') : d + nesting cs = d' := by
  induction h with
  | last row => exact row.nesting_eq
  | row row _ ih => rw [nesting_append, nesting_newline_cons, ← Int.add_assoc, row.nesting_eq, ih]

theorem nested (h : Passage step d cs d') : Nested d cs := by
  induction h with
  | last row => exact row.nested
  | @row _ d' _ _ cs row _ ih =>
    refine row.nested.append ?_
    rw [row.nesting_eq]
    have hnewline : Nested d' ['\n'] := nested_of_count_le (by simp)
    refine hnewline.append ?_
    rw [nesting_newline_cons]
    simpa [nesting] using ih

/-- Every line of a passage is indented as the blocks around it ask. -/
theorem allIndented (h : Passage step d cs d') : AllIndented step d (lines cs) := by
  induction h with
  | last row =>
    rw [lines, List.splitOn_eq_singleton row.newline_not_mem]
    exact .cons (fun _ => row.isIndented) (.nil _)
  | row row _ ih =>
    rw [lines, List.splitOn_append_cons_self_of_not_mem row.newline_not_mem]
    refine .cons (fun _ => row.isIndented) ?_
    rw [row.nesting_eq]
    exact ih

theorem endsLine (h : Passage step d cs d') : ∀ line ∈ lines cs, EndsLine line := by
  induction h with
  | last row =>
    rw [lines, List.splitOn_eq_singleton row.newline_not_mem]
    exact List.forall_mem_singleton.mpr row.endsLine
  | row row _ ih =>
    rw [lines, List.splitOn_append_cons_self_of_not_mem row.newline_not_mem]
    exact List.forall_mem_cons.mpr ⟨row.endsLine, ih⟩

end Passage

end Scriptlet.C
