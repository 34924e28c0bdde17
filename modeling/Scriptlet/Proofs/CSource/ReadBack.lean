import Scriptlet.CSource.Layout
import Scriptlet.Script
import Scriptlet.Proofs.CSource.Drafted
import Scriptlet.Proofs.Grammar.Complete
import Scriptlet.Proofs.Token.Scanned

/-!
The text of an expression, scanned and read again. It spells the tokens of the code, with
parentheses exactly where `needsParens` asks for them, and those tokens are a phrase for the
same tree at every level of operators that the code may stand at without parentheses.
-/
namespace Scriptlet

namespace Tree

/-- An expression whose literals have an opposite and whose names scan as such. -/
def IsWritable : Tree → Prop
  | literal n _ _ => n.toInt ≠ -2 ^ 63
  | name id _ _ => Token.scan id = .ok [⟨.identifier id, .start⟩]
  | arith _ l r _ _ => l.IsWritable ∧ r.IsWritable
  | compare _ l r _ => l.IsWritable ∧ r.IsWritable
  | choose c y n _ => c.IsWritable ∧ y.IsWritable ∧ n.IsWritable
  | _ => False

end Tree

namespace CSource

open Grammar Lexeme

def bracketed (needed : Bool) (ks : List Token.Kind) : List Token.Kind :=
  if needed then .mark .openParen :: (ks ++ [.mark .closeParen]) else ks

def Code.kinds : Code → List Token.Kind
  | .number n => if n.toInt < 0 then [.mark .minus, .integer (-n)] else [.integer n]
  | .var id => [.identifier id]
  | .arith op l r =>
    bracketed (l.needsParens op false) l.kinds ++
      .mark op.mark :: bracketed (r.needsParens op true) r.kinds
  | .compare op l r => l.kinds ++ .mark op.mark :: r.kinds
  | .choose c y n => c.kinds ++ .mark .question :: (y.kinds ++ .mark .colon :: n.kinds)
  | _ => []

/-- The text, followed by anything that is no part of a word, spells the kinds. -/
def Writes (cs : List Char) (ks : List Token.Kind) : Prop :=
  ∀ rest more, Apart rest → Spells rest more → Spells (cs ++ rest) (ks ++ more)

theorem apart_cons {c : Char} (h : (isLetter c || isDigit c) = false) (cs : List Char) :
    Apart (c :: cs) := by
  intro d hd
  cases hd
  exact h

/-- A number is written as it is read, the least one apart. -/
theorem writes_number {n : Int64} (hn : n.toInt ≠ -2 ^ 63) :
    Writes n.toInt.repr.toList (Code.number n).kinds := by
  intro rest more hrest hmore
  rw [Int.repr_eq_if, Code.kinds]
  by_cases hneg : n.toInt < 0
  · have hopposite : (-n).toInt = (-n.toInt).toNat := by
      have hle := n.le_toInt
      rw [Phrase.toInt_neg_of_gt (by omega)]
      omega
    have hdigits := spells_integer hopposite hrest hmore
    have hsign := spells_mark .minus hdigits
    simpa [hneg, Int.not_le.mpr hneg, Mark.char] using hsign
  · have hvalue : n.toInt = n.toInt.toNat := by omega
    have hdigits := spells_integer hvalue hrest hmore
    simpa [hneg, Int.not_lt.mp hneg] using hdigits

theorem Writes.parenthesized {s : String} {ks : List Token.Kind} (h : Writes s.toList ks)
    (needed : Bool) : Writes (parenthesized needed s).toList (bracketed needed ks) := by
  cases needed with
  | false => exact h
  | true =>
    intro rest more hrest hmore
    have hclose := spells_mark .closeParen hmore
    have hinner := h _ _ (apart_cons (by decide) rest) hclose
    have hopen := spells_mark .openParen hinner
    simpa [CSource.parenthesized, bracketed, Mark.char] using hopen

/-- Two texts with a mark between them and a blank on each side of it. -/
theorem Writes.between {cs cs' : List Char} {ks ks' : List Token.Kind} (h : Writes cs ks)
    (m : Mark) (h' : Writes cs' ks') :
    Writes (cs ++ ' ' :: m.char :: ' ' :: cs') (ks ++ .mark m :: ks') := by
  intro rest more hrest hmore
  have hright := (h' rest more hrest hmore).space (c := ' ') rfl
  have hmark := (spells_mark m hright).space (c := ' ') rfl
  have hleft := h _ _ (apart_cons (by decide) _) hmark
  simpa using hleft

/-- The text of an expression spells the kinds of its code. -/
theorem Drafted.writes {t : Tree} {c : Code} (h : Drafted t c) (hw : t.IsWritable) (step : Nat) :
    Writes (c.text step 0).toList c.kinds := by
  induction h with
  | literal n shown p =>
    rw [Code.text]
    exact writes_number hw
  | name id shown p =>
    intro rest more hrest hmore
    rw [Code.text]
    exact spells_name (Token.scan_eq_identifier_iff.mp hw) hrest hmore
  | @arith l r c d op shown p left right ihl ihr =>
    have hleft := (ihl hw.1).parenthesized (c.needsParens op false)
    have hright := (ihr hw.2).parenthesized (d.needsParens op true)
    have hsides := hleft.between op.mark hright
    simpa [Code.text, Code.kinds, ArithOp.symbol, Mark.text] using hsides
  | compare op p left right ihl ihr =>
    have hsides := (ihl hw.1).between op.mark (ihr hw.2)
    simpa [Code.text, Code.kinds, CompareOp.symbol, Mark.text] using hsides
  | choose p test yes no iht ihy ihn =>
    have hsides := (ihy hw.2.1).between .colon (ihn hw.2.2)
    have hall := (iht hw.1).between .question hsides
    simpa [Code.text, Code.kinds, Mark.char] using hall

/-- How tightly code holds together: an operation as its operator binds, all else tighter. -/
def Code.tightness : Code → Nat
  | .arith op _ _ => op.precedence
  | _ => 3

theorem needsParens_left (op : ArithOp) (c : Code) :
    c.needsParens op false = decide (c.tightness < op.precedence) := by
  cases c with
  | arith op' l r => cases op <;> cases op' <;> rfl
  | _ => cases op <;> rfl

theorem needsParens_right (op : ArithOp) (c : Code) :
    c.needsParens op true = decide (c.tightness < op.precedence + 1) := by
  cases c with
  | arith op' l r => cases op <;> cases op' <;> rfl
  | _ => cases op <;> rfl

def AtLevel : Nat → List Token → Tree → Prop
  | 0 | 1 => Phrase.Sum
  | 2 => Phrase.Product
  | _ => Phrase.Factor

theorem AtLevel.down {level : Nat} {ts : List Token} {t : Tree} (h : AtLevel (level + 1) ts t) :
    AtLevel level ts t :=
  match level, h with
  | 0, h => h
  | 1, h => Phrase.Sum.product h
  | 2, h => Phrase.Product.factor h
  | _ + 3, h => h

theorem AtLevel.mono {m n : Nat} {ts : List Token} {t : Tree} (hle : m ≤ n) (h : AtLevel n ts t) :
    AtLevel m ts t := by
  induction hle with
  | refl => exact h
  | step _ ih => exact ih h.down

/-- An operation is a phrase of the level of its operator. -/
theorem AtLevel.operation {op : ArithOp} {ts us : List Token} {l r : Tree}
    (hl : AtLevel op.precedence ts l) (hr : AtLevel (op.precedence + 1) us r) (p : Position) :
    AtLevel op.precedence (ts ++ ⟨.mark op.mark, p⟩ :: us) (.arith op l r false p) := by
  cases op with
  | add => exact Phrase.Sum.step p hl (.inl rfl) hr
  | sub => exact Phrase.Sum.step p hl (.inr rfl) hr
  | mul => exact Phrase.Product.step p hl (.inl rfl) hr
  | div => exact Phrase.Product.step p hl (.inr rfl) hr

/-- Tokens of these kinds, wherever they stand, are a phrase of the level for the tree. -/
def ReadsAs (level : Nat) (ks : List Token.Kind) (t : Tree) : Prop :=
  ∀ ts : List Token, ts.map Token.kind = ks → ∃ t', t'.bare = t.bare ∧ AtLevel level ts t'

theorem exists_split {ts : List Token} {ks ks' : List Token.Kind} {k : Token.Kind}
    (h : ts.map Token.kind = ks ++ k :: ks') : ∃ us p vs, ts = us ++ ⟨k, p⟩ :: vs ∧
      us.map Token.kind = ks ∧ vs.map Token.kind = ks' := by
  obtain ⟨us, ws, rfl, hus, hws⟩ := List.map_eq_append_iff.mp h
  obtain ⟨⟨k, p⟩, vs, rfl, rfl, hvs⟩ := List.map_eq_cons_iff.mp hws
  exact ⟨us, p, vs, rfl, hus, hvs⟩

/-- An operand reads as itself where parentheses stand around what is too loose for it. -/
theorem ReadsAs.bracketed {m : Nat} {ks : List Token.Kind} {t : Tree} (h : ReadsAs m ks t)
    (level : Nat) (hle : level ≤ 3) :
    ReadsAs level (bracketed (decide (m < level)) ks) t := by
  intro ts hts
  by_cases hloose : m < level
  · simp only [CSource.bracketed, hloose, decide_true, if_true] at hts
    obtain ⟨⟨_, p⟩, us, rfl, rfl, hus⟩ := List.map_eq_cons_iff.mp hts
    obtain ⟨vs, q, ws, rfl, hvs, hws⟩ := exists_split hus
    obtain ⟨t', hbare, hlevel⟩ := h vs hvs
    have hfactor := Phrase.Factor.parens p q (hlevel.mono m.zero_le)
    rw [List.map_eq_nil_iff] at hws
    subst hws
    exact ⟨t', hbare, AtLevel.mono hle hfactor⟩
  · simp only [CSource.bracketed, hloose, decide_false] at hts
    obtain ⟨t', hbare, hlevel⟩ := h ts hts
    exact ⟨t', hbare, hlevel.mono (by omega)⟩

/-- A negative number is read back as a sign and its opposite. -/
theorem readsAs_number {n : Int64} (hn : n.toInt ≠ -2 ^ 63) (shown : Bool) (p : Position) :
    ReadsAs 3 (Code.number n).kinds (.literal n shown p) := by
  intro ts hts
  by_cases hneg : n.toInt < 0
  · simp only [Code.kinds, hneg, if_true] at hts
    obtain ⟨⟨_, q⟩, us, rfl, rfl, hus⟩ := List.map_eq_cons_iff.mp hts
    obtain ⟨⟨_, r⟩, rfl, rfl⟩ := List.map_eq_singleton_iff.mp hus
    -- The sign is a token of its own, and the least integer has no opposite to put after it.
    have hopposite : n.toInt = -(-n).toInt := by
      have hle := n.le_toInt
      rw [Phrase.toInt_neg_of_gt (by omega)]
      omega
    exact ⟨.literal n false r, rfl, Phrase.Factor.minusLiteral q (.integer (-n) r) hopposite⟩
  · simp only [Code.kinds, hneg, if_false] at hts
    obtain ⟨⟨_, r⟩, rfl, rfl⟩ := List.map_eq_singleton_iff.mp hts
    exact ⟨.literal n false r, rfl, Phrase.Factor.integer n r⟩

theorem readsAs_var (id : String) (shown : Bool) (p : Position) :
    ReadsAs 3 (Code.var id).kinds (.name id shown p) := by
  intro ts hts
  obtain ⟨⟨_, r⟩, rfl, rfl⟩ := List.map_eq_singleton_iff.mp hts
  exact ⟨.name id false r, rfl, Phrase.Factor.name id r⟩

/-- Operands that are read back make an operation that is. -/
theorem ReadsAs.operation {op : ArithOp} {ks ks' : List Token.Kind} {l r : Tree}
    (hl : ReadsAs op.precedence ks l) (hr : ReadsAs (op.precedence + 1) ks' r) (shown : Bool)
    (p : Position) :
    ReadsAs op.precedence (ks ++ .mark op.mark :: ks') (.arith op l r shown p) := by
  intro ts hts
  obtain ⟨us, q, vs, rfl, hus, hvs⟩ := exists_split hts
  obtain ⟨l', hlbare, hlevel⟩ := hl us hus
  obtain ⟨r', hrbare, hrlevel⟩ := hr vs hvs
  refine ⟨.arith op l' r' false q, ?_, hlevel.operation hrlevel q⟩
  simp only [Tree.bare, hlbare, hrbare]

/-- The kinds of the code of an expression are read back as that expression. -/
theorem Drafted.readsAs {t : Tree} {c : Code} (h : Drafted t c) (ha : t.IsArith)
    (hw : t.IsWritable) : ReadsAs c.tightness c.kinds t := by
  induction h with
  | literal n shown p => exact readsAs_number hw shown p
  | name id shown p => exact readsAs_var id shown p
  | @arith l r c d op shown p left right ihl ihr =>
    have hprec : op.precedence + 1 ≤ 3 := by cases op <;> decide
    have hleft := (ihl ha.1 hw.1).bracketed op.precedence (by omega)
    have hright := (ihr ha.2 hw.2).bracketed (op.precedence + 1) hprec
    rw [← needsParens_left] at hleft
    rw [← needsParens_right] at hright
    exact hleft.operation hright shown p
  | compare => exact ha.elim
  | choose => exact ha.elim

/-- The expression as a sum, which is what all rules of the grammar ask for. -/
theorem Drafted.sum {t : Tree} {c : Code} (h : Drafted t c) (ha : t.IsArith)
    (hw : t.IsWritable) {ts : List Token} (hts : ts.map Token.kind = c.kinds) :
    ∃ t', t'.bare = t.bare ∧ Phrase.Sum ts t' := by
  obtain ⟨t', hbare, hlevel⟩ := h.readsAs ha hw ts hts
  exact ⟨t', hbare, hlevel.mono (Nat.zero_le _)⟩

/-- The code of a condition is read back as one. -/
theorem Drafted.comparison {t : Tree} {c : Code} (h : Drafted t c) (ht : t.IsTest)
    (hw : t.IsWritable) {ts : List Token} (hts : ts.map Token.kind = c.kinds) :
    ∃ t', t'.bare = t.bare ∧ Phrase.Comparison ts t' := by
  obtain hquiet | ⟨op, l, r, p, rfl, hlquiet, hrquiet⟩ := ht.isQuiet_or_compare
  · obtain ⟨t', hbare, hsum⟩ := h.sum hquiet.isArith hw hts
    exact ⟨t', hbare, .sum hsum⟩
  · cases h with
    | compare _ _ left right =>
      obtain ⟨us, q, vs, rfl, hus, hvs⟩ := exists_split hts
      obtain ⟨l', hlbare, hl⟩ := left.sum hlquiet.isArith hw.1 hus
      obtain ⟨r', hrbare, hr⟩ := right.sum hrquiet.isArith hw.2 hvs
      refine ⟨.compare op l' r' q, ?_, .compare op q hl hr⟩
      simp only [Tree.bare, hlbare, hrbare]

/-- The code of a value is read back as one. -/
theorem Drafted.value {t : Tree} {c : Code} (h : Drafted t c) (hv : t.IsValue)
    (hw : t.IsWritable) {ts : List Token} (hts : ts.map Token.kind = c.kinds) :
    ∃ t', t'.bare = t.bare ∧ Phrase.Value ts t' := by
  obtain hquiet | ⟨c, y, n, p, rfl, hctest, hyquiet, hnquiet⟩ := hv.isQuiet_or_choose
  · obtain ⟨t', hbare, hsum⟩ := h.sum hquiet.isArith hw hts
    exact ⟨t', hbare, .sum hsum⟩
  · cases h with
    | choose _ test yes no =>
      obtain ⟨us, q, vs, rfl, hus, hvs⟩ := exists_split hts
      obtain ⟨vs, r, ws, rfl, hvs, hws⟩ := exists_split hvs
      obtain ⟨c', hcbare, hc⟩ := test.comparison hctest hw.1 hus
      obtain ⟨y', hybare, hy⟩ := yes.sum hyquiet.isArith hw.2.1 hvs
      obtain ⟨n', hnbare, hn⟩ := no.sum hnquiet.isArith hw.2.2 hws
      refine ⟨.choose c' y' n' q, ?_, .choice q r hc hy hn⟩
      simp only [Tree.bare, hcbare, hybare, hnbare]

/-- The text of an assignment spells the keyword, the name, the sign and then the value. -/
theorem Writes.assignment {id text : String} {ks : List Token.Kind} (hid : IsName id)
    (h : Writes text.toList ks) :
    Spells ("let " ++ id ++ " = " ++ text ++ ";").toList
      (.keyword .letWord :: .identifier id :: .mark .equals :: (ks ++ [.mark .semicolon])) := by
  have hend := spells_mark .semicolon spells_nil
  have hvalue := (h _ _ (apart_cons (by decide) []) hend).space (c := ' ') rfl
  have hsign := (spells_mark .equals hvalue).space (c := ' ') rfl
  have hname := (spells_name hid (apart_cons (by decide) _) hsign).space (c := ' ') rfl
  have hlet := spells_word (s := "let") rfl (by decide) (List.all_eq_true.mp (by decide))
    (apart_cons (by decide) _) hname
  have hkeyword : wordKind "let" = .keyword .letWord := by decide
  simpa [Mark.char, hkeyword] using hlet

/-- An assignment of what is read back is a script of one statement. -/
theorem parse_assignment {id text : String} {ks : List Token.Kind} {v : Tree} (hid : IsName id)
    (hwrites : Writes text.toList ks)
    (hreads : ∀ ts : List Token, ts.map Token.kind = ks →
      ∃ v', v'.bare = v.bare ∧ Phrase.Value ts v') :
    ∃ v' p, Script.parse ("let " ++ id ++ " = " ++ text ++ ";") = .ok (.program [.assign id v' p]) ∧
      v'.bare = v.bare := by
  obtain ⟨ts, hscan, hkinds⟩ := Token.exists_scan (hwrites.assignment hid)
  obtain ⟨⟨_, p⟩, _, rfl, rfl, hname⟩ := List.map_eq_cons_iff.mp hkinds
  obtain ⟨⟨_, q⟩, _, rfl, rfl, hsign⟩ := List.map_eq_cons_iff.mp hname
  obtain ⟨⟨_, r⟩, _, rfl, rfl, hrest⟩ := List.map_eq_cons_iff.mp hsign
  obtain ⟨us, s, vs, rfl, hus, hvs⟩ := exists_split hrest
  rw [List.map_eq_nil_iff] at hvs
  subst hvs
  obtain ⟨v', hbare, hvalue⟩ := hreads us hus
  have hstatements := Phrase.Statements.cons (.assign id p q r s hvalue) .nil
  rw [List.append_nil] at hstatements
  have hprogram := (Phrase.Program.statements hstatements).eq_ok
  refine ⟨v', p, ?_, hbare⟩
  unfold Script.parse
  rw [hscan]
  simp only [hprogram]

/-- Scanning and reading the text of an expression gives the expression back, and so does the
text of an assignment: no parenthesis that is left out regroups an operation. -/
theorem text_reads_back (step : Nat) :
    (∀ (t : Tree) (d : Draft), t.IsArith → t.IsWritable →
      (∀ id ∈ t.names, d.bindings.contains id = true) →
      ∃ code, Gives (t.draft .value) d code d ∧
        ∃ ts t', Token.scan (code.text step 0) = .ok ts ∧ (sum ts).Yields t' [] ∧
          t'.bare = t.bare) ∧
    (∀ (id : String) (v : Tree) (d : Draft), Token.scan id = .ok [⟨.identifier id, .start⟩] →
      v.IsValue → v.IsWritable → (∀ name ∈ v.names, d.bindings.contains name = true) →
      ∃ code, Gives (v.draft .value) d code d ∧
        ∃ v' p, Script.parse ("let " ++ id ++ " = " ++ code.text step 0 ++ ";") =
            .ok (.program [.assign id v' p]) ∧ v'.bare = v.bare) := by
  constructor
  · intro t d ha hw hnames
    obtain ⟨code, hdraft⟩ := exists_drafted ha.isExpression
    refine ⟨code, (gives_draft ha.isExpression d d code).mpr ⟨hdraft, hnames, rfl⟩, ?_⟩
    have hspells := hdraft.writes hw step [] [] (by simp [Apart]) spells_nil
    rw [List.append_nil, List.append_nil] at hspells
    obtain ⟨ts, hscan, hkinds⟩ := Token.exists_scan hspells
    obtain ⟨t', hbare, hsum⟩ := hdraft.sum ha hw hkinds
    have htaken := hsum.taken [] (stops_nil _)
    rw [List.append_nil] at htaken
    exact ⟨ts, t', hscan, htaken, hbare⟩
  · intro id v d hid hv hw hnames
    obtain ⟨code, hdraft⟩ := exists_drafted hv.isExpression
    refine ⟨code, (gives_draft hv.isExpression d d code).mpr ⟨hdraft, hnames, rfl⟩, ?_⟩
    exact parse_assignment (Token.scan_eq_identifier_iff.mp hid) (hdraft.writes hw step)
      fun ts hts => hdraft.value hv hw hts

/-- The tree of `x - (-7 * (x + 1) - x)`. -/
def groupedTwice : Tree :=
  .arith .sub (.name "x" false ⟨1, 1⟩)
    (.arith .sub
      (.arith .mul (.literal (-7) false ⟨1, 7⟩)
        (.arith .add (.name "x" false ⟨1, 13⟩) (.literal 1 false ⟨1, 17⟩) false ⟨1, 15⟩)
        false ⟨1, 10⟩)
      (.name "x" false ⟨1, 22⟩) false ⟨1, 20⟩)
    false ⟨1, 3⟩

def groupedChoice : Tree :=
  .choose (.compare .less groupedTwice (.name "x" false ⟨1, 28⟩) ⟨1, 26⟩) groupedTwice
    (.name "x" false ⟨1, 34⟩) ⟨1, 30⟩

/-- Parentheses on the right and around a looser operand, and a choice. -/
theorem groupedTwice_reads_back :
    (groupedTwice.IsArith ∧ groupedTwice.IsWritable ∧
      ∃ code ts t', Token.scan (Code.text 4 code 0) = .ok ts ∧ (sum ts).Yields t' [] ∧
        t'.bare = groupedTwice.bare) ∧
    (groupedChoice.IsValue ∧ groupedChoice.IsWritable ∧
      ∃ code v' p, Script.parse ("let " ++ "x" ++ " = " ++ Code.text 4 code 0 ++ ";") =
        .ok (.program [.assign "x" v' p]) ∧ v'.bare = groupedChoice.bare) := by
  have hx : Token.scan "x" = .ok [⟨.identifier "x", .start⟩] := by with_unfolding_all rfl
  have harith : groupedTwice.IsArith := by simp [groupedTwice, Tree.IsArith]
  have hvalue : groupedChoice.IsValue := by
    simp [groupedChoice, groupedTwice, Tree.IsValue, Tree.IsTest, Tree.IsQuiet]
  have hw : groupedTwice.IsWritable := by
    simp only [groupedTwice, Tree.IsWritable, hx, true_and, and_true]
    decide
  have hw' : groupedChoice.IsWritable := ⟨⟨hw, hx⟩, hw, hx⟩
  have hbound : ∀ id ∈ groupedChoice.names,
      (Bindings.empty.define "x" (.integer 3)).contains id = true := by
    simp [groupedChoice, groupedTwice, Bindings.contains_define]
  obtain ⟨code, _, ts, t', hread⟩ := (text_reads_back 4).1 groupedTwice
    ⟨Bindings.empty.define "x" (.integer 3), {}⟩ harith hw
    fun id hid => hbound id (by simp [groupedChoice, hid])
  obtain ⟨code', _, v', p, hparse⟩ := (text_reads_back 4).2 "x" groupedChoice
    ⟨Bindings.empty.define "x" (.integer 3), {}⟩ hx hvalue hw' hbound
  exact ⟨⟨harith, hw, code, ts, t', hread⟩, hvalue, hw', code', v', p, hparse⟩

end CSource

end Scriptlet
