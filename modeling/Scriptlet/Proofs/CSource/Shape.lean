import Scriptlet.Proofs.CSource.Drafted

/-!
The shape of the code that scripts become. Values, conditions and statements of a script
become code of the same kind. The words in it, variables and counters, are those of the
script and of the counters, so what holds of these holds of all words in the code.
-/
namespace Scriptlet.CSource

section Shapes

variable (V : String → Prop)

namespace Code

def IsSum : Code → Prop
  | number _ => True
  | var id => V id
  | arith _ l r => l.IsSum ∧ r.IsSum
  | _ => False

def IsTest : Code → Prop
  | compare _ l r => l.IsSum V ∧ r.IsSum V
  | c => c.IsSum V

def IsValue : Code → Prop
  | choose c y n => c.IsTest V ∧ y.IsSum V ∧ n.IsSum V
  | c => c.IsSum V

end Code

mutual

def Code.IsStatement : Code → Prop
  | .printNumber _ => True
  | .print v => v.IsSum V
  | .set _ id v => V id ∧ v.IsValue V
  | .branch c => c.IsChain
  | .loop counter _ body => V counter ∧ Code.AllStatements body
  | _ => False

def Code.AllStatements : List Code → Prop
  | [] => True
  | c :: cs => c.IsStatement ∧ Code.AllStatements cs

def Chain.IsChain : Chain → Prop
  | .mk c body others last =>
    c.IsTest V ∧ Code.AllStatements body ∧ Chain.AllElifs others ∧ Code.AllStatements last

def Chain.AllElifs : List Chain → Prop
  | [] => True
  | .mk c body others last :: cs =>
    (c.IsTest V ∧ Code.AllStatements body ∧ others = [] ∧ last = []) ∧ Chain.AllElifs cs

end

end Shapes

section Monotone

variable {V W : String → Prop}

theorem Code.IsSum.mono (hVW : ∀ s, V s → W s) : {c : Code} → c.IsSum V → c.IsSum W
  | .number _, _ => trivial
  | .var id, h => hVW id h
  | .arith _ _ _, h => ⟨IsSum.mono hVW h.1, IsSum.mono hVW h.2⟩

theorem Code.IsTest.mono (hVW : ∀ s, V s → W s) {c : Code} (h : c.IsTest V) :
    c.IsTest W := by
  cases c with
  | compare op l r => exact ⟨h.1.mono hVW, h.2.mono hVW⟩
  | _ => exact IsSum.mono hVW h

theorem Code.IsValue.mono (hVW : ∀ s, V s → W s) {c : Code} (h : c.IsValue V) :
    c.IsValue W := by
  cases c with
  | choose c y n => exact ⟨h.1.mono hVW, h.2.1.mono hVW, h.2.2.mono hVW⟩
  | _ => exact IsSum.mono hVW h

mutual

theorem Code.IsStatement.mono (hVW : ∀ s, V s → W s) : {c : Code} → c.IsStatement V →
    c.IsStatement W
  | .printNumber _, _ => trivial
  | .print _, h => Code.IsSum.mono hVW h
  | .set _ id _, h => ⟨hVW id h.1, h.2.mono hVW⟩
  | .branch _, h => Chain.IsChain.mono hVW h
  | .loop counter _ _, h => ⟨hVW counter h.1, Code.AllStatements.mono hVW h.2⟩

theorem Code.AllStatements.mono (hVW : ∀ s, V s → W s) : {cs : List Code} →
    Code.AllStatements V cs → Code.AllStatements W cs
  | [], _ => trivial
  | _ :: _, h => ⟨Code.IsStatement.mono hVW h.1, Code.AllStatements.mono hVW h.2⟩

theorem Chain.IsChain.mono (hVW : ∀ s, V s → W s) : {c : Chain} → c.IsChain V → c.IsChain W
  | .mk _ _ _ _, h => ⟨h.1.mono hVW, Code.AllStatements.mono hVW h.2.1,
      Chain.AllElifs.mono hVW h.2.2.1, Code.AllStatements.mono hVW h.2.2.2⟩

theorem Chain.AllElifs.mono (hVW : ∀ s, V s → W s) : {cs : List Chain} →
    Chain.AllElifs V cs → Chain.AllElifs W cs
  | [], _ => trivial
  | .mk _ _ _ _ :: _, h =>
    ⟨⟨h.1.1.mono hVW, Code.AllStatements.mono hVW h.1.2.1, h.1.2.2⟩,
      Chain.AllElifs.mono hVW h.2⟩

end

end Monotone

section Drafts

variable {V : String → Prop}

/-- The code of quiet arithmetic is arithmetic on its names. -/
theorem Drafted.isSum {t : Tree} {c : Code} (hcode : Drafted t c) (hshape : t.IsQuiet)
    (h : ∀ id ∈ t.names, V id) : c.IsSum V := by
  induction hcode with
  | literal n shown p => trivial
  | name id shown p => exact h id (by simp)
  | arith op shown p left right ihl ihr =>
    exact ⟨ihl hshape.1 fun id hid => h id (by simp [hid]),
      ihr hshape.2.1 fun id hid => h id (by simp [hid])⟩
  | compare | choose => exact hshape.elim

theorem Code.IsSum.isTest {c : Code} (h : c.IsSum V) : c.IsTest V := by
  cases c with
  | compare op l r => exact h.elim
  | _ => exact h

theorem Code.IsSum.isValue {c : Code} (h : c.IsSum V) : c.IsValue V := by
  cases c with
  | choose c y n => exact h.elim
  | _ => exact h

theorem Drafted.isTest {t : Tree} {c : Code} (hcode : Drafted t c) (hshape : t.IsTest)
    (h : ∀ id ∈ t.names, V id) : c.IsTest V := by
  obtain hquiet | ⟨op, l, r, p, rfl, hl, hr⟩ := hshape.isQuiet_or_compare
  · exact (hcode.isSum hquiet h).isTest
  · cases hcode with
    | compare _ _ left right =>
      exact ⟨left.isSum hl fun id hid => h id (by simp [hid]),
        right.isSum hr fun id hid => h id (by simp [hid])⟩

theorem Drafted.isValue {t : Tree} {c : Code} (hcode : Drafted t c) (hshape : t.IsValue)
    (h : ∀ id ∈ t.names, V id) : c.IsValue V := by
  obtain hquiet | ⟨_, y, n, p, rfl, ht, hy, hn⟩ := hshape.isQuiet_or_choose
  · exact (hcode.isSum hquiet h).isValue
  · cases hcode with
    | choose _ test yes no =>
      exact ⟨test.isTest ht fun id hid => h id (by simp [hid]),
        yes.isSum hy fun id hid => h id (by simp [hid]),
        no.isSum hn fun id hid => h id (by simp [hid])⟩

theorem Drafted.isStatement_shown {t : Tree} {c : Code} (hcode : Drafted t c)
    (hshape : t.IsShownSum) (h : ∀ id ∈ t.names, V id) :
    (Code.shownAt .statement true c).IsStatement V := by
  cases hcode with
  | literal n shown p => trivial
  | name id shown p => exact h id (by simp)
  | arith op shown p left right =>
    exact ⟨left.isSum hshape.1 fun id hid => h id (by simp [hid]),
      right.isSum hshape.2.1 fun id hid => h id (by simp [hid])⟩
  | compare op p left right => exact hshape.elim
  | choose p test yes no => exact hshape.elim

mutual

/-- The code of a statement is one, in the names of the script and the counters. -/
theorem DraftsTo.isStatement (hcounter : ∀ n, V (Counters.name n)) {t : Tree} {c : Code}
    {d d' : Draft} : DraftsTo t d c d' → (∀ id, id ∈ t.names ∨ id ∈ t.targets → V id) →
    c.IsStatement V
  | .shown shape code _, h => code.isStatement_shown shape fun id hid => h id (.inl hid)
  | .assign x _ shape _ code _, h =>
    ⟨h x (by simp), code.isValue shape fun id hid => h id (.inl hid)⟩
  | .loop _ _ _ _ block, h => by
    simp only [Tree.gather, Tree.ownNames, Tree.ownTargets, List.nil_append,
      List.mem_append] at h
    exact ⟨hcounter _, block.allStatements hcounter (by grind)⟩
  | .branch _ shape code _ block elifs otherwise, h => by
    simp only [Tree.gather, Tree.ownNames, Branch.gather, Tree.ownTargets, List.nil_append,
      List.mem_append] at h
    exact ⟨code.isTest shape (by grind), block.allStatements hcounter (by grind),
      elifs.allElifs hcounter (by grind), otherwise.allStatements hcounter (by grind)⟩

theorem DraftsAll.allStatements (hcounter : ∀ n, V (Counters.name n)) {ts : List Tree}
    {cs : List Code} {d d' : Draft} : DraftsAll ts d cs d' →
    (∀ id, id ∈ Tree.namesAll ts ∨ id ∈ Tree.targetsAll ts → V id) →
    Code.AllStatements V cs
  | .nil _, _ => trivial
  | .cons head tail, h => by
    simp only [Tree.gatherAll, List.mem_append] at h
    exact ⟨head.isStatement hcounter (by grind), tail.allStatements hcounter (by grind)⟩

theorem DraftsElifs.allElifs (hcounter : ∀ n, V (Counters.name n)) {bs : List Branch}
    {cs : List Chain} {d d' : Draft} : DraftsElifs bs d cs d' →
    (∀ id, id ∈ Branch.namesAll bs ∨ id ∈ Branch.targetsAll bs → V id) →
    Chain.AllElifs V cs
  | .nil _, _ => trivial
  | .cons _ shape code _ block tail, h => by
    simp only [Branch.gatherAll, Branch.gather, List.mem_append] at h
    exact ⟨⟨code.isTest shape (by grind), block.allStatements hcounter (by grind), rfl, rfl⟩,
      tail.allElifs hcounter (by grind)⟩

end

end Drafts

end Scriptlet.CSource
