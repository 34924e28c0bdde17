import Scriptlet.Proofs.Script

/-!
The names of a script. Whatever a tree of the grammar uses or assigns to stands as an
identifier among its tokens, so in a scanned script all of them are names.
-/
namespace Scriptlet

namespace Grammar

def identifiers (ts : List Token) : List String :=
  ts.filterMap fun t => match t.kind with
    | .identifier s => some s
    | _ => none

@[simp] theorem identifiers_append (ts us : List Token) :
    identifiers (ts ++ us) = identifiers ts ++ identifiers us :=
  List.filterMap_append

@[simp] theorem identifiers_mark (m : Mark) (p : Position) (ts : List Token) :
    identifiers (⟨.mark m, p⟩ :: ts) = identifiers ts := rfl

@[simp] theorem identifiers_keyword (k : Keyword) (p : Position) (ts : List Token) :
    identifiers (⟨.keyword k, p⟩ :: ts) = identifiers ts := rfl

@[simp] theorem identifiers_identifier (s : String) (p : Position) (ts : List Token) :
    identifiers (⟨.identifier s, p⟩ :: ts) = s :: identifiers ts := rfl

@[simp] theorem identifiers_nil : identifiers [] = [] := rfl

/-- The identifiers are the names of the tokens that have one. -/
theorem mem_identifiers {ts : List Token} {s : String} :
    s ∈ identifiers ts ↔ ∃ t ∈ ts, t.kind = .identifier s := by
  simp only [identifiers, List.mem_filterMap]
  grind

namespace Phrase

mutual

/-- The names of a factor are identifiers among its tokens. -/
theorem Factor.names_subset {ts : List Token} {t : Tree} : Factor ts t → t.names ⊆ identifiers ts
  | .integer _ _ => by simp
  | .name _ _ => by simp
  | .parens _ _ inner => by simpa using inner.names_subset
  | .plus _ operand => by simpa using operand.names_subset
  | .minusLiteral _ _ _ => by simp
  | .minus _ operand _ => by simpa using operand.names_subset

theorem Product.names_subset {ts : List Token} {t : Tree} :
    Product ts t → t.names ⊆ identifiers ts
  | .factor only => only.names_subset
  | .step _ left _ right => by
    have hl := left.names_subset
    have hr := right.names_subset
    grind [Tree.gather, Tree.ownNames, identifiers_append, identifiers_mark]

theorem Sum.names_subset {ts : List Token} {t : Tree} : Sum ts t → t.names ⊆ identifiers ts
  | .product only => only.names_subset
  | .step _ left _ right => by
    have hl := left.names_subset
    have hr := right.names_subset
    grind [Tree.gather, Tree.ownNames, identifiers_append, identifiers_mark]

end

theorem Comparison.names_subset {ts : List Token} {t : Tree} (h : Comparison ts t) :
    t.names ⊆ identifiers ts := by
  cases h with
  | sum only => exact only.names_subset
  | compare op p left right =>
    have hl := left.names_subset
    have hr := right.names_subset
    grind [Tree.gather, Tree.ownNames, identifiers_append, identifiers_mark]

theorem Value.names_subset {ts : List Token} {t : Tree} (h : Value ts t) :
    t.names ⊆ identifiers ts := by
  cases h with
  | sum only => exact only.names_subset
  | choice p q test yes no =>
    have hc := test.names_subset
    have hy := yes.names_subset
    have hn := no.names_subset
    grind [Tree.gather, Tree.ownNames, identifiers_append, identifiers_mark]

theorem Value.targets_eq_nil {ts : List Token} {t : Tree} (h : Value ts t) : t.targets = [] :=
  h.isValue.isExpression.targets_eq_nil

theorem Comparison.targets_eq_nil {ts : List Token} {t : Tree} (h : Comparison ts t) :
    t.targets = [] :=
  h.isTest.isExpression.targets_eq_nil

mutual

/-- What a statement uses or assigns to is an identifier among its tokens. -/
theorem Statement.names_subset {ts : List Token} {t : Tree} : Statement ts t →
    t.names ⊆ identifiers ts ∧ t.targets ⊆ identifiers ts
  | @Statement.shown k ts t q expression _ => by
    have hnames : t.asShown.names = t.names := by cases t <;> rfl
    have htargets := expression.isQuiet.isShownSum_asShown.isExpression.targets_eq_nil
    have hsum := expression.names_subset
    rw [← List.cons_append, identifiers_append, hnames, htargets]
    exact ⟨List.Subset.trans hsum (List.subset_append_left ..), List.nil_subset _⟩
  | .assign _ _ _ _ _ value => by
    have hvalue := value.names_subset
    grind [Tree.gather, Tree.ownNames, Tree.ownTargets, value.targets_eq_nil, identifiers_append,
      identifiers_mark, identifiers_keyword, identifiers_identifier]
  | .loop _ bound block => by
    have hbound := bound.names_subset
    have htargets := bound.isQuiet.isExpression.targets_eq_nil
    have hblock := block.names_subset
    grind [Tree.gather, Tree.ownNames, Tree.ownTargets, identifiers_append, identifiers_keyword]
  | .branch _ test block elifs otherwise => by
    have htest := test.names_subset
    have hblock := block.names_subset
    have helifs := elifs.names_subset
    have hlast := otherwise.names_subset
    grind [Tree.gather, Tree.ownNames, Tree.ownTargets, Branch.gather, test.targets_eq_nil,
      identifiers_append, identifiers_keyword]

theorem Statements.names_subset {ts : List Token} {body : List Tree} : Statements ts body →
    Tree.namesAll body ⊆ identifiers ts ∧ Tree.targetsAll body ⊆ identifiers ts
  | .nil => by simp
  | .cons head tail => by
    have hhead := head.names_subset
    have htail := tail.names_subset
    grind [Tree.gatherAll, identifiers_append]

theorem Block.names_subset {ts : List Token} {body : List Tree} : Block ts body →
    Tree.namesAll body ⊆ identifiers ts ∧ Tree.targetsAll body ⊆ identifiers ts
  | .braces _ _ inner => by simpa using inner.names_subset

theorem Elifs.names_subset {ts : List Token} {others : List Branch} : Elifs ts others →
    Branch.namesAll others ⊆ identifiers ts ∧ Branch.targetsAll others ⊆ identifiers ts
  | .nil => by simp
  | .cons _ test block tail => by
    have htest := test.names_subset
    have hblock := block.names_subset
    have htail := tail.names_subset
    grind [Branch.gather, Branch.gatherAll, Tree.gatherAll, test.targets_eq_nil, identifiers_append,
      identifiers_keyword]

theorem Otherwise.names_subset {ts : List Token} {last : List Tree} : Otherwise ts last →
    Tree.namesAll last ⊆ identifiers ts ∧ Tree.targetsAll last ⊆ identifiers ts
  | .absent => by simp
  | .block _ block => by simpa using block.names_subset

end

end Phrase

end Grammar

namespace Script

/-- The names of a script are spelled as names. -/
theorem isName_of_parse {source : String} {body : List Tree}
    (h : parse source = .ok (.program body)) {id : String}
    (hid : id ∈ Tree.namesAll body ∨ id ∈ Tree.targetsAll body) : Lexeme.IsName id := by
  obtain ⟨ts, hscan, hphrase⟩ := phrase_of_parse h
  cases hphrase with
  | statements all =>
    have hmem : id ∈ Grammar.identifiers ts :=
      hid.elim (fun hid => all.names_subset.1 hid) fun hid => all.names_subset.2 hid
    obtain ⟨t, ht, hkind⟩ := Grammar.mem_identifiers.mp hmem
    exact Token.isName_of_mem_scan hscan ht hkind

end Script

end Scriptlet
