import Scriptlet.Proofs.CSource.Drafted
import Scriptlet.Proofs.CSource.Induction
import Scriptlet.Proofs.Tree.Safety
import Scriptlet.Proofs.Script

/-!
Scripts are safe, run or written out as C. A draft comes across the parts of a script in the
order of the text, and on its way it evaluates what is assigned and the bounds of loops.
The variables it keeps hold numbers all the time, no value is missing, and nothing that is
evaluated prints. For runs see `Visit.IsSafe`; the main result says both of every script
that is read.
-/
namespace Scriptlet

namespace CSource

structure Stage where
  part : Part
  draft : Draft

inductive Takes : Stage → Stage → Prop
  | program (body : List Tree) (d : Draft) : Takes ⟨.tree (.program body), d⟩ ⟨.block body, d⟩
  | arithLeft (op : ArithOp) (l r : Tree) (shown : Bool) (p : Position) (d : Draft) :
      Takes ⟨.tree (.arith op l r shown p), d⟩ ⟨.tree l, d⟩
  | arithRight {l : Tree} {c : Code} {d d' : Draft} (op : ArithOp) (r : Tree) (shown : Bool)
      (p : Position) (left : Gives (l.draft .value) d c d') :
      Takes ⟨.tree (.arith op l r shown p), d⟩ ⟨.tree r, d'⟩
  | compareLeft (op : CompareOp) (l r : Tree) (p : Position) (d : Draft) :
      Takes ⟨.tree (.compare op l r p), d⟩ ⟨.tree l, d⟩
  | compareRight {l : Tree} {c : Code} {d d' : Draft} (op : CompareOp) (r : Tree) (p : Position)
      (left : Gives (l.draft .value) d c d') :
      Takes ⟨.tree (.compare op l r p), d⟩ ⟨.tree r, d'⟩
  | assigned {v : Tree} {x : Value} {d d' : Draft} (id : String) (p : Position)
      (value : Gives (Drafting.evaluate v) d x d') :
      Takes ⟨.tree (.assign id v p), d⟩ ⟨.tree v, d'⟩
  | choiceTest (t y n : Tree) (p : Position) (d : Draft) :
      Takes ⟨.tree (.choose t y n p), d⟩ ⟨.tree t, d⟩
  | choiceYes {t : Tree} {c : Code} {d d' : Draft} (y n : Tree) (p : Position)
      (test : Gives (t.draft .value) d c d') : Takes ⟨.tree (.choose t y n p), d⟩ ⟨.tree y, d'⟩
  | choiceNo {t y : Tree} {c c' : Code} {d d' d'' : Draft} (n : Tree) (p : Position)
      (test : Gives (t.draft .value) d c d') (yes : Gives (y.draft .value) d' c' d'') :
      Takes ⟨.tree (.choose t y n p), d⟩ ⟨.tree n, d''⟩
  | chain (b : Branch) (d : Draft) : Takes ⟨.tree (.branch b), d⟩ ⟨.branch b, d⟩
  | branchTest (t : Tree) (body : List Tree) (others : List Branch) (last : List Tree)
      (p : Position) (d : Draft) : Takes ⟨.branch ⟨t, body, others, last, p⟩, d⟩ ⟨.tree t, d⟩
  | branchBody {t : Tree} {c : Code} {d d' : Draft} (body : List Tree) (others : List Branch)
      (last : List Tree) (p : Position) (test : Gives (t.draft .value) d c d') :
      Takes ⟨.branch ⟨t, body, others, last, p⟩, d⟩ ⟨.block body, d'⟩
  | branchOthers {t : Tree} {c : Code} {body : List Tree} {cs : List Code} {d d' d'' : Draft}
      (others : List Branch) (last : List Tree) (p : Position)
      (test : Gives (t.draft .value) d c d') (block : Gives (Tree.draftAll body) d' cs d'') :
      Takes ⟨.branch ⟨t, body, others, last, p⟩, d⟩ ⟨.first others, d''⟩
  | branchLast {t : Tree} {c : Code} {body : List Tree} {cs : List Code}
      {others : List Branch} {chains : List Chain} {d d₁ d₂ d₃ : Draft} (last : List Tree)
      (p : Position) (test : Gives (t.draft .value) d c d₁)
      (block : Gives (Tree.draftAll body) d₁ cs d₂)
      (elifs : Gives (Branch.draftAll others) d₂ chains d₃) :
      Takes ⟨.branch ⟨t, body, others, last, p⟩, d⟩ ⟨.block last, d₃⟩
  | firstHead (b : Branch) (bs : List Branch) (d : Draft) :
      Takes ⟨.first (b :: bs), d⟩ ⟨.branch b, d⟩
  | firstTail {b : Branch} {c : Chain} {d d' : Draft} (bs : List Branch)
      (head : Gives b.draft d c d') : Takes ⟨.first (b :: bs), d⟩ ⟨.first bs, d'⟩
  | turn {b : Tree} {v : Value} {n : Nat} {counter : String} {d d₁ d₂ : Draft}
      (body : List Tree) (p : Position) (bound : Gives (Drafting.evaluate b) d v d₁)
      (count : v.count p = .ok n) (named : Gives Drafting.takeCounter d₁ counter d₂) :
      Takes ⟨.tree (.loop b body p), d⟩ ⟨.block body, d₂⟩
  | head (t : Tree) (ts : List Tree) (d : Draft) : Takes ⟨.block (t :: ts), d⟩ ⟨.tree t, d⟩
  | tail {t : Tree} {c : Code} {d d' : Draft} (ts : List Tree)
      (head : Gives (t.draft .statement) d c d') : Takes ⟨.block (t :: ts), d⟩ ⟨.block ts, d'⟩

/-- However it ends, no value is missing in the draft and all variables hold numbers after
it. -/
def Safely {α : Type} (drafting : Drafting α) (d : Draft) : Prop :=
  ∀ r d', drafting.run d = (r, d') → (∀ p, r ≠ .error (.noValue p)) ∧ d'.bindings.IsNumeric

section Safely

variable {α β : Type} {d : Draft}

theorem safely_iff {x : Drafting α} : Safely x d ↔
    (∀ a d', Gives x d a d' → d'.bindings.IsNumeric) ∧
    ∀ e d', Fails x d e d' → (∀ p, e ≠ .noValue p) ∧ d'.bindings.IsNumeric := by
  constructor
  · intro h
    refine ⟨fun a d' hgives => (h _ d' hgives).2, fun e d' hfails => ?_⟩
    obtain ⟨he, hd⟩ := h _ d' hfails
    exact ⟨fun p hp => he p (by rw [hp]), hd⟩
  · rintro ⟨hgives, hfails⟩ r d' hrun
    cases r with
    | ok a => exact ⟨nofun, hgives a d' hrun⟩
    | error e =>
      obtain ⟨he, hd⟩ := hfails e d' hrun
      exact ⟨fun p hp => he p (by cases hp; rfl), hd⟩

theorem safely_pure (a : α) (hd : d.bindings.IsNumeric) : Safely (pure a) d := by
  simp only [safely_iff, gives_pure, not_fails_pure]
  refine ⟨fun _ d' h => h.2 ▸ hd, fun _ _ h => h.elim⟩

theorem Safely.bind {x : Drafting α} {f : α → Drafting β} (h : Safely x d)
    (hf : ∀ a d', Gives x d a d' → d'.bindings.IsNumeric → Safely (f a) d') :
    Safely (x >>= f) d := by
  rw [safely_iff] at h ⊢
  refine ⟨fun b d' hgives => ?_, fun e d' hfails => ?_⟩
  · obtain ⟨a, d₁, hrun, hmore⟩ := (gives_bind ..).mp hgives
    exact (safely_iff.mp (hf a d₁ hrun (h.1 a d₁ hrun))).1 b d' hmore
  · rcases (fails_bind ..).mp hfails with hrun | ⟨a, d₁, hrun, hmore⟩
    · exact h.2 e d' hrun
    · exact (safely_iff.mp (hf a d₁ hrun (h.1 a d₁ hrun))).2 e d' hmore

theorem safely_ofExcept {r : Except RunError α} (h : ∀ p, r ≠ .error (.noValue p))
    (hd : d.bindings.IsNumeric) : Safely (Attempt.ofExcept r) d := by
  simp only [safely_iff, Attempt.gives_ofExcept, Attempt.fails_ofExcept]
  refine ⟨fun a d' ha => ha.2 ▸ hd, fun e d' he => ⟨fun p hp => h p ?_, he.2 ▸ hd⟩⟩
  rw [he.1, hp]

theorem safely_resolve (id : String) (p : Position) (hd : d.bindings.IsNumeric) :
    Safely (Drafting.resolve id p) d := by
  simp only [safely_iff, Attempt.gives_resolve, Attempt.fails_resolve]
  refine ⟨fun v d' hv => hv.2 ▸ hd, fun e d' he => ⟨fun q hq => ?_, he.2 ▸ hd⟩⟩
  rw [he.1.1] at hq
  cases hq

theorem safely_evaluate {t : Tree} (ht : t.IsSilent) (hd : d.bindings.IsNumeric) :
    Safely (Drafting.evaluate t) d := by
  rw [safely_iff]
  refine ⟨fun v d' hv => ?_, fun e d' he => ?_⟩
  · obtain ⟨_, rfl⟩ := (Drafting.gives_evaluate_silent ht).mp hv
    exact hd
  · obtain ⟨m, hfails, rfl⟩ := (Drafting.fails_evaluate ..).mp he
    obtain ⟨rfl, hvalue⟩ := (calm_iff.mp (ht.calm_runValue _)).2 e m hfails
    exact ⟨hvalue, hd⟩

theorem safely_define {name : String} {u : Tree} {p : Position} {v : Value} {c : Code}
    {d₁ d₂ : Draft} (h : Part.IsProper (.tree (.assign name u p)))
    (hvalue : Gives (Drafting.evaluate u) d v d₁) (hcode : Gives (u.draft .value) d₁ c d₂)
    (hd₂ : d₂.bindings.IsNumeric) : Safely (Drafting.define name v) d₂ := by
  obtain ⟨hv, rfl⟩ := (Drafting.gives_evaluate_silent h.assigned.isSilent).mp hvalue
  obtain ⟨_, _, rfl⟩ := (gives_draft h.assigned.isExpression _ _ _).mp hcode
  have hnumber := h.assigned.isNumber hd₂ hv
  simp only [safely_iff, Drafting.gives_define, Drafting.not_fails_define]
  exact ⟨fun _ _ h => h ▸ hd₂.define hnumber name, fun _ _ h => h.elim⟩

theorem safely_get (hd : d.bindings.IsNumeric) : Safely (get : Drafting Draft) d := by
  simp only [safely_iff, gives_get, not_fails_get]
  exact ⟨fun _ _ h => h.2 ▸ hd, fun _ _ h => h.elim⟩

theorem safely_takeCounter (hd : d.bindings.IsNumeric) : Safely Drafting.takeCounter d := by
  simp only [safely_iff, Drafting.gives_takeCounter, Drafting.not_fails_takeCounter]
  exact ⟨fun _ _ h => h.2 ▸ hd, fun _ _ h => h.elim⟩

end Safely

/-- Drafts of proper parts obey the rules for safety. -/
theorem safely_draftRules : DraftRules id Part.IsProper
    (fun _ _ x _ d => d.bindings.IsNumeric → Safely x d) where
  part h hholds := h.holds hholds
  of_pure _ hd := safely_pure _ hd
  bind hx hnext hd := (hx hd).bind hnext
  after _ h := h
  of_get hd := safely_get hd
  resolve _ hd := safely_resolve _ _ hd
  evaluate h heval hd := safely_evaluate (h.isSilent heval.holds heval.ne_block) hd
  define h hvalue hcode hd := safely_define h hvalue hcode hd
  count _ hd := safely_ofExcept (Value.count_ne_noValue _ _) hd
  takeCounter hd := safely_takeCounter hd

theorem Safely.numeric {α : Type} {x : Drafting α} {a : α} {d d' : Draft} (h : Safely x d)
    (hgives : Gives x d a d') : d'.bindings.IsNumeric :=
  (h _ d' hgives).2

theorem Takes.holds {x y : Stage} (h : Takes x y) : x.part.Holds y.part := by
  cases h <;> constructor

end CSource

def Part.draft : Part → CSource.Place → CSource.Drafting Unit
  | tree t, place => t.draft place >>= fun _ => pure ()
  | block ts, _ => Tree.draftAll ts >>= fun _ => pure ()
  | branch b, _ => b.draft >>= fun _ => pure ()
  | first bs, _ => Branch.draftAll bs >>= fun _ => pure ()

theorem Part.draft_tree {t : Tree} {place : CSource.Place} {d d' : CSource.Draft}
    {r : Except RunError CSource.Code} (h : (t.draft place).run d = (r, d')) :
    ((tree t).draft place).run d = (r.map fun _ => (), d') := by
  rw [draft, run_bind, h]
  cases r <;> rfl

namespace CSource.Stage

structure IsProper (x : Stage) : Prop where
  shape : x.part.IsProper
  numeric : x.draft.bindings.IsNumeric

/-- Drafting a proper part is safe. -/
theorem IsProper.safely {x : Stage} (h : x.IsProper) (place : Place) :
    Safely (x.part.draft place) x.draft := by
  obtain ⟨part, d⟩ := x
  obtain ⟨hshape, hd⟩ := h
  cases part with
  | tree t =>
    exact (safely_draftRules.tree t hshape place d hd).bind fun _ _ _ hd' => safely_pure () hd'
  | block ts =>
    exact (safely_draftRules.block ts hshape d hd).bind fun _ _ _ hd' => safely_pure () hd'
  | branch b =>
    exact (safely_draftRules.branch b hshape d hd).bind fun _ _ _ hd' => safely_pure () hd'
  | first bs =>
    exact (safely_draftRules.first bs hshape d hd).bind fun _ _ _ hd' => safely_pure () hd'

theorem numeric_of_draft {t : Tree} (ht : t.IsSilent) {c : Code} {d d' : Draft}
    (hd : d.bindings.IsNumeric) (hdraft : Gives (t.draft .value) d c d') :
    d'.bindings.IsNumeric := by
  obtain ⟨_, _, rfl⟩ := (gives_draft ht.isExpression _ _ _).mp hdraft
  exact hd

theorem IsProper.numeric_takes {x y : Stage} (h : x.IsProper) (htakes : Takes x y) :
    y.draft.bindings.IsNumeric := by
  obtain ⟨hshape, hd⟩ := h
  cases htakes with
  | arithRight op r shown p left => exact numeric_of_draft hshape.operands.1 hd left
  | compareRight op r p left => exact numeric_of_draft hshape.compared.1 hd left
  | assigned name p value => exact (safely_evaluate hshape.assigned.isSilent hd).numeric value
  | choiceYes y n p test => exact numeric_of_draft hshape.choice.1 hd test
  | choiceNo n p test yes =>
    exact numeric_of_draft hshape.choice.2.1 (numeric_of_draft hshape.choice.1 hd test) yes
  | branchBody body others last p test => exact numeric_of_draft hshape.1.isSilent hd test
  | branchOthers others last p test block =>
    have hd₁ := numeric_of_draft hshape.1.isSilent hd test
    exact (safely_draftRules.block _ hshape.2.1 _ hd₁).numeric block
  | branchLast last p test block elifs =>
    have hd₁ := numeric_of_draft hshape.1.isSilent hd test
    have hd₂ := (safely_draftRules.block _ hshape.2.1 _ hd₁).numeric block
    exact (safely_draftRules.first _ hshape.2.2.1 _ hd₂).numeric elifs
  | firstTail bs head => exact (safely_draftRules.branch _ hshape.head.1 _ hd).numeric head
  | turn body p bound count named =>
    have hd₁ := (safely_evaluate hshape.loop.1.isSilent hd).numeric bound
    exact (safely_takeCounter hd₁).numeric named
  | tail ts head =>
    exact (safely_draftRules.tree _ (.inr (.inl hshape.1)) .statement _ hd).numeric head
  | _ => exact hd

/-- From a proper part a draft comes to proper parts only. -/
theorem IsProper.takes {x y : Stage} (h : x.IsProper) (htakes : Takes x y) : y.IsProper :=
  ⟨h.shape.holds htakes.holds, h.numeric_takes htakes⟩

theorem IsProper.reaches {x y : Stage} (h : x.IsProper)
    (hreaches : Relation.ReflTransGen Takes x y) : y.IsProper := by
  induction hreaches with
  | refl => exact h
  | tail _ htakes ih => exact ih.takes htakes

/-- What a draft does at `x`. Whatever an evaluation there comes across changes nothing, so
it prints nothing. -/
structure IsSafe (x : Stage) : Prop where
  numeric : x.draft.bindings.IsNumeric
  ends : ∀ place r d', (x.part.draft place).run x.draft = (r, d') →
    (∀ p, r ≠ .error (.noValue p)) ∧ d'.bindings.IsNumeric
  evaluated : ∀ u, x.part.Evaluates u →
    ∀ y, Reaches ⟨.tree u, 0, { bindings := x.draft.bindings }⟩ y →
      y.machine.bindings.IsNumeric ∧ ∀ r m', y.part.run.run y.machine = (r, m') →
        m' = y.machine ∧ ∀ p, r ≠ .error (.noValue p)

theorem IsProper.isSafe {x : Stage} (h : x.IsProper) : x.IsSafe := by
  refine ⟨h.numeric, h.safely, fun u hu y hreaches => ?_⟩
  have hsilent := h.shape.isSilent hu.holds hu.ne_block
  obtain ⟨hpart, hm⟩ := Visit.isSilent_reaches (x := ⟨.tree u, 0, _⟩) hsilent hreaches
  refine ⟨by rw [hm]; exact h.numeric, ?_⟩
  obtain ⟨part, k, m⟩ := y
  cases part with
  | tree w => exact (Tree.IsSilent.calm hpart m).bind fun _ _ _ => calm_pure () _
  | _ => exact hpart.elim

end CSource.Stage

namespace Script

open CSource

/-- Scripts are proper. -/
theorem isProper_of_parse {source : String} {t : Tree} (h : parse source = .ok t) :
    Part.IsProper (.tree t) := by
  obtain ⟨ts, _, hphrase⟩ := phrase_of_parse h
  cases hphrase with
  | statements all => exact .inl all.allStatements

theorem not_isShownSum_of_parse {source : String} {t : Tree} (h : parse source = .ok t) :
    ¬ t.IsShownSum := by
  obtain ⟨ts, _, hphrase⟩ := phrase_of_parse h
  cases hphrase with
  | statements all => exact id

/-- A script that is read is safe. Every part that a run of it comes across is, on whatever
output, and every part that a draft of its C code comes across. In particular neither ends
with a missing value, and what is printed are lines with numbers, each the value of an
expression that is a statement. -/
theorem isSafe_of_parse {source : String} {t : Tree} (hparse : parse source = .ok t) :
    (∀ output x, Reaches ⟨.tree t, 0, { output := output }⟩ x →
      Visit.IsSafe ⟨.tree t, 0, { output := output }⟩ x) ∧
    (∀ x, Relation.ReflTransGen Takes ⟨.tree t, {}⟩ x → x.IsSafe) ∧
    (∀ output, (∀ p, (run source output).result ≠ .error (.run (.noValue p))) ∧
      ∃ values, (run source output).output = (output.writeAll values).text ∧
        ∀ v ∈ values, Visit.Prints ⟨.tree t, 0, { output := output }⟩ v) ∧
    ∀ step p, toC source step ≠ .error (.run (.noValue p)) := by
  have hshape := isProper_of_parse hparse
  have hrun : ∀ output x, Reaches ⟨.tree t, 0, { output := output }⟩ x →
      Visit.IsSafe ⟨.tree t, 0, { output := output }⟩ x := by
    intro output x
    refine Visit.IsProper.isSafe ⟨hshape, Bindings.isNumeric_empty⟩ fun u hu => ?_
    cases hu
    exact not_isShownSum_of_parse hparse
  have hdraft : ∀ x, Relation.ReflTransGen Takes ⟨.tree t, {}⟩ x → x.IsSafe := by
    intro x hx
    have hstart : Stage.IsProper ⟨.tree t, {}⟩ := ⟨hshape, Bindings.isNumeric_empty⟩
    exact (hstart.reaches hx).isSafe
  refine ⟨hrun, hdraft, fun output => ?_, fun step p => ?_⟩
  · cases hend : t.run.run { output := output } with
    | mk r m =>
      rw [run_of_parse hparse hend]
      obtain ⟨hvalue, _, values, hvalues, hprints⟩ :=
        (hrun output _ .refl).ends _ m (Part.run_tree hend)
      cases r with
      | ok a => exact ⟨nofun, values, congrArg Output.text hvalues, hprints⟩
      | error e =>
        refine ⟨fun p he => hvalue p ?_, values, congrArg Output.text hvalues, hprints⟩
        cases he
        rfl
  · unfold toC
    simp only [hparse]
    cases hend : (t.draft .statement).run {} with
    | mk r d =>
      obtain ⟨hvalue, _⟩ := (hdraft _ .refl).ends .statement _ d (Part.draft_tree hend)
      cases r with
      | ok code => exact nofun
      | error e =>
        intro he
        cases he
        exact hvalue p rfl

/-- The script `let n = 2 < 3 ? 4 : 5; if n > 3 { n - 1; }`. -/
def chosenAndShown : List Tree :=
  [.assign "n" (.choose (.compare .less (.literal 2 false ⟨1, 9⟩) (.literal 3 false ⟨1, 13⟩)
      ⟨1, 11⟩) (.literal 4 false ⟨1, 17⟩) (.literal 5 false ⟨1, 21⟩) ⟨1, 15⟩) ⟨1, 1⟩,
    .branch ⟨.compare .greater (.name "n" false ⟨1, 27⟩) (.literal 3 false ⟨1, 31⟩) ⟨1, 29⟩,
      [.arith .sub (.name "n" false ⟨1, 35⟩) (.literal 1 false ⟨1, 39⟩) true ⟨1, 37⟩], [], [],
      ⟨1, 24⟩⟩]

/-- Neither condition is printed, only the number that stands as a statement. -/
theorem chosenAndShown_isSafe :
    parse "let n = 2 < 3 ? 4 : 5; if n > 3 \x7b n - 1; \x7d" = .ok (.program chosenAndShown) ∧
    ∃ values : List Value, "3\n" = (({} : Output).writeAll values).text ∧
      ∀ v ∈ values, Visit.Prints ⟨.tree (.program chosenAndShown), 0, {}⟩ v := by
  have hparse : parse "let n = 2 < 3 ? 4 : 5; if n > 3 \x7b n - 1; \x7d" =
      .ok (.program chosenAndShown) := by with_unfolding_all rfl
  have hend : (Tree.program chosenAndShown).run.run {} =
      (.ok none, ⟨Bindings.empty.define "n" (.integer 4), ⟨"3\n", none⟩⟩) := rfl
  have houtput : (run "let n = 2 < 3 ? 4 : 5; if n > 3 \x7b n - 1; \x7d" {}).output = "3\n" := by
    rw [run_of_parse hparse hend]
  obtain ⟨_, values, hvalues, hprints⟩ := (isSafe_of_parse hparse).2.2.1 {}
  exact ⟨hparse, values, houtput ▸ hvalues, hprints⟩

end Script

end Scriptlet
