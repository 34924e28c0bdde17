import Scriptlet.Proofs.CSource.Tokens
import Scriptlet.Proofs.Grammar.Names
import Scriptlet.Proofs.Tree.Drift

/-!
How often the loops of a C text turn, and how often those of its script do. The number in the
head of a C loop is the one that the bound has in a sweep of the script. A run of the
script takes the number that the bound has when the run comes there, which is the same one
unless some name of the bound drifts.
-/
namespace Scriptlet

namespace C

/-- The limit in the head of a counted loop, if the tokens start with one:
`for (int i = 0; i < n`. -/
def forBound? (ts : List Token) : Option Nat :=
  if ts.take 3 = [.word "for", .mark '(', .word "int"] ∧ ts[8]? = some (.mark '<') then
    match ts[9]? with
    | some (Token.number n) => some n
    | _ => none
  else none

def forBounds : List Token → List Nat
  | [] => []
  | t :: ts => (forBound? (t :: ts)).toList ++ forBounds ts

def loopBounds (text : String) : Option (List Nat) :=
  (Token.scan text.toList).map forBounds

/-- Only a word `for` with a parenthesis after it starts a loop. -/
theorem forBounds_cons {t : Token} {ts : List Token}
    (h : t ≠ .word "for" ∨ ts.head? ≠ some (.mark '(')) : forBounds (t :: ts) = forBounds ts := by
  have hnone : forBound? (t :: ts) = none := by
    unfold forBound?
    rw [if_neg]
    rintro ⟨hhead, _⟩
    cases ts <;> simp_all
  rw [forBounds, hnone]
  rfl

end C

namespace CSource

open C C.Token

mutual

def Code.turns : Code → List Nat
  | .main body => Code.turnsAll body
  | .branch chain => chain.turns
  | .loop _ turns body => turns :: Code.turnsAll body
  | _ => []

def Code.turnsAll : List Code → List Nat
  | [] => []
  | c :: cs => c.turns ++ Code.turnsAll cs

def Chain.turns : Chain → List Nat
  | .mk _ body others last => Code.turnsAll body ++ (Chain.turnsAll others ++ Code.turnsAll last)

def Chain.turnsAll : List Chain → List Nat
  | [] => []
  | c :: cs => c.turns ++ Chain.turnsAll cs

end

/-- The tokens start no loop, whatever stands after them other than a parenthesis. -/
def LoopFree (ts : List C.Token) : Prop :=
  ∀ rest, rest.head? ≠ some (.mark '(') → forBounds (ts ++ rest) = forBounds rest

theorem LoopFree.followed {ts us : List C.Token} {c : Char} (h : LoopFree ts) (hc : c ≠ '(')
    (hus : LoopFree us) : LoopFree (ts ++ .mark c :: us) := by
  intro rest hrest
  rw [List.append_assoc, List.cons_append, h _ (by simp [hc]), forBounds_cons (.inl (by simp)),
    hus rest hrest]

theorem LoopFree.inParens {ts : List C.Token} (h : LoopFree ts) (needed : Bool) :
    LoopFree (inParens needed ts) := by
  cases needed with
  | false => exact h
  | true =>
    intro rest hrest
    rw [CSource.inParens, if_pos rfl, List.cons_append, forBounds_cons (.inl (by simp)),
      List.append_assoc, List.singleton_append, h _ (by simp), forBounds_cons (.inl (by simp))]

theorem operator_ne_paren {m : Mark} (h : m.isOperator = true) : m.char ≠ '(' := by
  revert h
  cases m <;> decide

/-- No expression has a loop in it. -/
theorem Code.IsSum.loopFree : {c : Code} → c.IsSum IsWord → LoopFree c.tokens
  | .number n, _ => by
    intro rest hrest
    rw [Code.tokens]
    split
    · simp [forBounds_cons]
    · simp [forBounds_cons]
  | .var id, _ => fun rest hrest => forBounds_cons (.inr hrest)
  | .arith op l r, h =>
    ((IsSum.loopFree h.1).inParens _).followed (operator_ne_paren op.isOperator_mark)
      ((IsSum.loopFree h.2).inParens _)

theorem Code.IsTest.loopFree {c : Code} (h : c.IsTest IsWord) : LoopFree c.tokens := by
  cases c with
  | compare op l r =>
    exact h.1.loopFree.followed (operator_ne_paren op.isOperator_mark) h.2.loopFree
  | _ => exact IsSum.loopFree h

theorem Code.IsValue.loopFree {c : Code} (h : c.IsValue IsWord) : LoopFree c.tokens := by
  cases c with
  | choose c y n =>
    exact h.1.loopFree.followed (by decide) (h.2.1.loopFree.followed (by decide) h.2.2.loopFree)
  | _ => exact IsSum.loopFree h

theorem forBounds_inBraces {ts : List C.Token} {ns : List Nat}
    (h : ∀ rest, forBounds (ts ++ rest) = ns ++ forBounds rest) (rest : List C.Token) :
    forBounds (inBraces ts ++ rest) = ns ++ forBounds rest := by
  rw [inBraces, List.cons_append, forBounds_cons (.inl (by simp)), List.append_assoc,
    List.singleton_append, h, forBounds_cons (.inl (by simp))]

theorem forBounds_head (counter : String) (turns : Nat) (rest : List C.Token) :
    forBounds ([.word "for", .mark '(', .word "int", .word counter, .mark '=', .number 0,
      .mark ';', .word counter, .mark '<', .number turns, .mark ';', .word counter,
      .pair '+' '+', .mark ')'] ++ rest) = turns :: forBounds rest := by
  have hlater : forBounds (.mark '(' :: .word "int" :: .word counter :: .mark '=' ::
      .number 0 :: .mark ';' :: .word counter :: .mark '<' :: .number turns :: .mark ';' ::
      .word counter :: .pair '+' '+' :: .mark ')' :: rest) = forBounds rest := by
    simp [forBounds_cons]
  simp only [List.cons_append, List.nil_append]
  rw [forBounds, hlater]
  simp [forBound?]

mutual

/-- The loops of code have their numbers of turns as limits. -/
theorem Code.IsStatement.forBounds_eq : {c : Code} → c.IsStatement IsWord →
    (rest : List C.Token) → forBounds (c.tokens ++ rest) = c.turns ++ forBounds rest
  | .printNumber n, _, rest => by simp [Code.tokens, Code.turns, forBounds_cons]
  | .print v, h, rest => by
    have hvalue := Code.IsSum.loopFree h (.mark ')' :: .mark ';' :: rest) (by simp)
    simp [Code.tokens, Code.turns, forBounds_cons, hvalue]
  | .set declares id v, h, rest => by
    have hvalue := h.2.loopFree (.mark ';' :: rest) (by simp)
    cases declares <;> simp [Code.tokens, Code.turns, forBounds_cons, hvalue]
  | .branch chain, h, rest => Chain.IsChain.forBounds_eq h rest
  | .loop counter turns body, h, rest => by
    have hbody := forBounds_inBraces (Code.AllStatements.forBounds_eq h.2) rest
    rw [Code.tokens, List.append_assoc, forBounds_head, hbody]
    simp [Code.turns]

theorem Code.AllStatements.forBounds_eq : {cs : List Code} → Code.AllStatements IsWord cs →
    (rest : List C.Token) →
    forBounds (Code.tokensAll cs ++ rest) = Code.turnsAll cs ++ forBounds rest
  | [], _, _ => rfl
  | _ :: _, h, rest => by
    rw [Code.tokensAll, List.append_assoc, Code.IsStatement.forBounds_eq h.1,
      Code.AllStatements.forBounds_eq h.2, Code.turnsAll, List.append_assoc]

theorem Chain.IsChain.forBounds_eq : {c : Chain} → c.IsChain IsWord → (rest : List C.Token) →
    forBounds (c.tokens ++ rest) = c.turns ++ forBounds rest
  | .mk test body others last, h, rest => by
    have hlast : forBounds ((if last.isEmpty then [] else
        .word "else" :: inBraces (Code.tokensAll last)) ++ rest) =
        Code.turnsAll last ++ forBounds rest := by
      cases last with
      | nil => rfl
      | cons c cs =>
        have hblock := forBounds_inBraces (Code.AllStatements.forBounds_eq h.2.2.2) rest
        simpa [forBounds_cons] using hblock
    have hothers := Chain.AllElifs.forBounds_eq h.2.2.1 ((if last.isEmpty then [] else
      .word "else" :: inBraces (Code.tokensAll last)) ++ rest)
    have hbody := forBounds_inBraces (Code.AllStatements.forBounds_eq h.2.1)
    simp only [Chain.tokens, List.cons_append, List.append_assoc]
    rw [forBounds_cons (.inl (by simp)), forBounds_cons (.inl (by simp)),
      h.1.loopFree _ (by simp), forBounds_cons (.inl (by simp)), hbody, hothers, hlast]
    simp [Chain.turns]

theorem Chain.AllElifs.forBounds_eq : {cs : List Chain} → Chain.AllElifs IsWord cs →
    (rest : List C.Token) →
    forBounds (Chain.elseTokens cs ++ rest) = Chain.turnsAll cs ++ forBounds rest
  | [], _, _ => rfl
  | .mk test body others last :: cs, h, rest => by
    have hshape : (Chain.mk test body others last).IsChain IsWord := by
      obtain ⟨⟨htest, hbody, rfl, rfl⟩, _⟩ := h
      exact ⟨htest, hbody, trivial, trivial⟩
    rw [Chain.elseTokens, List.cons_append, forBounds_cons (.inl (by simp)), List.append_assoc,
      Chain.IsChain.forBounds_eq hshape, Chain.AllElifs.forBounds_eq h.2, Chain.turnsAll,
      List.append_assoc]

end

/-- The limits of the loops in a C text are the turns of the loops in its code. -/
theorem loopBounds_main {body : List Code} (h : Code.AllStatements IsWord body) (step : Nat) :
    loopBounds ((Code.main body).text step 0) = some (Code.turnsAll body) := by
  have hopening rest : forBounds (C.opening ++ rest) = forBounds rest := by
    simp [C.opening, forBounds_cons]
  have hclosing : forBounds C.closing = [] := by decide
  rw [loopBounds, scan_main h step, Option.map_some, Code.tokens, List.append_assoc, hopening,
    h.forBounds_eq, hclosing, List.append_nil]

theorem getElem?_of_map_some {α : Type} {ns : List Nat} {xs : List α} {f : α → Option Nat}
    (h : ns.map some = xs.map f) (j : Nat) : ns[j]? = xs[j]?.bind f := by
  have hj := congrArg (·[j]?) h
  simp only [List.getElem?_map] at hj
  cases hn : ns[j]? <;> cases hx : xs[j]? <;> simp_all

mutual

/-- A draft makes each assignment once, in the order of the text. -/
theorem DraftsTo.bindings_eq {t : Tree} {c : Code} {d d' : Draft} : DraftsTo t d c d' →
    d'.bindings = t.sweep d.bindings
  | .shown shape _ _ => (shape.sweep_eq _).symm
  | .assign _ _ _ value _ _ => by rw [Tree.sweep, value]
  | .loop _ _ _ _ block => block.bindings_eq
  | .branch _ _ _ _ block elifs otherwise => by
    rw [Tree.sweep, Branch.sweep, otherwise.bindings_eq, elifs.bindings_eq, block.bindings_eq]

theorem DraftsAll.bindings_eq {ts : List Tree} {cs : List Code} {d d' : Draft} :
    DraftsAll ts d cs d' → d'.bindings = Tree.sweepAll ts d.bindings
  | .nil _ => rfl
  | .cons head tail => by rw [Tree.sweepAll, tail.bindings_eq, head.bindings_eq]

theorem DraftsElifs.bindings_eq {bs : List Branch} {cs : List Chain} {d d' : Draft} :
    DraftsElifs bs d cs d' → d'.bindings = Branch.sweepAll bs d.bindings
  | .nil _ => rfl
  | .cons _ _ _ _ block tail => by
    rw [Branch.sweepAll, Branch.sweep, tail.bindings_eq, block.bindings_eq]
    rfl

end

mutual

/-- A drafted loop turns as often as its bound says in the sweep. -/
theorem DraftsTo.turns_eq {t : Tree} {c : Code} {d d' : Draft} : DraftsTo t d c d' →
    (S : List String) → (t.sites d.bindings S).map LoopSite.turns? = c.turns.map some
  | @DraftsTo.shown _ c _ shape _ _, S => by
    have hturns : (Code.shownAt .statement true c).turns = [] := by
      cases c <;> rfl
    rw [shape.sites_eq_nil, hturns]
    rfl
  | .assign _ _ _ _ _ _, _ => rfl
  | .loop p _ value count block, S => by
    have hbody := block.turns_eq
    have hcount := (Value.count_eq_ok _ p _).mp count
    simp only [Tree.sites, Code.turns, List.map_cons, LoopSite.turns?, Tree.turns?, value,
      Option.bind_some, hcount, hbody]
  | .branch _ _ _ _ block elifs otherwise, S => by
    simp only [Tree.sites, Branch.sites, Code.turns, Chain.turns, List.map_append,
      ← block.bindings_eq, ← elifs.bindings_eq, block.turns_eq, elifs.turns_eq,
      otherwise.turns_eq]

theorem DraftsAll.turns_eq {ts : List Tree} {cs : List Code} {d d' : Draft} :
    DraftsAll ts d cs d' → (S : List String) →
    (Tree.sitesAll ts d.bindings S).map LoopSite.turns? = (Code.turnsAll cs).map some
  | .nil _, _ => rfl
  | .cons head tail, S => by
    simp only [Tree.sitesAll, Code.turnsAll, List.map_append, ← head.bindings_eq, head.turns_eq,
      tail.turns_eq]

theorem DraftsElifs.turns_eq {bs : List Branch} {cs : List Chain} {d d' : Draft} :
    DraftsElifs bs d cs d' → (S : List String) →
    (Branch.sitesAll bs d.bindings S).map LoopSite.turns? = (Chain.turnsAll cs).map some
  | .nil _, _ => rfl
  | .cons _ _ _ _ block tail, S => by
    have hbranch := block.bindings_eq
    simp only [Branch.sitesAll, Branch.sites, Branch.sweep, Branch.sweepAll, Tree.sitesAll,
      Tree.sweepAll, Chain.turnsAll, Chain.turns, Code.turnsAll, List.map_append, ← hbranch,
      block.turns_eq, tail.turns_eq, List.append_nil]

end

/-- The constants in a C text and the turns of the script. The loops of the text are those of
the script, in the same order, and the constant of each is the number of turns that its
bound says in a sweep. A run that comes to the loop takes as many turns as its bound says
there. So the constant is right exactly when these two numbers are the same, and it always
is where no name of the bound drifts. -/
theorem turns_of_reaches {source text : String} {body : List Tree} {step : Nat}
    {room : Option Nat} (hparse : Script.parse source = .ok (.program body))
    (hrun : (Script.run source { room := room }).result = .ok ())
    (htext : Script.toC source step = .ok text) :
    (Tree.sitesAll body .empty []).map LoopSite.bound = Tree.boundsAll body ∧
    ∃ emitted, C.loopBounds text = some emitted ∧
      emitted.map some = (Tree.sitesAll body .empty []).map LoopSite.turns? ∧
      ∀ bound block p j m, Reaches ⟨.tree (.program body), 0, { output := { room := room } }⟩
          ⟨.tree (.loop bound block p), j, m⟩ →
        ∃ swept drifting n m',
          (Tree.sitesAll body .empty [])[j]? = some ⟨bound, swept, drifting⟩ ∧
          bound.turns? m.bindings = some n ∧
          Gives (Run.times n (Tree.runAll block)) m () m' ∧
          (emitted[j]? = some n ↔ bound.turns? m.bindings = bound.turns? swept) ∧
          ((∀ id ∈ bound.names, id ∉ drifting) → emitted[j]? = some n) := by
  obtain ⟨cs, d, hdraft, rfl⟩ := Script.draftsAll_of_toC hparse htext
  obtain ⟨m₁, hgives, _⟩ := Script.gives_of_run hparse hrun
  have hstatements := Script.allStatements_of_parse hparse
  have hwords := hdraft.allStatements (fun n => (isVariable_counter n).1)
    fun id hid => isWord_of_isName (Script.isName_of_parse hparse hid)
  have hturns : (Tree.sitesAll body .empty []).map LoopSite.turns? = (Code.turnsAll cs).map some :=
    hdraft.turns_eq []
  refine ⟨Tree.map_bound_sitesAll hstatements _ _, Code.turnsAll cs,
    loopBounds_main hwords step, hturns.symm, ?_⟩
  intro bound block p j m hreach
  obtain ⟨b, S, n, m', hsite, hagrees, hn, hblock⟩ :=
    exists_site_of_reaches hstatements hgives hreach
  have hemitted := getElem?_of_map_some hturns.symm j
  rw [hsite] at hemitted
  have hiff : (Code.turnsAll cs)[j]? = some n ↔ bound.turns? m.bindings = bound.turns? b := by
    rw [hemitted, hn, eq_comm]
    rfl
  -- Names that do not drift give the bound the same value in the run and in the sweep.
  refine ⟨b, S, n, m', hsite, hn, hblock, hiff, fun hnames => hiff.mpr ?_⟩
  rw [Tree.turns?, Tree.turns?, hagrees.value? hnames]

/-- The script `let n = 3; repeat n { let n = n - 1; }`. -/
def countdown : List Tree :=
  [.assign "n" (.literal 3 false ⟨1, 9⟩) ⟨1, 1⟩,
    .loop (.name "n" false ⟨1, 19⟩)
      [.assign "n" (.arith .sub (.name "n" false ⟨1, 31⟩) (.literal 1 false ⟨1, 35⟩) false ⟨1, 33⟩)
        ⟨1, 23⟩] ⟨1, 12⟩]

def countdownCode : Code :=
  .main [.set true "n" (.number 3),
    .loop "_r0" 3 [.set false "n" (.arith .sub (.var "n") (.number 1))]]

/-- The bound is fixed when the loop starts, in the script as in C. -/
theorem countdown_turns :
    Script.parse "let n = 3; repeat n \x7b let n = n - 1; \x7d" = .ok (.program countdown) ∧
    (Script.run "let n = 3; repeat n \x7b let n = n - 1; \x7d" {}).result = .ok () ∧
    C.loopBounds (countdownCode.text 4 0) = some [3] ∧
    ∀ bound block p j m, Reaches ⟨.tree (.program countdown), 0, {}⟩
        ⟨.tree (.loop bound block p), j, m⟩ →
      ∃ m', Gives (Run.times 3 (Tree.runAll block)) m () m' := by
  have hparse : Script.parse "let n = 3; repeat n \x7b let n = n - 1; \x7d" =
      .ok (.program countdown) := by with_unfolding_all rfl
  have hend : (Tree.program countdown).run.run {} =
      (.ok none, ⟨Bindings.empty.define "n" (.integer 0), {}⟩) := rfl
  have hrun : (Script.run "let n = 3; repeat n \x7b let n = n - 1; \x7d" {}).result = .ok () :=
    congrArg Script.Outcome.result (Script.run_of_parse hparse hend)
  have hdraft : (((Tree.program countdown).draft .statement).run {}).1 = .ok countdownCode := rfl
  have htext := Script.toC_of_draft hparse hdraft 4
  obtain ⟨_, emitted, hemitted, hswept, hturns⟩ := turns_of_reaches hparse hrun htext
  have hsites : Tree.sitesAll countdown .empty [] =
      [⟨.name "n" false ⟨1, 19⟩, Bindings.empty.define "n" (.integer 3), []⟩] := rfl
  have hthree : (Tree.name "n" false ⟨1, 19⟩).turns? (Bindings.empty.define "n" (.integer 3)) =
      some 3 := by
    rw [Tree.turns?, Tree.value?, Bindings.get?_define, if_pos rfl]
    rfl
  obtain rfl : emitted = [3] := by
    simpa [hsites, LoopSite.turns?, hthree, List.map_eq_cons_iff] using hswept
  refine ⟨hparse, hrun, hemitted, fun bound block p j m hreach => ?_⟩
  obtain ⟨swept, drifting, n, m', hsite, _, hblock, _, hsettled⟩ := hturns bound block p j m hreach
  rw [hsites, List.getElem?_eq_some_iff] at hsite
  obtain ⟨hj, hsite⟩ := hsite
  obtain rfl : j = 0 := by simpa using hj
  cases hsite
  cases hsettled (by simp)
  exact ⟨m', hblock⟩

/-- The script `let n = 1; if 0 { let n = 5; } repeat n { n; }`. -/
def skippedBlock : List Tree :=
  [.assign "n" (.literal 1 false ⟨1, 9⟩) ⟨1, 1⟩,
    .branch ⟨.literal 0 false ⟨1, 15⟩, [.assign "n" (.literal 5 false ⟨1, 27⟩) ⟨1, 19⟩], [], [],
      ⟨1, 12⟩⟩,
    .loop (.name "n" false ⟨1, 39⟩) [.name "n" true ⟨1, 43⟩] ⟨1, 32⟩]

def skippedBlockCode : List Code :=
  [.set true "n" (.number 1), .branch ⟨.number 0, [.set false "n" (.number 5)], [], []⟩,
    .loop "_r0" 5 [.print (.var "n")]]

/-- A block that no run comes to still changes the constant of a loop after it: the script
takes one turn and prints one line, its C text would take five. -/
theorem skippedBlock_turns_differ :
    Script.parse "let n = 1; if 0 \x7b let n = 5; \x7d repeat n \x7b n; \x7d" =
      .ok (.program skippedBlock) ∧
    Script.run "let n = 1; if 0 \x7b let n = 5; \x7d repeat n \x7b n; \x7d" {} = ⟨.ok (), "1\n"⟩ ∧
    Script.toC "let n = 1; if 0 \x7b let n = 5; \x7d repeat n \x7b n; \x7d" 4 =
      .ok ((Code.main skippedBlockCode).text 4 0) ∧
    C.loopBounds ((Code.main skippedBlockCode).text 4 0) = some [5] ∧
    ∃ m, Reaches ⟨.tree (.program skippedBlock), 0, {}⟩
        ⟨.tree (.loop (.name "n" false ⟨1, 39⟩) [.name "n" true ⟨1, 43⟩] ⟨1, 32⟩), 0, m⟩ ∧
      (Tree.name "n" false ⟨1, 39⟩).turns? m.bindings = some 1 := by
  have hparse : Script.parse "let n = 1; if 0 \x7b let n = 5; \x7d repeat n \x7b n; \x7d" =
      .ok (.program skippedBlock) := by with_unfolding_all rfl
  have hend : (Tree.program skippedBlock).run.run {} =
      (.ok none, ⟨Bindings.empty.define "n" (.integer 1), ⟨"1\n", none⟩⟩) := rfl
  have hdraft : (((Tree.program skippedBlock).draft .statement).run {}).1 =
      .ok (.main skippedBlockCode) := rfl
  have hn : IsWord "n" := isWord_of_chars _ _ rfl rfl rfl
  have hcounter : IsWord "_r0" := isWord_of_chars _ _ rfl rfl rfl
  have hwords : Code.AllStatements IsWord skippedBlockCode :=
    ⟨⟨hn, trivial⟩, ⟨trivial, ⟨⟨hn, trivial⟩, trivial⟩, trivial, trivial⟩,
      ⟨hcounter, hn, trivial⟩, trivial⟩
  have hassign : Gives (Tree.assign "n" (.literal 1 false ⟨1, 9⟩) ⟨1, 1⟩).run {} none
      { bindings := Bindings.empty.define "n" (.integer 1) } :=
    (gives_run_assign (v := .literal 1 false ⟨1, 9⟩) rfl ..).mpr ⟨.integer 1, rfl, rfl, rfl⟩
  have hbranch (m : Machine) : Gives (Tree.branch ⟨.literal 0 false ⟨1, 15⟩,
      [.assign "n" (.literal 5 false ⟨1, 27⟩) ⟨1, 19⟩], [], [], ⟨1, 12⟩⟩).run m none m :=
    (gives_run_branch ..).mpr ⟨rfl, false, (gives_run_elif (c := .literal 0 false ⟨1, 15⟩) rfl
      ..).2.mpr ⟨.integer 0, rfl, rfl, rfl⟩⟩
  refine ⟨hparse, Script.run_of_parse hparse hend, Script.toC_of_draft hparse hdraft 4,
    loopBounds_main hwords 4, { bindings := Bindings.empty.define "n" (.integer 1) }, ?_, ?_⟩
  · refine .head (.program ..) (.head (.tail _ _ hassign) (.head (.tail _ _ (hbranch _)) ?_))
    exact .single (.head ..)
  · rw [Tree.turns?, Tree.value?, Bindings.get?_define, if_pos rfl]
    rfl

end CSource

end Scriptlet
