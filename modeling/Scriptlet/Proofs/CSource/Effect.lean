import Scriptlet.Proofs.CSource.Stops

/-!
What drafting does to bindings. Whatever the blocks and loops of a script are, a draft makes
its assignments one after another in the order of the text, each once; if it fails, it has made
the first ones of them. The bound of a loop is evaluated under what the assignments before
the loop leave.
-/
namespace Scriptlet

def Entry.bound? : Entry → Option Tree
  | repeats b _ => some b
  | _ => none

namespace CSource

open C

/-- Each loop has one number of turns. -/
theorem Emits.length_turns {es : List Entry} {xs : List Event} {d d' : Draft}
    (h : Emits es d xs d') :
    (xs.filterMap Event.turns?).length = (es.filterMap Entry.bound?).length := by
  induction h with
  | nil d => rfl
  | cons head _ ih =>
    cases head with
    | repeats => exact congrArg (· + 1) ih
    | _ => exact ih

/-- The limit of a loop comes from its bound, under what is assigned before it. -/
theorem Emits.getElem?_turns {before after : List Entry} {bound : Tree} {p : Position}
    {xs : List Event} {d d' : Draft}
    (h : Emits (before ++ .repeats bound p :: after) d xs d') :
    ∃ b x n, make? before d.bindings = some b ∧ bound.value? b = some x ∧ x.count p = .ok n ∧
      (xs.filterMap Event.turns?)[(before.filterMap Entry.bound?).length]? = some n := by
  obtain ⟨ys, _, d₁, rfl, hbefore, hrest⟩ := h.split
  cases hrest with
  | cons head _ =>
    cases head with
    | repeats value count _ =>
      refine ⟨d₁.bindings, _, _, hbefore.make?_eq, value, count, ?_⟩
      rw [← hbefore.length_turns]
      simp [Event.turns?]

/-- A draft of a script, from any bindings. If it gives code, the bindings it leaves are those
that the assignments of the script leave when they are run one after another, and each loop
of the text has the number that its bound has after the assignments before the loop. If it
fails, it has made the first of the assignments. -/
theorem draft_makes_assignments {source : String} {body : List Tree}
    (hparse : Script.parse source = .ok (.program body)) (d : Draft) :
    (∀ code d', Gives ((Tree.program body).draft .statement) d code d' →
      (∀ output, Gives (Tree.runAll (assignments (Tree.outlineAll body))) ⟨d.bindings, output⟩ ()
        ⟨d'.bindings, output⟩) ∧
      ∀ step, ∃ events, C.outline (code.text step 0) = some events ∧
        (events.filterMap Event.turns?).length =
          ((Tree.outlineAll body).filterMap Entry.bound?).length ∧
        ∀ before bound p after, Tree.outlineAll body = before ++ .repeats bound p :: after →
          ∃ b v n, (∀ output, Gives (Tree.runAll (assignments before)) ⟨d.bindings, output⟩ ()
              ⟨b, output⟩) ∧
            (∀ output, Gives bound.runValue ⟨b, output⟩ v ⟨b, output⟩) ∧ v.count p = .ok n ∧
            (events.filterMap Event.turns?)[(before.filterMap Entry.bound?).length]? = some n) ∧
    ∀ e d', Fails ((Tree.program body).draft .statement) d e d' →
      ∃ made, made <+: assignments (Tree.outlineAll body) ∧
        ∀ output, Gives (Tree.runAll made) ⟨d.bindings, output⟩ () ⟨d'.bindings, output⟩ := by
  have hstatements := Script.allStatements_of_parse hparse
  have hshaped := hstatements.isShaped
  refine ⟨fun code d' hdraft => ?_, fun e d' hfails => ?_⟩
  · simp only [Tree.draft, gives_bind, gives_pure] at hdraft
    obtain ⟨cs, _, hbody, rfl, rfl⟩ := hdraft
    have hdrafts := draftsAll hstatements hbody
    refine ⟨fun output => ?_, fun step => ⟨Code.eventsAll cs, hdrafts.outline_text hparse step,
      hdrafts.emits.length_turns, fun before bound p after hsplit => ?_⟩⟩
    · exact (gives_assignments hshaped _ _).mpr ⟨_, hdrafts.emits.make?_eq, rfl⟩
    · rw [hsplit] at hshaped
      have hemits := hdrafts.emits
      rw [hsplit] at hemits
      obtain ⟨b, v, n, hmade, hvalue, hcount, hturns⟩ := hemits.getElem?_turns
      have hquiet : bound.IsQuiet := hshaped (.repeats bound p) (by simp)
      refine ⟨b, v, n, fun output => ?_, fun output => ?_, hcount, hturns⟩
      · exact (gives_assignments (fun e he => hshaped e (by simp [he])) _ _).mpr ⟨b, hmade, rfl⟩
      · rw [gives_runValue]
        exact (hquiet.isSilent.runsSilently _ _ _).mpr ⟨v, hvalue, rfl, rfl⟩
  · simp only [Tree.draft, fails_bind, not_fails_pure, and_false, exists_false,
      or_false] at hfails
    obtain ⟨before, hbefore, hmade⟩ := (stopsIn_draftAll hstatements hfails).made
    refine ⟨assignments before, hbefore.filterMap _, fun output => ?_⟩
    exact (gives_assignments (fun e he => hshaped e (hbefore.subset he)) _ _).mpr ⟨_, hmade, rfl⟩

/-- The script `let y = x; repeat y { let x = 0; }`. -/
def resetInLoop : List Tree :=
  [.assign "y" (.name "x" false ⟨1, 9⟩) ⟨1, 1⟩,
    .loop (.name "y" false ⟨1, 19⟩) [.assign "x" (.literal 0 false ⟨1, 31⟩) ⟨1, 23⟩] ⟨1, 12⟩]

/-- The code of `resetInLoop` where `x` is bound to two. -/
def resetInLoopCode : Code :=
  .main [.set true "y" (.var "x"), .loop "_r0" 2 [.set false "x" (.number 0)]]

def resetInLoopAssignments : List Tree :=
  [.assign "y" (.name "x" false ⟨1, 9⟩) ⟨1, 1⟩, .assign "x" (.literal 0 false ⟨1, 31⟩) ⟨1, 23⟩]

/-- Where `x` is bound, the draft makes both assignments once, though the loop would turn
twice. Where it is not, the draft fails and has made the first ones, here none. -/
theorem resetInLoop_makes_assignments :
    Script.parse "let y = x; repeat y \x7b let x = 0; \x7d" = .ok (.program resetInLoop) ∧
    (∃ d', Gives ((Tree.program resetInLoop).draft .statement)
        { bindings := Bindings.empty.define "x" (.integer 2) } resetInLoopCode d' ∧
      Gives (Tree.runAll resetInLoopAssignments) ⟨Bindings.empty.define "x" (.integer 2), {}⟩ ()
        ⟨d'.bindings, {}⟩) ∧
    ∃ d' made, Fails ((Tree.program resetInLoop).draft .statement) {} (.unbound "x" ⟨1, 9⟩) d' ∧
      made <+: resetInLoopAssignments ∧ Gives (Tree.runAll made) {} () ⟨d'.bindings, {}⟩ := by
  have hparse : Script.parse "let y = x; repeat y \x7b let x = 0; \x7d" =
      .ok (.program resetInLoop) := by with_unfolding_all rfl
  have hcode : (((Tree.program resetInLoop).draft .statement).run
      { bindings := Bindings.empty.define "x" (.integer 2) }).1 = .ok resetInLoopCode := rfl
  have hgives : Gives ((Tree.program resetInLoop).draft .statement)
      { bindings := Bindings.empty.define "x" (.integer 2) } resetInLoopCode _ :=
    Prod.ext hcode rfl
  have hfails : Fails ((Tree.program resetInLoop).draft .statement) {} (.unbound "x" ⟨1, 9⟩)
      {} := rfl
  obtain ⟨hmakes, _⟩ := (draft_makes_assignments hparse _).1 _ _ hgives
  obtain ⟨made, hmade, hruns⟩ := (draft_makes_assignments hparse _).2 _ _ hfails
  exact ⟨hparse, ⟨_, hgives, hmakes {}⟩, _, made, hfails, hmade, hruns {}⟩

end CSource

end Scriptlet
