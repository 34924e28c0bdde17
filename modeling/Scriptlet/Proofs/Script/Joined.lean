import Scriptlet.Proofs.Token.Joined
import Scriptlet.Proofs.Grammar.Moved
import Scriptlet.Proofs.Grammar.Complete
import Scriptlet.Proofs.CSource.Moved
import Scriptlet.Proofs.Script

/-!
Scripts joined by a newline. Every stage composes: the tokens of the second text follow those
of the first further down, its statements follow the first ones, and its run goes on where
the first one ended. Nothing at the seam can be taken for a continuation: no lexeme goes
over a newline, and no statement starts with what could continue the one before it.
-/
namespace Scriptlet

namespace Grammar

theorem Phrase.Statements.append {ts us : List Token} {body body' : List Tree} :
    Statements ts body → Statements us body' → Statements (ts ++ us) (body ++ body')
  | .nil, h' => h'
  | .cons head tail, h' => by
    rw [List.append_assoc, List.cons_append]
    exact .cons head (tail.append h')

theorem Unsigned.moved {f : Position → Position} {ts : List Token} (h : Unsigned ts) :
    Unsigned (ts.map (Token.moved f)) := by
  intro k hk n hn
  obtain ⟨t, ht, rfl⟩ := List.mem_map.mp hk
  exact h t ht n hn

/-- Statements that are read one after another and further down. -/
theorem program_append_moved {f : Position → Position} {ts us : List Token}
    {body body' : List Tree} (hus : Unsigned us)
    (h : Phrase.Program ts (.program body)) (h' : Phrase.Program us (.program body')) :
    program (ts ++ us.map (Token.moved f)) =
      .ok (.program (body ++ body'.map (Tree.moved f))) := by
  obtain ⟨all⟩ := h
  obtain ⟨all'⟩ := h'
  have hmoved : statements (us.map (Token.moved f)) = .ok (body'.map (Tree.moved f)) := by
    rw [statements_moved, all'.eq_ok, ← Tree.movedAll_eq_map]
    rfl
  have hphrase := statements_sound hmoved hus.moved
  exact (Phrase.Program.statements (all.append hphrase)).eq_ok

end Grammar

/-- Statements behind statements run one after the other. -/
theorem Tree.run_program_append (body body' : List Tree) :
    (Tree.program (body ++ body')).run =
      (Tree.program body).run >>= fun _ => (Tree.program body').run := by
  simp only [Tree.run, Tree.runAll_append, bind_assoc, pure_bind]

section Append

variable {body body' : List Tree} {m₀ m : Machine}

theorem Tree.run_program_append_of_ok {a : Option Value}
    (h : (Tree.program body).run.run m₀ = (.ok a, m)) :
    (Tree.program (body ++ body')).run.run m₀ = (Tree.program body').run.run m := by
  rw [Tree.run_program_append, run_bind, h]

theorem Tree.run_program_append_of_error {e : RunError}
    (h : (Tree.program body).run.run m₀ = (.error e, m)) :
    (Tree.program (body ++ body')).run.run m₀ = (.error e, m) := by
  rw [Tree.run_program_append, run_bind, h]

end Append

namespace Script

open Token (linesOf)

/-- Two scripts, one below the other, have the statements of both, the later ones further down. -/
theorem parse_joined {s s' : String} {body body' : List Tree}
    (h : parse s = .ok (.program body)) (h' : parse s' = .ok (.program body')) :
    parse (s ++ "\n" ++ s') =
      .ok (.program (body ++ body'.map (Tree.moved (.down (linesOf s))))) := by
  obtain ⟨ts, hscan, hphrase⟩ := phrase_of_parse h
  obtain ⟨us, hscan', hphrase'⟩ := phrase_of_parse h'
  have hjoined : Token.scan (s ++ "\n" ++ s') =
      .ok (ts ++ us.map (Token.moved (.down (linesOf s)))) := by
    rw [Token.scan_append_newline, hscan, hscan']
    rfl
  have hprogram := Grammar.program_append_moved (f := .down (linesOf s))
    (Token.scan_unsigned hscan') hphrase hphrase'
  unfold parse
  simp only [hjoined, hprogram]

/-- A script moved down the page, run where another one has ended. -/
theorem run_moved_after {body : List Tree} {n : Nat} (h : Tree.AllStatements body)
    {m m' : Machine} {r : Except RunError (Option Value)}
    (hrun : (Tree.program body).run.run ⟨m.bindings, ⟨"", m.output.room⟩⟩ = (r, m')) :
    (Tree.program (body.map (Tree.moved (.down n)))).run.run m =
      (r.mapError (RunError.moved (.down n)), m'.behind m.output.text) := by
  have hbehind : m = Machine.behind m.output.text ⟨m.bindings, ⟨"", m.output.room⟩⟩ := by
    simp [Machine.behind, Output.behind]
  have hmoved := Tree.relocates_program (.down n) m.output.text h ⟨m.bindings, ⟨"", m.output.room⟩⟩
  rw [Relocates, ← hbehind, hrun, Tree.moved, Tree.movedAll_eq_map] at hmoved
  exact hmoved

/-- Joining scripts composes them. A text that is refused is refused with anything after it;
else the tokens of the second text follow further down, and an error in it is further down
too. Where both texts are scripts, the statements of the second follow those of the first, and
run on the bindings and behind the output that the first leaves; if the first script fails,
the second has no effect. -/
theorem joined_composes (s s' : String) :
    (∀ e, Token.scan s = .error e → Token.scan (s ++ "\n" ++ s') = .error e) ∧
    (∀ ts, Token.scan s = .ok ts → Token.scan (s ++ "\n" ++ s') =
      ((Token.scan s').map fun us => ts ++ us.map (Token.moved (.down (linesOf s)))).mapError
        (ScanError.moved (.down (linesOf s)))) ∧
    ∀ body body', parse s = .ok (.program body) → parse s' = .ok (.program body') →
      parse (s ++ "\n" ++ s') =
        .ok (.program (body ++ body'.map (Tree.moved (.down (linesOf s))))) ∧
      ∀ output,
        (∀ a m, (Tree.program body).run.run { output := output } = (.ok a, m) →
          run s output = ⟨.ok (), m.output.text⟩ ∧
          ∀ r m', (Tree.program body').run.run ⟨m.bindings, ⟨"", m.output.room⟩⟩ = (r, m') →
            run (s ++ "\n" ++ s') output =
              ⟨(r.map fun _ => ()).mapError fun e => .run (e.moved (.down (linesOf s))),
                m.output.text ++ m'.output.text⟩) ∧
        ∀ e, (run s output).result = .error e → run (s ++ "\n" ++ s') output = run s output := by
  refine ⟨?_, ?_, ?_⟩
  · intro e he
    rw [Token.scan_append_newline, he]
    rfl
  · intro ts hts
    rw [Token.scan_append_newline, hts]
    cases Token.scan s' <;> rfl
  · intro body body' h h'
    have hparse := parse_joined h h'
    refine ⟨hparse, fun output => ⟨?_, ?_⟩⟩
    · intro a m hfirst
      refine ⟨run_of_parse h hfirst, fun r m' hsecond => ?_⟩
      -- The statements of the second text run moved, and behind what the first has printed.
      have hmoved := run_moved_after (n := linesOf s) (allStatements_of_parse h') hsecond
      have hjoined := (Tree.run_program_append_of_ok hfirst).trans hmoved
      rw [run_of_parse hparse hjoined]
      cases r <;> rfl
    · intro e he
      cases hfirst : (Tree.program body).run.run { output := output } with
      | mk r m =>
        have hrun := run_of_parse h hfirst
        cases r with
        | ok a =>
          rw [hrun] at he
          cases he
        | error e' =>
          rw [hrun]
          exact run_of_parse hparse (Tree.run_program_append_of_error hfirst)

/-- The second script sees the variable of the first, and its error counts the lines of both. -/
theorem definedAbove_composes :
    parse "let x = 2;" = .ok (.program [.assign "x" (.literal 2 false ⟨1, 9⟩) ⟨1, 1⟩]) ∧
    parse "x;\ny;" = .ok (.program [.name "x" true ⟨1, 1⟩, .name "y" true ⟨2, 1⟩]) ∧
    run ("let x = 2;" ++ "\n" ++ "x;\ny;") {} = ⟨.error (.run (.unbound "y" ⟨3, 1⟩)), "2\n"⟩ := by
  have h : parse "let x = 2;" =
      .ok (.program [.assign "x" (.literal 2 false ⟨1, 9⟩) ⟨1, 1⟩]) := by with_unfolding_all rfl
  have h' : parse "x;\ny;" =
      .ok (.program [.name "x" true ⟨1, 1⟩, .name "y" true ⟨2, 1⟩]) := by with_unfolding_all rfl
  obtain ⟨_, hruns⟩ := (joined_composes "let x = 2;" "x;\ny;").2.2 _ _ h h'
  obtain ⟨_, hjoined⟩ := (hruns {}).1 none ⟨.define .empty "x" (.integer 2), {}⟩ rfl
  refine ⟨h, h', ?_⟩
  rw [hjoined (.error (.unbound "y" ⟨2, 1⟩)) ⟨.define .empty "x" (.integer 2), ⟨"2\n", none⟩⟩]
  · rfl
  · with_unfolding_all rfl

end Script

end Scriptlet
